import Taglet.Proofs.Checking
import Taglet.Proofs.Declaring

/-!
# Taglet.Proofs.CheckedProgram

The checker decides the type system: it accepts just the well typed programs,
and what it records for the expressions of an accepted program are their
types.

The names are declared first (`Taglet.Proofs.Declaring`).  Then the statements
are checked in order; what is carried along is that the slots marked as
initialized are those of the globals declared so far, so that an initializer
is checked against just these.
-/

namespace Taglet

open List (Forall₂)

/-! ## Types are unique -/

/-- The operator alone tells the type of a binary operation. -/
theorem Expr.HasType.eq_of_binary {Γ : Visible} {op : Operator} {l r : Expr} {t : Ty}
    (h : (Expr.binary op l r).HasType Γ t) : t = if op.isArith then .int else .bool := by
  cases h with
  | arith arith => rw [if_pos arith]
  | order order => cases op <;> simp_all [Operator.isOrder, Operator.isArith]
  | equality equality => cases op <;> simp_all [Operator.isEquality, Operator.isArith]
  | is => rfl

/-- An expression has at most one type. -/
theorem Expr.HasType.unique {Γ : Visible} {e : Expr} {t t' : Ty} (h : e.HasType Γ t)
    (h' : e.HasType Γ t') : t = t' := by
  cases e with
  | missing => cases h
  | none | bool _ | num _ | intrinsic1 _ _ | intrinsic2 _ _ _ =>
      cases h
      cases h'
      rfl
  | unary op arg => cases h <;> cases h' <;> rfl
  | binary op l r => rw [h.eq_of_binary, h'.eq_of_binary]
  | ident x =>
      cases h with
      | ident bound =>
          cases h' with
          | ident bound' => exact Option.some.inj (bound.symm.trans bound')
  | call f args =>
      cases h with
      | call defined =>
          cases h' with
          | call defined' => rw [Option.some.inj (defined.symm.trans defined')]

/-! ## What initializers see -/

/-- The slots below `n` are marked. -/
def SlotSet.HasBelow (s : SlotSet) (n : Nat) : Prop :=
  ∀ i : Nat, s.contains i = decide (i < n)

theorem SlotSet.hasBelow_empty : SlotSet.empty.HasBelow 0 := by
  intro i
  simp

/-- Marking the next slot. -/
theorem SlotSet.HasBelow.insert {s : SlotSet} {n : Nat} (h : s.HasBelow n) :
    (s.insert n).HasBelow (n + 1) := by
  intro i
  rw [contains_insert, h i, ← Bool.decide_or]
  exact decide_eq_decide.mpr (by omega)

/-- An initializer is checked against the globals whose slots are marked. -/
theorem Declared.visible_ready {p : Program} {env : Env} (h : Declared p env) {ready : SlotSet}
    {n : Nat} (hr : ready.HasBelow n) :
    ({ env, ready := some ready } : Context).visible = .ofGlobals (p.globals.take n) := by
  have hvars : (fun x => (env.lookup? x).bind fun b =>
      if ({ env, ready := some ready } : Context).isReadable b then some b.ty else none) =
      fun x => (p.globals.take n).lookup x := by
    funext x
    rw [h.lookup_take]
    cases hb : env.lookup? x with
    | none => rfl
    | some b =>
        have hlocal : b.isLocal = false := by
          rw [Binding.isLocal, (h.topLevel.global_of_lookup? hb).1]
          rfl
        simp only [Option.bind_some, Context.isReadable, hlocal, Bool.false_or, hr b.slot,
          decide_eq_true_eq]
  rw [Context.visible, hvars]
  rfl

/-! ## Statements in order -/

section Items

variable {p : Program} {env : Env}

/-- The global that the next declaration declares has the next slot. -/
theorem Declared.lookup?_next (h : Declared p env) {done rest : Program} {d : Decl}
    (hp : p = done ++ .decl d :: rest) :
    env.lookup? d.name = some ⟨d.name, d.ty, .global, done.globals.length⟩ := by
  apply h.lookup?_of_getElem?
  rw [hp, Program.globals_append]
  simp [Program.globals, Stmt.global?]

/-- The globals declared so far come first among those of the program. -/
theorem Program.take_globals {p done rest : Program} (hp : p = done ++ rest) :
    p.globals.take done.globals.length = done.globals := by
  rw [hp, globals_append, List.take_left]

/-- **Soundness, top level**: accepted statements are well typed, and the
recorded types are those of their expressions. -/
theorem checkAll_sound (h : Declared p env) (hnames : ∀ f ∈ p.signatures, f.1 ≠ "")
    {done rest : Program} {ready : SlotSet} {types : List Ty} (hp : p = done ++ rest)
    (hr : ready.HasBelow done.globals.length) (hc : checkAll env ready rest = .ok types) :
    Program.ItemsTyped p.visible done.globals rest ∧
      Forall₂ Occurrence.HasType (Program.occurrencesFrom p.visible done.globals rest) types := by
  induction rest generalizing done ready types with
  | nil =>
      cases hc
      exact ⟨.nil, .nil⟩
  | cons s rest ih =>
      simp only [checkAll, bind_eq_ok_iff, Prod.exists, pure_eq_ok_iff] at hc
      obtain ⟨ready', head, hs, more, hrest, rfl⟩ := hc
      have hp' : p = (done ++ [s]) ++ rest := by rw [hp, List.append_assoc, List.singleton_append]
      have hglobals : Program.globals (done ++ [s]) = done.globals ++ Program.globals [s] :=
        Program.globals_append done [s]
      cases s with
      | decl d =>
          simp only [checkTop, h.lookup?_next hp, bind_eq_ok_iff, expect_eq_ok_iff,
            pure_eq_ok_iff, Prod.mk.injEq] at hs
          obtain ⟨T, hT, -, hty, rfl, rfl⟩ := hs
          have hone : Program.globals [.decl d] = [(d.name, d.ty)] := rfl
          rw [hone] at hglobals
          have hready : (ready.insert done.globals.length).HasBelow
              (Program.globals (done ++ [.decl d])).length := by
            rw [hglobals, List.length_append]
            exact hr.insert
          obtain ⟨hmore, hmtypes⟩ := ih hp' hready hrest
          rw [hglobals] at hmore hmtypes
          have hinner := Expr.infer_sound _ d.value T hT
          rw [h.visible_ready hr, Program.take_globals hp] at hinner
          have hvalue := Expr.hasType_of_forall₂ hinner
          rw [hty] at hvalue
          exact ⟨.decl hvalue hmore, List.rel_append (Occurrence.forall₂ hinner) hmtypes⟩
      | define name params ret decls body =>
          simp only [checkTop, bind_eq_ok_iff, pure_eq_ok_iff, Prod.mk.injEq] at hs
          obtain ⟨ts, hf, rfl, rfl⟩ := hs
          have hname : name ≠ "" :=
            hnames (name, ⟨params.map (·.ty), ret⟩) (by
              rw [hp]
              simp [Program.signatures, Stmt.signature?])
          have hone : Program.globals [.define name params ret decls body] = [] := rfl
          rw [hone, List.append_nil] at hglobals
          obtain ⟨hmore, hmtypes⟩ := ih hp' (by rwa [hglobals]) hrest
          rw [hglobals] at hmore hmtypes
          obtain ⟨hfunction, hftypes⟩ := checkFunction_sound hname hf
          rw [h.visible_eq] at hfunction hftypes
          exact ⟨.define hfunction hmore, List.rel_append hftypes hmtypes⟩
      | missing | pass | expr _ | ret _ | assign _ _ | branch _ _ _ | loop _ _ =>
          simp only [checkTop, bind_eq_ok_iff, pure_eq_ok_iff, Prod.mk.injEq] at hs
          obtain ⟨a, ha, rfl, rfl⟩ := hs
          have hone : ∀ s : Stmt, s.global? = none → Program.globals [s] = [] := by
            intro s hs
            simp [Program.globals, hs]
          rw [hone _ rfl, List.append_nil] at hglobals
          obtain ⟨hmore, hmtypes⟩ := ih hp' (by rwa [hglobals]) hrest
          rw [hglobals] at hmore hmtypes
          obtain ⟨htyped, hatypes⟩ := Stmt.check_sound env _ a ha
          rw [h.visible_eq] at htyped hatypes
          have hret : Returns a.returns none := by
            rw [Stmt.returns_eq_none_of_isTop h.topLevel.isTop _ a ha]
            exact returns_none none
          exact ⟨.stmt (htyped none hret) hmore,
            List.rel_append (Occurrence.forall₂ hatypes) hmtypes⟩

/-- **Completeness, top level**: well typed statements are accepted. -/
theorem checkAll_complete (h : Declared p env) (hnames : ∀ f ∈ p.signatures, f.1 ≠ "")
    {done rest : Program} {ready : SlotSet} (hp : p = done ++ rest)
    (hr : ready.HasBelow done.globals.length)
    (hitems : Program.ItemsTyped p.visible done.globals rest) :
    ∃ types, checkAll env ready rest = .ok types := by
  induction rest generalizing done ready with
  | nil => exact ⟨[], rfl⟩
  | cons s rest ih =>
      have hp' : p = (done ++ [s]) ++ rest := by rw [hp, List.append_assoc, List.singleton_append]
      have hglobals : Program.globals (done ++ [s]) = done.globals ++ Program.globals [s] :=
        Program.globals_append done [s]
      cases hitems with
      | @decl _ d _ value more =>
          have hone : Program.globals [.decl d] = [(d.name, d.ty)] := rfl
          rw [hone] at hglobals
          have hready : (ready.insert done.globals.length).HasBelow
              (Program.globals (done ++ [.decl d])).length := by
            rw [hglobals, List.length_append]
            exact hr.insert
          obtain ⟨types, htypes⟩ := ih hp' hready (by rwa [hglobals])
          rw [← Program.take_globals hp, ← h.visible_ready hr] at value
          obtain ⟨T, hT, hty⟩ := Expr.infer_complete _ d.value d.ty value
          refine ⟨T.all ++ types, ?_⟩
          simp [checkAll, checkTop, hT, hty, h.lookup?_next hp, htypes]
      | @define _ name params ret decls body _ function more =>
          have hname : name ≠ "" :=
            hnames (name, ⟨params.map (·.ty), ret⟩) (by
              rw [hp]
              simp [Program.signatures, Stmt.signature?])
          have hone : Program.globals [.define name params ret decls body] = [] := rfl
          rw [hone, List.append_nil] at hglobals
          obtain ⟨types, htypes⟩ := ih hp' (by rwa [hglobals]) (by rwa [hglobals])
          rw [← h.visible_eq] at function
          obtain ⟨ts, hts⟩ := checkFunction_complete hname function
          exact ⟨ts ++ types, by simp [checkAll, checkTop, hts, htypes]⟩
      | stmt head more =>
          have hnone : s.global? = none := by cases head <;> rfl
          have hone : Program.globals [s] = [] := by simp [Program.globals, hnone]
          rw [hone, List.append_nil] at hglobals
          obtain ⟨types, htypes⟩ := ih hp' (by rwa [hglobals]) (by rwa [hglobals])
          rw [← h.visible_eq] at head
          obtain ⟨a, ha, -⟩ := Stmt.check_complete env none (fun _ => rfl) s head
          have htop : checkTop env ready s = .ok (ready, a.types) := by
            cases head <;> simp [checkTop, ha]
          exact ⟨a.types ++ types, by simp [checkAll, htop, htypes]⟩

end Items

/-! ## Programs -/

/-- **Soundness**: an accepted program leaves its declarations in the scope, is
well typed, and the recorded types are those of its expressions. -/
theorem Program.check_sound {p : Program} (hnames : ∀ f ∈ p.signatures, f.1 ≠ "")
    {types : List Ty} (hc : p.check.types = .ok types) :
    Declared p p.check.env ∧ p.WellTyped ∧ Forall₂ Occurrence.HasType p.occurrences types := by
  unfold Program.check at hc ⊢
  split at hc
  · cases hc
  · next env hd =>
      obtain ⟨⟨hnodup, -, hint⟩, hdeclared⟩ := declareAll_sound Declared.empty hd
      rw [List.nil_append] at hdeclared
      obtain ⟨hitems, htypes⟩ :=
        checkAll_sound hdeclared hnames (List.nil_append p).symm SlotSet.hasBelow_empty hc
      exact ⟨hdeclared, ⟨hnodup, hint, hitems⟩, htypes⟩

/-- **Completeness**: a well typed program is accepted. -/
theorem Program.check_complete {p : Program} (hnames : ∀ f ∈ p.signatures, f.1 ≠ "")
    (hp : p.WellTyped) : ∃ types, p.check.types = .ok types := by
  have hdeclarable : Program.Declarable [] p :=
    ⟨hp.distinct, fun _ _ => List.not_mem_nil, hp.notIntrinsic⟩
  obtain ⟨env, hd⟩ := declareAll_complete Declared.empty hdeclarable
  have hdeclared := (declareAll_sound Declared.empty hd).2
  rw [List.nil_append] at hdeclared
  obtain ⟨types, htypes⟩ :=
    checkAll_complete hdeclared hnames (List.nil_append p).symm SlotSet.hasBelow_empty hp.items
  exact ⟨types, by simp only [Program.check, hd, htypes]⟩

/-- **The checker decides the type system**: it accepts a program just when the
program is well typed, and then what it records, expression by expression as
they are written, is the one type that the expression has where it stands.
Function names are not empty: a scope with an empty name is the top level. -/
theorem Program.check_decides (p : Program) (hnames : ∀ f ∈ p.signatures, f.1 ≠ "") :
    ((∃ types, p.check.types = .ok types) ↔ p.WellTyped) ∧
      ∀ types, p.check.types = .ok types →
        Forall₂ (fun o t => ∀ t', Occurrence.HasType o t' ↔ t' = t) p.occurrences types := by
  refine ⟨⟨?_, check_complete hnames⟩, ?_⟩
  · rintro ⟨types, hc⟩
    exact (check_sound hnames hc).2.1
  · intro types hc
    refine List.Forall₂.imp ?_ (check_sound hnames hc).2.2
    intro o t ht t'
    constructor
    · intro ht'
      exact Expr.HasType.unique ht' ht
    · rintro rfl
      exact ht

/-- A program with a function that uses a global declared after it. -/
def scaleProgram : Program :=
  [.define "scale" [⟨"x", .int⟩] .int []
      [.ret (.binary .times (.ident "x") (.ident "factor"))],
    .decl ⟨"factor", .int, .num 3⟩,
    .expr (.call "scale" [.num 14])]

theorem scaleProgram_wellTyped : scaleProgram.WellTyped where
  distinct := by decide
  notIntrinsic := by decide
  items := by
    refine .define ⟨by decide, .nil, .cons (.ret (.arith rfl (.ident rfl) (.ident rfl)) rfl) .nil,
      fun _ => ⟨_, rfl⟩⟩ ?_
    refine .decl (.num (by decide) (by decide)) ?_
    have hscale : scaleProgram.visible.funcs "scale" = some ⟨[.int], .int⟩ := rfl
    exact .stmt (.expr (.call hscale (.cons (.num (by decide) (by decide)) .nil))) .nil

theorem scaleProgram_accepted :
    (∀ f ∈ scaleProgram.signatures, f.1 ≠ "") ∧ ∃ types, scaleProgram.check.types = .ok types :=
  ⟨by decide, (Program.check_decides scaleProgram (by decide)).1.mpr scaleProgram_wellTyped⟩

end Taglet
