import Taglet.Proofs.CheckedProgram

/-!
# Taglet.Proofs.TopLevelNames

What checking a program leaves in the environment, whether or not the program
is accepted.

A top-level statement clashes if it defines a function with the name of an
intrinsic procedure, or declares a name that was declared before
(`Stmt.Clashes`).  Names are declared up to the first statement that clashes,
and the program is then rejected for it; without such a statement all names
are declared (`Program.check_leaves`).  Either way the environment holds the
globals and signatures of the statements that were declared and nothing else
(`Program.LeftIn`), since the scopes that are opened afterwards, one for each
function, share the globals and signatures and change neither (`Env.Opens`).
-/

namespace Taglet

/-! ## Statements that clash -/

/-- A function has the name of an intrinsic procedure, or the name is one that
earlier statements declare. -/
def Stmt.Clashes (earlier : Program) (s : Stmt) : Prop :=
  (∃ f sig, s.signature? = some (f, sig) ∧ isIntrinsic f = true) ∨
    ∃ x, s.topName? = some x ∧ x ∈ earlier.topNames

theorem Stmt.clashes_iff {earlier : Program} {s : Stmt} :
    s.Clashes earlier ↔ ¬ s.Declarable earlier := by
  constructor
  · rintro (⟨f, sig, hf, hint⟩ | ⟨x, hx, hmem⟩) hdeclarable
    · have hnot := hdeclarable.notIntrinsic f sig hf
      rw [hint] at hnot
      cases hnot
    · exact hdeclarable.fresh x hx hmem
  · intro hnot
    by_contra hclash
    rw [Stmt.Clashes, not_or] at hclash
    obtain ⟨hint, hname⟩ := hclash
    have hfresh : ∀ x, s.topName? = some x → x ∉ earlier.topNames :=
      fun x hx hmem => hname ⟨x, hx, hmem⟩
    have hplain : ∀ f sig, s.signature? = some (f, sig) → isIntrinsic f = false := by
      intro f sig hf
      rw [Bool.eq_false_iff]
      exact fun h => hint ⟨f, sig, hf, h⟩
    exact hnot ⟨hfresh, hplain⟩

namespace Program

/-- Some statement clashes with those before it. -/
def Clashes (p : Program) : Prop :=
  ∃ before s after, p = before ++ s :: after ∧ s.Clashes before

/-- Statements can be declared one after the other if each of them can be
declared after those before it. -/
theorem declarable_iff {done p : Program} :
    Declarable done p ↔
      ∀ before s after, p = before ++ s :: after → s.Declarable (done ++ before) := by
  induction p generalizing done with
  | nil =>
      have hnil : Declarable done [] := ⟨List.nodup_nil, by simp [topNames], by simp [signatures]⟩
      refine ⟨fun _ before s after hp => ?_, fun _ => hnil⟩
      exact absurd hp (by simp)
  | cons head rest ih =>
      rw [declarable_cons, ih]
      constructor
      · rintro ⟨hhead, hrest⟩ before s after hp
        cases before with
        | nil =>
            obtain ⟨rfl, -⟩ := List.cons.inj hp
            rwa [List.append_nil]
        | cons first before =>
            obtain ⟨rfl, htail⟩ := List.cons.inj hp
            have hs := hrest before s after htail
            rwa [List.append_assoc, List.singleton_append] at hs
      · intro hall
        have hhead := hall [] head rest rfl
        rw [List.append_nil] at hhead
        refine ⟨hhead, fun before s after hp => ?_⟩
        have hs := hall (head :: before) s after (by rw [hp, List.cons_append])
        rwa [List.append_assoc, List.singleton_append]

theorem clashes_iff {p : Program} : p.Clashes ↔ ¬ Declarable [] p := by
  rw [declarable_iff, Clashes]
  push Not
  simp only [List.nil_append, Stmt.clashes_iff]

end Program

/-! ## Declaring up to the first clash -/

/-- An error is reported as a duplicate declaration. -/
def CheckError.IsDuplicate (e : CheckError) : Prop :=
  ∃ v, e = .violation v ∧ v.report.kind = .duplicateDeclaration

/-- **Step lemma**: a statement that cannot be declared is a duplicate, and
leaves the scope as it is. -/
theorem declareTop_fails {done : Program} {env : Env} {s : Stmt} (h : Declared done env)
    (hs : ¬ s.Declarable done) : ∃ e, declareTop env s = (env, .error e) ∧ e.IsDuplicate := by
  have htaken : ∀ x, x ∈ done.topNames → env.isBoundHere x = true := fun x => (h.bound x).mpr
  rcases Stmt.clashes_iff.mpr hs with ⟨f, sig, hf, hint⟩ | ⟨x, hx, hmem⟩
  · cases s with
    | define name params ret decls body =>
        simp only [Stmt.signature?, Option.some.injEq, Prod.mk.injEq] at hf
        rw [← hf.1] at hint
        refine ⟨.violation (.redefinesIntrinsic name), ?_, _, rfl, rfl⟩
        rw [declareTop, if_pos hint]
        rfl
    | _ => cases hf
  · have hbound := htaken x hmem
    cases s with
    | define name params ret decls body =>
        obtain rfl := Option.some.inj hx
        have hreserve : env.reserve name = .error (.duplicate name) := by
          rw [Env.reserve, if_pos hbound]
        rw [declareTop, hreserve]
        by_cases hint : isIntrinsic name = true
        · rw [if_pos hint]
          exact ⟨.violation (.redefinesIntrinsic name), rfl, _, rfl, rfl⟩
        · rw [if_neg hint]
          exact ⟨.violation (.duplicate name), rfl, _, rfl, rfl⟩
    | decl d =>
        obtain rfl := Option.some.inj hx
        have hdeclare : env.declareGlobal d.name d.ty = .error (.duplicate d.name) := by
          simp [Env.declareGlobal, Env.newGlobal, h.topLevel.isTop, hbound]
        rw [declareTop, hdeclare]
        exact ⟨.violation (.duplicate d.name), rfl, _, rfl, rfl⟩
    | _ => cases hx

/-- **Run lemma**: declaring stops at the first statement that cannot be
declared, with what stands before it. -/
theorem declareAll_stops {done : Program} {env : Env} {p : Program} (h : Declared done env)
    (hp : ¬ Program.Declarable done p) :
    ∃ before s after env' e, p = before ++ s :: after ∧ Program.Declarable done before ∧
      ¬ s.Declarable (done ++ before) ∧ declareAll env p = (env', .error e) ∧ e.IsDuplicate ∧
      Declared (done ++ before) env' := by
  induction p generalizing done env with
  | nil => exact absurd (Program.declarable_iff.mpr (by simp)) hp
  | cons s rest ih =>
      by_cases hs : s.Declarable done
      · obtain ⟨env₁, hstep⟩ := declareTop_complete h hs
        have hdone := (declareTop_sound h hstep).2
        have hrest : ¬ Program.Declarable (done ++ [s]) rest :=
          fun hrest => hp ((Program.declarable_cons done s rest).mpr ⟨hs, hrest⟩)
        obtain ⟨before, t, after, env', e, rfl, hbefore, ht, hrun, he, hleft⟩ := ih hdone hrest
        rw [List.append_assoc, List.singleton_append] at ht hleft
        refine ⟨s :: before, t, after, env', e, rfl, ?_, ht, ?_, he, hleft⟩
        · exact (Program.declarable_cons done s before).mpr ⟨hs, hbefore⟩
        · rw [declareAll, hstep]
          exact hrun
      · obtain ⟨e, hfail, he⟩ := declareTop_fails h hs
        have hnone : Program.Declarable done [] := Program.declarable_iff.mpr (by simp)
        refine ⟨[], s, rest, env, e, rfl, hnone, ?_, ?_, he, ?_⟩
        · rwa [List.append_nil]
        · rw [declareAll, hfail]
        · rwa [List.append_nil]

/-! ## What is left -/

/-- The globals and signatures of statements, and nothing else, are in an
environment at the top level. -/
structure Program.LeftIn (done : Program) (env : Env) : Prop where
  isTop : env.isTop = true
  /-- The globals in order, from slot 0, with the types they were declared
  with. -/
  globals : env.globals.bindings.toList =
    done.globals.mapIdx fun i g => ⟨g.1, g.2, .global, i⟩
  slots : env.slots = done.globals.length
  signatures : ∀ f, env.signature? f = done.signatures.lookup f
  /-- Nothing but the globals is found, and each by its name. -/
  lookup : ∀ x b, env.lookup? x = some b ↔ b ∈ env.globals.bindings ∧ b.name = x
  /-- The names that are taken are those of the statements. -/
  bound : ∀ x, env.isBoundHere x = true ↔ x ∈ done.topNames

theorem Declared.leftIn {done : Program} {env : Env} (h : Declared done env) :
    done.LeftIn env where
  isTop := h.topLevel.isTop
  globals := by
    refine List.ext_getElem? fun i => ?_
    have hname : (env.globals.bindings.toList[i]?).map (fun b => (b.name, b.ty)) =
        done.globals[i]? := by
      rw [← h.globals, List.getElem?_map]
    rw [List.getElem?_mapIdx, ← hname, Array.getElem?_toList]
    cases hb : env.globals.bindings[i]? with
    | none => rfl
    | some b =>
        obtain ⟨hstorage, hslot⟩ := h.topLevel.stored hb
        rw [Option.map_some, Option.map_some, ← hstorage, ← hslot]
  slots := h.slots
  signatures := h.signatures
  lookup x b := by
    rw [h.topLevel.seen, and_comm]
    refine and_congr_left fun _ => ?_
    rw [Array.mem_iff_getElem?]
    constructor
    · exact fun hb => ⟨b.slot, hb⟩
    · rintro ⟨i, hb⟩
      rwa [(h.topLevel.stored hb).2]
  bound := h.bound

/-! ## Scopes of functions -/

/-- Checking a top-level statement opens a scope: that of a function, with some
of its parameters, or with all of them and some of its leading declarations. -/
inductive Env.Opens (env : Env) : Stmt → Env → Prop
  | params {name : String} {params : List Param} {ret : Ty} {decls : List Decl}
      {body : List Stmt} {scope : Env} (k : Nat)
      (bound : bindParams (params.take k) (env.nest name) = .ok scope) :
      Opens env (.define name params ret decls body) scope
  | decls {name : String} {params : List Param} {ret : Ty} {decls : List Decl}
      {body : List Stmt} {scope scope' : Env} {types : List Ty} (k : Nat)
      (bound : bindParams params (env.nest name) = .ok scope)
      (declared : checkDecls (decls.take k) scope = .ok (scope', types)) :
      Opens env (.define name params ret decls body) scope'

theorem globals_of_bindParams {params : List Param} {env scope : Env}
    (h : bindParams params env = .ok scope) : scope.globals = env.globals := by
  induction params generalizing env with
  | nil =>
      obtain rfl := Except.ok.inj h
      rfl
  | cons p params ih =>
      simp only [bindParams, bind_eq_ok_iff, ofScope_eq_ok_iff, Prod.exists,
        Env.declareLocal_eq_ok_iff] at h
      obtain ⟨_, _, ⟨-, -, rfl, -⟩, hrest⟩ := h
      have hglobals : scope.globals = (env.withLocal p.name p.ty).globals := ih hrest
      exact hglobals

theorem globals_of_checkDecls {decls : List Decl} {env scope : Env} {types : List Ty}
    (h : checkDecls decls env = .ok (scope, types)) : scope.globals = env.globals := by
  induction decls generalizing env types with
  | nil =>
      simp only [checkDecls, Except.ok.injEq, Prod.mk.injEq] at h
      rw [h.1]
  | cons d decls ih =>
      simp only [checkDecls] at h
      split at h
      · exact absurd h (by simp)
      · simp only [bind_eq_ok_iff, ofScope_eq_ok_iff, Prod.exists, Env.declareLocal_eq_ok_iff,
          pure_eq_ok_iff, Prod.mk.injEq] at h
        obtain ⟨_, _, _, _, _, _, ⟨-, -, rfl, -⟩, scope, _, hrest, rfl, -⟩ := h
        have hglobals : scope.globals = (env.withLocal d.name d.ty).globals := ih hrest
        exact hglobals

/-- The scopes of functions share what the top level has. -/
theorem Env.Opens.globals_eq {env scope : Env} {s : Stmt} (h : env.Opens s scope) :
    scope.globals = env.globals := by
  cases h with
  | params k bound =>
      rw [globals_of_bindParams bound]
      rfl
  | decls k bound declared =>
      rw [globals_of_checkDecls declared, globals_of_bindParams bound]
      rfl

/-! ## Programs -/

theorem Program.env_check (p : Program) : p.check.env = (declareAll .empty p).1 := by
  rw [check]
  split
  · next h => rw [h]
  · next h => rw [h]

/-- **What checking leaves**: if a statement clashes with those before it, the
program is rejected for a duplicate, whatever else is wrong with it, and the
environment holds what stands before the first such statement; if none does,
it holds what the whole program declares, whether or not the program is
accepted.  No scope of a function adds to it. -/
theorem Program.check_leaves (p : Program) :
    (p.Clashes → ∃ before s after, p = before ++ s :: after ∧ s.Clashes before ∧
      ¬ Clashes before ∧ (∃ e, p.check.types = .error e ∧ e.IsDuplicate) ∧
      LeftIn before p.check.env) ∧
    (¬ p.Clashes → LeftIn p p.check.env) ∧
    ∀ s ∈ p, ∀ scope, p.check.env.Opens s scope → scope.globals = p.check.env.globals := by
  refine ⟨fun hclash => ?_, fun hnone => ?_, fun _ _ _ hopens => hopens.globals_eq⟩
  · obtain ⟨before, s, after, env, e, hp, hbefore, hs, hrun, he, hleft⟩ :=
      declareAll_stops Declared.empty (clashes_iff.mp hclash)
    rw [List.nil_append] at hs hleft
    have hcheck : p.check = ⟨env, .error e⟩ := by rw [check, hrun]
    refine ⟨before, s, after, hp, Stmt.clashes_iff.mpr hs, ?_, ⟨e, ?_, he⟩, ?_⟩
    · exact fun h => clashes_iff.mp h hbefore
    · rw [hcheck]
    · rw [hcheck]
      exact hleft.leftIn
  · have hdeclarable : Declarable [] p := not_not.mp (fun h => hnone (clashes_iff.mpr h))
    obtain ⟨env, hrun⟩ := declareAll_complete Declared.empty hdeclarable
    have hdeclared : Declared p env := (declareAll_sound Declared.empty hrun).2
    rw [env_check, hrun]
    exact hdeclared.leftIn

/-- A program that uses a name that is not bound, then defines a function with
the name of an intrinsic procedure, and then declares a name again. -/
def clashingProgram : Program :=
  [.decl ⟨"n", .int, .num 1⟩, .expr (.ident "missing"),
    .define "max" [⟨"n", .int⟩] .none [] [], .decl ⟨"n", .bool, .bool true⟩]

theorem clashingProgram_leaves :
    (clashingProgram.Clashes ∧ ∃ before s after, clashingProgram = before ++ s :: after ∧
      s.Clashes before ∧ ¬ Program.Clashes before ∧
      (∃ e, clashingProgram.check.types = .error e ∧ e.IsDuplicate) ∧
      Program.LeftIn before clashingProgram.check.env) ∧
    ¬ scaleProgram.Clashes ∧ scaleProgram.LeftIn scaleProgram.check.env := by
  have hclash : clashingProgram.Clashes :=
    ⟨[.decl ⟨"n", .int, .num 1⟩, .expr (.ident "missing")], _, _, rfl,
      .inl ⟨"max", _, rfl, by decide⟩⟩
  have hnone : ¬ scaleProgram.Clashes := by
    rw [Program.clashes_iff, not_not]
    exact ⟨by decide, by decide, by decide⟩
  exact ⟨⟨hclash, (Program.check_leaves clashingProgram).1 hclash⟩, hnone,
    (Program.check_leaves scaleProgram).2.1 hnone⟩

end Taglet
