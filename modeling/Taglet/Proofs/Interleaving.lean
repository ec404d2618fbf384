import Taglet.Proofs.ResolvedText

/-!
# Taglet.Proofs.Interleaving

The order of top-level statements matters only within each kind.

A program declares globals, defines functions and acts.  Programs with the same
declarations, the same definitions and the same actions, each in the same
order, have the same text or have none, however the three are interleaved; only
whether the last statement gives a result has to agree.

Declaring gives both programs the same names (`Declared.seesAs`), and a
statement resolves alike in scopes that see the same names.  Resolving the
whole program is resolving its statements of each kind (`Resolves.ofKind`,
`Resolves.join`), since only declarations change what is ready, and they come
in the same order.
-/

namespace Taglet

open Wat

/-! ## Kinds of statements -/

/-- What a top-level statement is there for. -/
inductive StmtKind where
  | declaration
  | definition
  | action
deriving DecidableEq, Repr

/-- The kind of a top-level statement. -/
def Stmt.kind : Stmt → StmtKind
  | .decl _ => .declaration
  | .define _ _ _ _ _ => .definition
  | _ => .action

/-- The statements of one kind, in order. -/
def Program.ofKind (k : StmtKind) (p : Program) : Program :=
  p.filter fun s => s.kind = k

theorem Program.ofKind_cons_of_eq {k : StmtKind} {s : Stmt} (h : s.kind = k) (rest : Program) :
    Program.ofKind k (s :: rest) = s :: rest.ofKind k :=
  List.filter_cons_of_pos (decide_eq_true h)

theorem Program.ofKind_cons_of_ne {k : StmtKind} {s : Stmt} (h : s.kind ≠ k) (rest : Program) :
    Program.ofKind k (s :: rest) = rest.ofKind k :=
  List.filter_cons_of_neg (by simpa using h)

/-- The kind of a resolved top-level statement. -/
def ResolvedItem.kind : ResolvedItem → StmtKind
  | .decl _ _ => .declaration
  | .define _ _ _ _ _ => .definition
  | .action _ => .action

/-- The resolved statements of one kind, in order. -/
def ResolvedItem.ofKind (k : StmtKind) (items : List ResolvedItem) : List ResolvedItem :=
  items.filter fun item => item.kind = k

/-! ## Scopes that see the same names -/

/-- Two scopes see the same names. -/
structure Env.SeesAs (e e' : Env) : Prop where
  isTop : e.isTop = e'.isTop
  lookup? : ∀ x, e.lookup? x = e'.lookup? x
  signature? : ∀ f, e.signature? f = e'.signature? f

/-- Two scopes see the same names and bind the same ones. -/
structure Env.Alike (e e' : Env) : Prop extends e.SeesAs e' where
  isBoundHere : ∀ x, e.isBoundHere x = e'.isBoundHere x
  locals : e.scope.locals = e'.scope.locals

namespace Env

/-- Functions of scopes that see the same names start alike. -/
theorem SeesAs.nest {e e' : Env} (h : e.SeesAs e') (func : String) :
    (e.nest func).Alike (e'.nest func) where
  isTop := rfl
  lookup? := h.lookup?
  signature? := h.signature?
  isBoundHere x := by simp
  locals := rfl

/-- Declaring a local keeps scopes alike. -/
theorem Alike.declareLocal {e e' next : Env} (h : e.Alike e') {name : String} {ty : Ty}
    {b : Binding} (hd : e.declareLocal name ty = .ok (next, b)) :
    ∃ next', e'.declareLocal name ty = .ok (next', b) ∧ next.Alike next' := by
  rw [declareLocal_eq_ok_iff] at hd
  obtain ⟨htop, hnew, rfl, rfl⟩ := hd
  refine ⟨e'.withLocal name ty, ?_, ?_⟩
  · rw [declareLocal_eq_ok_iff, ← h.isTop, ← h.isBoundHere, ← h.locals]
    exact ⟨htop, hnew, rfl, rfl⟩
  · exact
      { isTop := h.isTop
        lookup? := fun x => by simp [h.lookup?, h.locals]
        signature? := h.signature?
        isBoundHere := fun x => by simp [h.isBoundHere]
        locals := congrArg (· + 1) h.locals }

end Env

/-! ## Resolving in scopes that see the same names -/

section
variable {env env' : Env}

mutual

/-- An expression resolves by what its scope sees. -/
theorem Expr.resolve_congr (h : env.SeesAs env') (ready : Option SlotSet) :
    (e : Expr) → e.resolve ⟨env, ready⟩ = e.resolve ⟨env', ready⟩
  | .missing | .none | .bool _ | .num _ => rfl
  | .ident name => by
      simp only [Expr.resolve, h.lookup? name]
      rfl
  | .unary op arg => by simp only [Expr.resolve, arg.resolve_congr h ready]
  | .binary op left right => by
      simp only [Expr.resolve, left.resolve_congr h ready, right.resolve_congr h ready]
  | .intrinsic1 name arg => by simp only [Expr.resolve, arg.resolve_congr h ready]
  | .intrinsic2 name left right => by
      simp only [Expr.resolve, left.resolve_congr h ready, right.resolve_congr h ready]
  | .call name args => by
      simp only [Expr.resolve, h.signature? name, fun i ps => resolveArgs_congr h ready name i ps args]

/-- Arguments resolve by what their scope sees. -/
theorem resolveArgs_congr (h : env.SeesAs env') (ready : Option SlotSet) (callee : String) :
    (i : Nat) → (params : List Ty) → (args : List Expr) →
    resolveArgs ⟨env, ready⟩ callee i params args = resolveArgs ⟨env', ready⟩ callee i params args
  | i, ty :: params, arg :: args => by
      simp only [resolveArgs, arg.resolve_congr h ready,
        resolveArgs_congr h ready callee (i + 1) params args]
  | _, [], _ => by simp only [resolveArgs]
  | _, _ :: _, [] => by simp only [resolveArgs]

end

mutual

/-- A statement resolves by what its scope sees. -/
theorem Stmt.resolve_congr (h : env.SeesAs env') :
    (s : Stmt) → s.resolve env = s.resolve env'
  | .missing | .pass | .decl _ | .define _ _ _ _ _ => rfl
  | .expr value => by simp only [Stmt.resolve, Expr.resolve_congr h]
  | .ret value => by simp only [Stmt.resolve, Expr.resolve_congr h, h.isTop]
  | .assign name value => by simp only [Stmt.resolve, Expr.resolve_congr h, h.lookup? name]
  | .branch cond thn els => by
      simp only [Stmt.resolve, resolveCond, Expr.resolve_congr h,
        resolveBlock_congr h none thn, resolveBlock_congr h none els]
  | .loop cond body => by
      simp only [Stmt.resolve, resolveCond, Expr.resolve_congr h, resolveBlock_congr h none body]

/-- Statements resolve by what their scope sees. -/
theorem resolveBlock_congr (h : env.SeesAs env') :
    (returns : Option Ty) → (block : List Stmt) →
    resolveBlock env returns block = resolveBlock env' returns block
  | _, [] => rfl
  | _, s :: rest => by
      simp only [resolveBlock, s.resolve_congr h, fun r => resolveBlock_congr h r rest]

end

/-- Binding parameters keeps scopes alike. -/
theorem Env.Alike.bindParams {params : List Param} {env env' scope : Env} (h : env.Alike env')
    (hb : bindParams params env = .ok scope) :
    ∃ scope', Taglet.bindParams params env' = .ok scope' ∧ scope.Alike scope' := by
  induction params generalizing env env' with
  | nil =>
      obtain rfl := Except.ok.inj hb
      exact ⟨env', rfl, h⟩
  | cons p params ih =>
      simp only [Taglet.bindParams, bind_eq_ok_iff, ofScope_eq_ok_iff] at hb ⊢
      obtain ⟨⟨next, b⟩, hnext, hrest⟩ := hb
      obtain ⟨next', hnext', halike⟩ := h.declareLocal hnext
      obtain ⟨scope', hrest', hscope⟩ := ih halike hrest
      exact ⟨scope', ⟨(next', b), hnext', hrest'⟩, hscope⟩

/-- Leading declarations resolve alike and keep scopes alike. -/
theorem Env.Alike.resolveDecls {decls : List Decl} {env env' scope : Env} (h : env.Alike env')
    {types : List Ty} {rs : List ResolvedDecl}
    (hr : resolveDecls decls env = .ok (scope, types, rs)) :
    ∃ scope', Taglet.resolveDecls decls env' = .ok (scope', types, rs) ∧ scope.Alike scope' := by
  induction decls generalizing env env' types rs with
  | nil =>
      simp only [Taglet.resolveDecls, Except.ok.injEq, Prod.mk.injEq] at hr
      obtain ⟨rfl, rfl, rfl⟩ := hr
      exact ⟨env', rfl, h⟩
  | cons d decls ih =>
      simp only [Taglet.resolveDecls, h.isBoundHere, Expr.resolve_congr h.toSeesAs] at hr ⊢
      split at hr
      · exact absurd hr reject_ne_ok
      · next hnew =>
          simp only [bind_eq_ok_iff, pure_eq_ok_iff, ofScope_eq_ok_iff] at hr
          obtain ⟨v, hv, u, hu, ⟨next, b⟩, hnext, ⟨_, _, _⟩, hrest, hr⟩ := hr
          obtain ⟨rfl, rfl, rfl⟩ : _ ∧ _ ∧ _ := by simpa using hr
          obtain ⟨next', hnext', halike⟩ := h.declareLocal hnext
          obtain ⟨scope', hrest', hscope⟩ := ih halike hrest
          refine ⟨scope', ?_, hscope⟩
          simp [hnew, hv, hu, hnext', hrest']

/-- A function resolves by what the scope around it sees. -/
theorem resolveFunction_of_seesAs (h : env.SeesAs env') {name : String} {params : List Param}
    {ret : Ty} {decls : List Decl} {body : List Stmt}
    {r : List Ty × List ResolvedDecl × List ResolvedStmt}
    (hr : resolveFunction env name params ret decls body = .ok r) :
    resolveFunction env' name params ret decls body = .ok r := by
  simp only [resolveFunction, bind_eq_ok_iff] at hr ⊢
  obtain ⟨inner, hparams, ⟨scope, types, ds⟩, hdecls, b, hbody, hr⟩ := hr
  obtain ⟨inner', hparams', hinner⟩ := (h.nest name).bindParams hparams
  obtain ⟨scope', hdecls', hscope⟩ := hinner.resolveDecls hdecls
  rw [resolveBlock_congr hscope.toSeesAs] at hbody
  exact ⟨inner', hparams', (scope', types, ds), hdecls', b, hbody, hr⟩

/-- A top-level statement resolves by what its scope sees. -/
theorem resolveTop_of_seesAs (h : env.SeesAs env') {ready : SlotSet} {s : Stmt}
    {r : SlotSet × List Ty × ResolvedItem} (hr : resolveTop env ready s = .ok r) :
    resolveTop env' ready s = .ok r := by
  cases s with
  | decl d => simpa only [resolveTop, Expr.resolve_congr h, h.lookup?] using hr
  | define name params ret decls body =>
      simp only [resolveTop, bind_eq_ok_iff] at hr ⊢
      obtain ⟨f, hf, hr⟩ := hr
      exact ⟨f, resolveFunction_of_seesAs h hf, hr⟩
  | _ => simpa only [resolveTop, Stmt.resolve_congr h] using hr

end

/-! ## What programs with the same statements of each kind declare -/

/-- Two programs have the same statements of each kind, in the same order. -/
def Program.SameKinds (p q : Program) : Prop :=
  ∀ k, p.ofKind k = q.ofKind k

namespace Program

/-- The globals of a program are those of its declarations. -/
theorem globals_ofKind (p : Program) : (p.ofKind .declaration).globals = p.globals := by
  induction p with
  | nil => rfl
  | cons s rest ih =>
      cases s with
      | decl d => exact congrArg ((d.name, d.ty) :: ·) ih
      | _ => exact ih

/-- The signatures of a program are those of its definitions. -/
theorem signatures_ofKind (p : Program) : (p.ofKind .definition).signatures = p.signatures := by
  induction p with
  | nil => rfl
  | cons s rest ih =>
      cases s with
      | define name params ret decls body =>
          exact congrArg ((name, ⟨params.map (·.ty), ret⟩) :: ·) ih
      | _ => exact ih

/-- The top-level names are those of the globals and of the functions. -/
theorem topNames_perm (p : Program) :
    p.topNames.Perm (p.globals.map Prod.fst ++ p.signatures.map Prod.fst) := by
  induction p with
  | nil => exact .refl _
  | cons s rest ih =>
      cases s with
      | decl d => exact ih.cons d.name
      | define name params ret decls body => exact (ih.cons name).trans List.perm_middle.symm
      | _ => exact ih

namespace SameKinds

variable {p q : Program}

theorem symm (h : SameKinds p q) : SameKinds q p :=
  fun k => (h k).symm

theorem globals (h : SameKinds p q) : p.globals = q.globals := by
  rw [← globals_ofKind p, ← globals_ofKind q, h]

theorem signatures (h : SameKinds p q) : p.signatures = q.signatures := by
  rw [← signatures_ofKind p, ← signatures_ofKind q, h]

theorem topNames (h : SameKinds p q) : p.topNames.Perm q.topNames := by
  refine p.topNames_perm.trans ?_
  rw [h.globals, h.signatures]
  exact q.topNames_perm.symm

/-- What can be declared in one order can be declared in the other. -/
theorem declarable (h : SameKinds p q) (hp : Declarable [] p) : Declarable [] q := by
  obtain ⟨hnodup, -, hint⟩ := hp
  refine ⟨h.topNames.nodup_iff.mp hnodup, by simp [Program.topNames], ?_⟩
  rwa [← h.signatures]

end SameKinds

end Program

/-- A name has the binding that its place among the globals gives it. -/
theorem Declared.lookup?_eq_some_iff {p : Program} {env : Env} (h : Declared p env) {x : String}
    {b : Binding} :
    env.lookup? x = some b ↔ b.name = x ∧ b.storage = .global ∧ p.globals[b.slot]? = some (x, b.ty) := by
  constructor
  · intro hb
    have hslot := h.getElem?_of_lookup? hb
    have hb' := h.lookup?_of_getElem? hslot
    rw [hb, Option.some.injEq] at hb'
    rw [hb']
    exact ⟨rfl, rfl, hslot⟩
  · rintro ⟨rfl, hglobal, hslot⟩
    rw [h.lookup?_of_getElem? hslot, ← hglobal]

/-- Programs with the same statements of each kind leave scopes that see the
same names. -/
theorem Declared.seesAs {p q : Program} {env env' : Env} (hk : p.SameKinds q) (hp : Declared p env)
    (hq : Declared q env') : env.SeesAs env' where
  isTop := by rw [hp.topLevel.isTop, hq.topLevel.isTop]
  lookup? x := by
    refine Option.ext fun b => ?_
    rw [hp.lookup?_eq_some_iff, hq.lookup?_eq_some_iff, hk.globals]
  signature? f := by rw [hp.signatures, hq.signatures, hk.signatures]

/-! ## Resolving one kind at a time -/

/-- Top-level statements resolve when the slots `ready` are initialized. -/
def Resolves (env : Env) (ready : SlotSet) (p : Program) (items : List ResolvedItem) : Prop :=
  ∃ types, resolveAll env ready p = .ok (types, items)

section
variable {env : Env}

theorem resolves_nil (ready : SlotSet) : Resolves env ready [] [] :=
  ⟨[], rfl⟩

theorem resolves_cons {ready : SlotSet} {s : Stmt} {rest : Program} {all : List ResolvedItem} :
    Resolves env ready (s :: rest) all ↔
      ∃ after types item items, resolveTop env ready s = .ok (after, types, item) ∧
        Resolves env after rest items ∧ all = item :: items := by
  simp only [Resolves, resolveAll, bind_eq_ok_iff, pure_eq_ok_iff, Prod.exists, Prod.mk.injEq]
  constructor
  · rintro ⟨_, after, types, item, hs, more, items, hrest, -, rfl⟩
    exact ⟨after, types, item, items, hs, ⟨more, hrest⟩, rfl⟩
  · rintro ⟨after, types, item, items, hs, ⟨more, hrest⟩, rfl⟩
    exact ⟨_, after, types, item, hs, more, items, hrest, rfl, rfl⟩

theorem Resolves.unique {ready : SlotSet} {p : Program} {items items' : List ResolvedItem}
    (h : Resolves env ready p items) (h' : Resolves env ready p items') : items = items' := by
  obtain ⟨types, h⟩ := h
  obtain ⟨types', h'⟩ := h'
  rw [h] at h'
  exact (Prod.mk.inj (Except.ok.inj h')).2

/-- Statements resolve by what their scope sees. -/
theorem Resolves.of_seesAs {env' : Env} (h : env.SeesAs env') {p : Program} {ready : SlotSet}
    {items : List ResolvedItem} (hp : Resolves env ready p items) : Resolves env' ready p items := by
  induction p generalizing ready items with
  | nil => exact hp
  | cons s rest ih =>
      rw [resolves_cons] at hp ⊢
      obtain ⟨after, types, item, items, hs, hrest, rfl⟩ := hp
      exact ⟨after, types, item, items, resolveTop_of_seesAs h hs, ih hrest, rfl⟩

/-- A statement resolves to one of its kind. -/
theorem kind_of_resolveTop {ready after : SlotSet} {s : Stmt} {types : List Ty}
    {item : ResolvedItem} (h : resolveTop env ready s = .ok (after, types, item)) :
    item.kind = s.kind := by
  cases s with
  | decl d =>
      simp only [resolveTop, bind_eq_ok_iff] at h
      obtain ⟨v, -, u, -, h⟩ := h
      split at h <;> simp only [pure_eq_ok_iff, Prod.mk.injEq] at h <;> obtain ⟨-, -, rfl⟩ := h <;> rfl
  | define name params ret decls body =>
      simp only [resolveTop, bind_eq_ok_iff, pure_eq_ok_iff, Prod.mk.injEq] at h
      obtain ⟨f, -, -, -, rfl⟩ := h
      rfl
  | _ =>
      simp only [resolveTop, bind_eq_ok_iff, pure_eq_ok_iff, Prod.mk.injEq] at h
      obtain ⟨f, -, -, -, rfl⟩ := h
      rfl

/-- Only declarations ask what is ready, and only they change it. -/
theorem resolveTop_of_ne_declaration {ready after : SlotSet} {s : Stmt} {types : List Ty}
    {item : ResolvedItem} (hs : s.kind ≠ .declaration)
    (h : resolveTop env ready s = .ok (after, types, item)) :
    after = ready ∧ ∀ other, resolveTop env other s = .ok (other, types, item) := by
  cases s with
  | decl d => exact absurd rfl hs
  | define name params ret decls body =>
      simp only [resolveTop, bind_eq_ok_iff, pure_eq_ok_iff, Prod.mk.injEq] at h ⊢
      obtain ⟨f, hf, rfl, rfl, rfl⟩ := h
      exact ⟨rfl, fun other => ⟨f, hf, trivial, rfl, rfl⟩⟩
  | _ =>
      simp only [resolveTop, bind_eq_ok_iff, pure_eq_ok_iff, Prod.mk.injEq] at h ⊢
      obtain ⟨f, hf, rfl, rfl, rfl⟩ := h
      exact ⟨rfl, fun other => ⟨f, hf, trivial, rfl, rfl⟩⟩

/-- Statements of a kind that declares nothing resolve whatever is ready. -/
theorem Resolves.any_ready {k : StmtKind} (hk : k ≠ .declaration) {p : Program} {ready : SlotSet}
    {items : List ResolvedItem} (h : Resolves env ready (p.ofKind k) items) (other : SlotSet) :
    Resolves env other (p.ofKind k) items := by
  induction p generalizing items with
  | nil => exact h
  | cons s rest ih =>
      by_cases hs : s.kind = k
      · rw [Program.ofKind_cons_of_eq hs, resolves_cons] at h ⊢
        obtain ⟨after, types, item, items, htop, hrest, rfl⟩ := h
        obtain ⟨rfl, hother⟩ := resolveTop_of_ne_declaration (hs ▸ hk) htop
        exact ⟨other, types, item, items, hother other, ih hrest, rfl⟩
      · rw [Program.ofKind_cons_of_ne hs] at h ⊢
        exact ih h

/-- What is ready after a statement serves the statements of other kinds as
what was ready before it. -/
theorem Resolves.across {k : StmtKind} {s : Stmt} (hs : s.kind ≠ k) {rest : Program}
    {ready after : SlotSet} {types : List Ty} {item : ResolvedItem}
    (htop : resolveTop env ready s = .ok (after, types, item)) {items : List ResolvedItem} :
    Resolves env ready (rest.ofKind k) items ↔ Resolves env after (rest.ofKind k) items := by
  by_cases hk : k = .declaration
  · obtain ⟨rfl, -⟩ := resolveTop_of_ne_declaration (hk ▸ hs) htop
    rfl
  · exact ⟨fun h => h.any_ready hk after, fun h => h.any_ready hk ready⟩

/-- Statements that resolve do so within each kind. -/
theorem Resolves.ofKind {p : Program} {ready : SlotSet} {items : List ResolvedItem}
    (h : Resolves env ready p items) (k : StmtKind) :
    Resolves env ready (p.ofKind k) (ResolvedItem.ofKind k items) := by
  induction p generalizing ready items with
  | nil =>
      obtain rfl := h.unique (resolves_nil ready)
      exact resolves_nil ready
  | cons s rest ih =>
      rw [resolves_cons] at h
      obtain ⟨after, types, item, items, htop, hrest, rfl⟩ := h
      have hkind := kind_of_resolveTop htop
      by_cases hs : s.kind = k
      · have hitem : ResolvedItem.ofKind k (item :: items) = item :: ResolvedItem.ofKind k items :=
          List.filter_cons_of_pos (by simpa [hkind] using hs)
        rw [Program.ofKind_cons_of_eq hs, hitem, resolves_cons]
        exact ⟨after, types, item, _, htop, ih hrest, rfl⟩
      · have hitem : ResolvedItem.ofKind k (item :: items) = ResolvedItem.ofKind k items :=
          List.filter_cons_of_neg (by simpa [hkind] using hs)
        rw [Program.ofKind_cons_of_ne hs, hitem]
        exact (Resolves.across hs htop).mpr (ih hrest)

/-- Statements whose kinds resolve do so together. -/
theorem Resolves.join {p : Program} {ready : SlotSet}
    (h : ∀ k, ∃ items, Resolves env ready (p.ofKind k) items) :
    ∃ items, Resolves env ready p items := by
  induction p generalizing ready with
  | nil => exact ⟨[], resolves_nil ready⟩
  | cons s rest ih =>
      obtain ⟨own, hown⟩ := h s.kind
      rw [Program.ofKind_cons_of_eq rfl, resolves_cons] at hown
      obtain ⟨after, types, item, items, htop, hsame, -⟩ := hown
      have hrest : ∀ k, ∃ items, Resolves env after (Program.ofKind k rest) items := by
        intro k
        by_cases hs : s.kind = k
        · exact ⟨items, hs ▸ hsame⟩
        · obtain ⟨others, hothers⟩ := h k
          rw [Program.ofKind_cons_of_ne hs] at hothers
          exact ⟨others, (Resolves.across hs htop).mp hothers⟩
      obtain ⟨more, hmore⟩ := ih hrest
      exact ⟨item :: more, resolves_cons.mpr ⟨after, types, item, more, htop, hmore, rfl⟩⟩

end

/-! ## The text of each kind -/

namespace ResolvedItem

theorem functionTexts_ofKind (items : List ResolvedItem) :
    functionTexts (ofKind .definition items) = functionTexts items := by
  induction items with
  | nil => rfl
  | cons item items ih =>
      cases item with
      | define name params ret decls body =>
          exact congrArg (functionText name params decls body ++ ·) ih
      | _ => exact ih

theorem globalTexts_ofKind (items : List ResolvedItem) :
    globalTexts (ofKind .declaration items) = globalTexts items := by
  induction items with
  | nil => rfl
  | cons item items ih =>
      cases item with
      | decl d target =>
          cases target with
          | none => exact ih
          | some b => exact congrArg (line 2 (b.writeText d.name d.value.text) ++ ·) ih
      | _ => exact ih

theorem actionTexts_ofKind (items : List ResolvedItem) :
    actionTexts (ofKind .action items) = actionTexts items := by
  induction items with
  | nil => rfl
  | cons item items ih =>
      cases item with
      | action s => exact congrArg (s.text 2 true ++ ·) ih
      | _ => exact ih

/-- The text of a module takes the statements of each kind together. -/
theorem moduleText_congr {items items' : List ResolvedItem} (pages : Nat)
    (h : ∀ k, ofKind k items = ofKind k items')
    (hresult : Program.endsInExpr (items.map erase) = Program.endsInExpr (items'.map erase)) :
    moduleText pages items = moduleText pages items' := by
  have hfunctions : functionTexts items = functionTexts items' := by
    rw [← functionTexts_ofKind items, ← functionTexts_ofKind items', h]
  have hglobals : globalTexts items = globalTexts items' := by
    rw [← globalTexts_ofKind items, ← globalTexts_ofKind items', h]
  have hactions : actionTexts items = actionTexts items' := by
    rw [← actionTexts_ofKind items, ← actionTexts_ofKind items', h]
  simp only [moduleText, entryText, hfunctions, hglobals, hactions, hresult]

end ResolvedItem

/-! ## Programs -/

/-- A program that resolves can be declared. -/
theorem Program.declarable_of_resolve {p : Program} {r : List Ty × List ResolvedItem}
    (h : p.resolve = .ok r) : Program.Declarable [] p := by
  rcases hall : declareAll .empty p with ⟨env, _ | _⟩
  · simp [Program.resolve, hall] at h
  · exact (declareAll_sound Declared.empty hall).1

/-- The checker leaves the scope of a program's declarations and resolves its
statements there. -/
theorem Program.Declarable.resolve_eq {p : Program} (h : Program.Declarable [] p) :
    Declared p p.check.env ∧ p.resolve = resolveAll p.check.env .empty p := by
  obtain ⟨env, hall⟩ := declareAll_complete Declared.empty h
  have henv : p.check.env = env := by simp [Program.check, hall]
  rw [henv]
  exact ⟨(declareAll_sound Declared.empty hall).2, by simp [Program.resolve, hall]⟩

/-- A program is compiled to the text of any other order of its kinds. -/
theorem Program.SameKinds.compile {p q : Program} (h : p.SameKinds q)
    (hresult : p.endsInExpr = q.endsInExpr) {text : Bytes} (hp : p.compile = .ok text) :
    q.compile = .ok text := by
  obtain ⟨types, items, hr, rfl⟩ := Program.compile_eq_ok_iff.mp hp
  have hpd := Program.declarable_of_resolve hr
  have hqd := h.declarable hpd
  obtain ⟨hdp, hpr⟩ := hpd.resolve_eq
  obtain ⟨hdq, hqr⟩ := hqd.resolve_eq
  have hsees := hdp.seesAs h hdq
  -- each kind of statements resolves for `q` as it does for `p`
  have hitems : Resolves p.check.env .empty p items := ⟨types, hpr ▸ hr⟩
  have hkinds : ∀ k, Resolves q.check.env .empty (q.ofKind k) (ResolvedItem.ofKind k items) := by
    intro k
    rw [← h k]
    exact (hitems.ofKind k).of_seesAs hsees
  obtain ⟨items', hitems'⟩ := Resolves.join fun k => ⟨_, hkinds k⟩
  have hsame : ∀ k, ResolvedItem.ofKind k items = ResolvedItem.ofKind k items' :=
    fun k => (hkinds k).unique (hitems'.ofKind k)
  obtain ⟨types', hr'⟩ := hitems'
  rw [← hqr] at hr'
  refine Program.compile_eq_ok_iff.mpr ⟨types', items', hr', ?_⟩
  have hpages : p.check.env.pages = q.check.env.pages := by
    simp only [Env.pages, hdp.slots, hdq.slots, h.globals]
  rw [hpages]
  apply ResolvedItem.moduleText_congr _ hsame
  rw [(Program.resolve_sound hr).1, (Program.resolve_sound hr').1, hresult]

/-- **Order matters only within each kind.**  Programs with the same
declarations, definitions and actions, each in the same order, that both or
neither end with a result are compiled to the same text or not at all. -/
theorem Program.compile_eq_of_sameKinds {p q : Program} (h : p.SameKinds q)
    (hresult : Emit.hasResult p = Emit.hasResult q) (text : Bytes) :
    p.compile = .ok text ↔ q.compile = .ok text := by
  rw [Emit.hasResult_eq, Emit.hasResult_eq] at hresult
  exact ⟨h.compile hresult, h.symm.compile hresult.symm⟩

/-- The statements of `scaleProgram` with the global declared before the
function that uses it. -/
def declaredFirst : Program :=
  [.decl ⟨"factor", .int, .num 3⟩,
    .define "scale" [⟨"x", .int⟩] .int []
      [.ret (.binary .times (.ident "x") (.ident "factor"))],
    .expr (.call "scale" [.num 14])]

theorem declaredFirst_compiles :
    scaleProgram.SameKinds declaredFirst ∧
      Emit.hasResult scaleProgram = Emit.hasResult declaredFirst ∧
      ∃ text, scaleProgram.compile = .ok text ∧ declaredFirst.compile = .ok text := by
  have hkinds : scaleProgram.SameKinds declaredFirst := by
    intro k
    cases k <;> rfl
  obtain ⟨types, hc⟩ := Program.check_complete (p := scaleProgram) (by decide) scaleProgram_wellTyped
  obtain ⟨items, hr⟩ := Program.resolve_of_check hc
  have hcompile := Program.compile_eq_ok_iff.mpr ⟨types, items, hr, rfl⟩
  exact ⟨hkinds, rfl, _, hcompile, (Program.compile_eq_of_sameKinds hkinds rfl _).mp hcompile⟩

end Taglet
