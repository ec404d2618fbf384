import Taglet.Proofs.Except
import Taglet.Proofs.Scopes
import Taglet.Typing.Check

/-!
# Taglet.Proofs.Declaring

What declaring the top-level names of a program leaves: a top-level scope that
holds the globals of the program in order and the signatures of its functions,
and has bound their names and no others (`Declared`).  It succeeds exactly when
the names are distinct and no function is named after an intrinsic procedure.
-/

namespace Taglet

/-! ## Names of statements -/

namespace Program

@[simp]
theorem topNames_append (p q : Program) :
    topNames (p ++ q) = topNames p ++ topNames q :=
  List.filterMap_append

@[simp]
theorem globals_append (p q : Program) : globals (p ++ q) = globals p ++ globals q :=
  List.filterMap_append

@[simp]
theorem signatures_append (p q : Program) :
    signatures (p ++ q) = signatures p ++ signatures q :=
  List.filterMap_append

/-- The name of a function is one of the top-level names. -/
theorem mem_topNames_of_signature {p : Program} {f : String} {sig : Signature}
    (h : (f, sig) ∈ p.signatures) : f ∈ p.topNames := by
  obtain ⟨s, hs, hsig⟩ := List.mem_filterMap.mp h
  refine List.mem_filterMap.mpr ⟨s, hs, ?_⟩
  cases s <;> simp [Stmt.signature?] at hsig
  simp [Stmt.topName?, hsig]

/-- A name that is not one of the top-level names is not that of a function. -/
theorem lookup_signatures_eq_none {p : Program} {f : String} (h : f ∉ p.topNames) :
    p.signatures.lookup f = none := by
  rw [List.lookup_eq_none_iff]
  rintro ⟨g, sig⟩ hmem
  have hne : f ≠ g := by
    rintro rfl
    exact h (mem_topNames_of_signature hmem)
  simpa using hne

end Program

/-! ## The scope after declaring -/

/-- A scope holds what top-level statements declare. -/
structure Declared (done : Program) (env : Env) : Prop where
  topLevel : env.TopLevel
  globals : env.globals.bindings.toList.map (fun b => (b.name, b.ty)) = done.globals
  signatures : ∀ f, env.signature? f = done.signatures.lookup f
  bound : ∀ x, env.isBoundHere x = true ↔ x ∈ done.topNames

namespace Declared

theorem empty : Declared [] .empty where
  topLevel := Env.topLevel_empty
  globals := rfl
  signatures := by simp [Env.signature?, Env.empty, Program.signatures]
  bound := by simp [Env.isBoundHere, Env.empty, Program.topNames]

/-- A statement that declares nothing leaves everything as it is. -/
theorem skip {done : Program} {env : Env} (h : Declared done env) {s : Stmt}
    (hs : s.topName? = none) : Declared (done ++ [s]) env := by
  have hg : s.global? = none := by cases s <;> simp_all [Stmt.topName?, Stmt.global?]
  have hf : s.signature? = none := by cases s <;> simp_all [Stmt.topName?, Stmt.signature?]
  constructor
  · exact h.topLevel
  · rw [h.globals]
    simp [Program.globals, hg]
  · intro f
    rw [h.signatures]
    simp [Program.signatures, hf]
  · intro x
    rw [h.bound]
    simp [Program.topNames, hs]

/-- Declaring a global. -/
theorem decl {done : Program} {env env' : Env} {d : Decl} {b : Binding} (h : Declared done env)
    (hd : env.declareGlobal d.name d.ty = .ok (env', b)) : Declared (done ++ [.decl d]) env' := by
  have htop := h.topLevel.declareGlobal hd
  obtain ⟨-, -, hb, rfl⟩ := Env.declareGlobal_eq_ok_iff.mp hd
  constructor
  · exact htop
  · rw [Env.bindings_addGlobal, Array.toList_push, List.map_append, h.globals]
    simp [Program.globals, Stmt.global?, hb]
  · intro f
    have hnone : Program.signatures [.decl d] = [] := rfl
    rw [Env.signature?_addGlobal, h.signatures, Program.signatures_append, hnone, List.append_nil]
  · intro x
    have hname : Program.topNames [.decl d] = [d.name] := rfl
    rw [Env.isBoundHere_addGlobal, Bool.or_eq_true, h.bound, Program.topNames_append, hname,
      List.mem_append, List.mem_singleton, hb, beq_iff_eq, or_comm]
    exact or_congr_right eq_comm

/-- Declaring a function: its name is reserved and its signature recorded. -/
theorem define {done : Program} {env reserved env' : Env} {name : String} {params : List Param}
    {ret : Ty} {decls : List Decl} {body : List Stmt} (h : Declared done env)
    (hr : env.reserve name = .ok reserved)
    (hd : reserved.defineFunc name ⟨params.map (·.ty), ret⟩ = .ok env') :
    Declared (done ++ [.define name params ret decls body]) env' := by
  obtain ⟨hnew, hglobals, _, _, hbound⟩ := Env.reserve_spec hr
  obtain ⟨hscope, -, hbindings⟩ := Env.defineFunc_spec hd
  constructor
  · exact h.topLevel.declareFunc hr hd
  · rw [hbindings, hglobals, h.globals]
    simp [Program.globals, Stmt.global?]
  · intro f
    have hsig : Program.signatures [.define name params ret decls body] =
        [(name, ⟨params.map (·.ty), ret⟩)] := rfl
    have hold : reserved.signature? f = env.signature? f := by
      rw [Env.signature?, hglobals, Env.signature?]
    rw [Env.signature?_of_defineFunc hd, hold, h.signatures, Program.signatures_append, hsig,
      List.lookup_append]
    by_cases hf : name = f
    · subst hf
      have hfresh : name ∉ done.topNames := by
        rw [← h.bound, hnew]
        exact Bool.false_ne_true
      rw [if_pos rfl, Program.lookup_signatures_eq_none hfresh, Option.none_or,
        List.lookup_cons_self]
    · have hne : (f == name) = false := by
        rw [beq_eq_false_iff_ne]
        exact fun he => hf he.symm
      rw [if_neg hf, List.lookup_cons, hne, List.lookup_nil, Option.or_none]
  · intro x
    have hname : Program.topNames [.define name params ret decls body] = [name] := rfl
    have hbound' : env'.isBoundHere x = reserved.isBoundHere x := by
      rw [Env.isBoundHere, hscope, Env.isBoundHere]
    rw [hbound', hbound, Bool.or_eq_true, h.bound, Program.topNames_append, hname,
      List.mem_append, List.mem_singleton, beq_iff_eq, or_comm]
    exact or_congr_right eq_comm

end Declared

/-! ## Declaring one statement, and all of them -/

/-- A top-level statement can be declared when its name is new and not that of
an intrinsic procedure. -/
structure Stmt.Declarable (done : Program) (s : Stmt) : Prop where
  fresh : ∀ x, s.topName? = some x → x ∉ done.topNames
  notIntrinsic : ∀ f sig, s.signature? = some (f, sig) → isIntrinsic f = false

/-- **Step lemma**: declaring a statement succeeds only where it may, and adds
just the statement to what the scope holds. -/
theorem declareTop_sound {done : Program} {env env' : Env} {s : Stmt} {u : Unit}
    (h : Declared done env) (hs : declareTop env s = (env', .ok u)) :
    s.Declarable done ∧ Declared (done ++ [s]) env' := by
  cases s with
  | define name params ret decls body =>
      simp only [declareTop] at hs
      split at hs
      · cases hs
      · next hint =>
          split at hs
          · cases hs
          · next reserved hr =>
              split at hs
              · cases hs
              · next hd =>
                  cases hs
                  refine ⟨⟨?_, ?_⟩, h.define hr hd⟩
                  · intro x hx
                    obtain rfl := Option.some.inj hx
                    rw [← h.bound, (Env.reserve_spec hr).1]
                    exact Bool.false_ne_true
                  · intro f sig hf
                    simp only [Stmt.signature?, Option.some.injEq, Prod.mk.injEq] at hf
                    rw [← hf.1]
                    simpa using hint
  | decl d =>
      simp only [declareTop] at hs
      split at hs
      · cases hs
      · next hd =>
          cases hs
          refine ⟨⟨?_, by simp [Stmt.signature?]⟩, h.decl hd⟩
          intro x hx
          obtain rfl := Option.some.inj hx
          rw [← h.bound, (Env.declareGlobal_eq_ok_iff.mp hd).2.1]
          exact Bool.false_ne_true
  | missing | pass | expr _ | ret _ | assign _ _ | branch _ _ _ | loop _ _ =>
      cases hs
      exact ⟨⟨by simp [Stmt.topName?], by simp [Stmt.signature?]⟩, h.skip rfl⟩

/-- A statement that may be declared is. -/
theorem declareTop_complete {done : Program} {env : Env} {s : Stmt} (h : Declared done env)
    (hs : s.Declarable done) : ∃ env', declareTop env s = (env', .ok ()) := by
  have hnew : ∀ x, s.topName? = some x → env.isBoundHere x = false := by
    intro x hx
    rw [Bool.eq_false_iff, ne_eq, h.bound]
    exact hs.fresh x hx
  cases s with
  | define name params ret decls body =>
      have hsig : env.signature? name = none := by
        rw [h.signatures]
        exact Program.lookup_signatures_eq_none (hs.fresh name rfl)
      have hold : Env.signature? name
          { env with scope := { env.scope with here := env.scope.here.insert name } } = none := hsig
      simp [declareTop, hs.notIntrinsic name _ rfl, Env.reserve, hnew name rfl, Env.defineFunc,
        hold]
  | decl d =>
      have hd : env.declareGlobal d.name d.ty =
          .ok (env.addGlobal ⟨d.name, d.ty, .global, env.slots⟩, ⟨d.name, d.ty, .global, env.slots⟩) :=
        Env.declareGlobal_eq_ok_iff.mpr ⟨h.topLevel.isTop, hnew d.name rfl, rfl, rfl⟩
      simp [declareTop, hd]
  | missing | pass | expr _ | ret _ | assign _ _ | branch _ _ _ | loop _ _ => exact ⟨env, rfl⟩

/-- Statements that can be declared one after the other. -/
def Program.Declarable (done p : Program) : Prop :=
  (topNames p).Nodup ∧ (∀ x ∈ topNames p, x ∉ topNames done) ∧
    ∀ f ∈ signatures p, isIntrinsic f.1 = false

theorem Program.declarable_cons (done : Program) (s : Stmt) (rest : Program) :
    Program.Declarable done (s :: rest) ↔
      s.Declarable done ∧ Program.Declarable (done ++ [s]) rest := by
  have htop : topNames (s :: rest) = s.topName?.toList ++ topNames rest := by
    cases hs : s.topName? <;> simp [topNames, hs]
  have hsig : signatures (s :: rest) = s.signature?.toList ++ signatures rest := by
    cases hs : s.signature? <;> simp [signatures, hs]
  have hone : topNames [s] = s.topName?.toList := by
    cases hs : s.topName? <;> simp [topNames, hs]
  constructor
  · rintro ⟨hnodup, hfresh, hint⟩
    rw [htop] at hnodup hfresh
    rw [hsig] at hint
    rw [List.nodup_append] at hnodup
    obtain ⟨_, hrest, hdisjoint⟩ := hnodup
    refine ⟨⟨?_, ?_⟩, hrest, ?_, ?_⟩
    · intro x hx
      exact hfresh x (List.mem_append_left _ (by simp [hx]))
    · intro f sig hf
      exact hint (f, sig) (List.mem_append_left _ (by simp [hf]))
    · intro x hx hmem
      rw [topNames_append, hone, List.mem_append] at hmem
      cases hmem with
      | inl hdone => exact hfresh x (List.mem_append_right _ hx) hdone
      | inr hs => exact hdisjoint x hs x hx rfl
    · intro f hf
      exact hint f (List.mem_append_right _ hf)
  · rintro ⟨⟨hfresh, hint⟩, hrest, hnew, hintrest⟩
    refine ⟨?_, ?_, ?_⟩
    · rw [htop, List.nodup_append]
      refine ⟨?_, hrest, ?_⟩
      · cases s.topName? <;> simp
      · rintro x hx y hy rfl
        apply hnew x hy
        rw [topNames_append, hone]
        exact List.mem_append_right _ hx
    · intro x hx
      rw [htop, List.mem_append] at hx
      cases hx with
      | inl hs => exact hfresh x (by simpa using hs)
      | inr hr =>
          intro hdone
          apply hnew x hr
          rw [topNames_append]
          exact List.mem_append_left _ hdone
    · rintro ⟨f, sig⟩ hf
      rw [hsig, List.mem_append] at hf
      cases hf with
      | inl hs => exact hint f sig (by simpa using hs)
      | inr hr => exact hintrest (f, sig) hr

/-- **Run lemma**: declaring a whole program succeeds only where it may, and
leaves a scope with just what the program declares. -/
theorem declareAll_sound {done : Program} {env env' : Env} {p : Program} {u : Unit}
    (h : Declared done env) (hp : declareAll env p = (env', .ok u)) :
    Program.Declarable done p ∧ Declared (done ++ p) env' := by
  induction p generalizing done env with
  | nil =>
      cases hp
      refine ⟨⟨List.nodup_nil, ?_, ?_⟩, by rwa [List.append_nil]⟩
      · simp [Program.topNames]
      · simp [Program.signatures]
  | cons s rest ih =>
      rw [declareAll] at hp
      split at hp
      · next env₁ hs =>
          obtain ⟨hstep, hdone⟩ := declareTop_sound h hs
          obtain ⟨hrest, hall⟩ := ih hdone hp
          refine ⟨(Program.declarable_cons done s rest).mpr ⟨hstep, hrest⟩, ?_⟩
          rwa [List.append_assoc, List.singleton_append] at hall
      · cases hp

/-- A program that may be declared is. -/
theorem declareAll_complete {done : Program} {env : Env} {p : Program} (h : Declared done env)
    (hp : Program.Declarable done p) : ∃ env', declareAll env p = (env', .ok ()) := by
  induction p generalizing done env with
  | nil => exact ⟨env, rfl⟩
  | cons s rest ih =>
      obtain ⟨hs, hrest⟩ := (Program.declarable_cons done s rest).mp hp
      obtain ⟨env₁, hstep⟩ := declareTop_complete h hs
      obtain ⟨env', hall⟩ := ih (declareTop_sound h hstep).2 hrest
      refine ⟨env', ?_⟩
      rw [declareAll, hstep]
      exact hall

/-! ## Looking globals up -/

namespace Declared

variable {p : Program} {env : Env}

/-- The global at a slot is seen by its name. -/
theorem lookup?_of_getElem? (h : Declared p env) {i : Nat} {x : String} {ty : Ty}
    (hi : p.globals[i]? = some (x, ty)) : env.lookup? x = some ⟨x, ty, .global, i⟩ := by
  rw [← h.globals, List.getElem?_map, Array.getElem?_toList, Option.map_eq_some_iff] at hi
  obtain ⟨b, hb, heq⟩ := hi
  obtain ⟨hstorage, hslot⟩ := h.topLevel.stored hb
  simp only [Prod.mk.injEq] at heq
  obtain ⟨rfl, rfl⟩ := heq
  subst hslot
  rw [h.topLevel.seen.mpr ⟨rfl, hb⟩, ← hstorage]

/-- A scope has one slot for each global. -/
theorem slots (h : Declared p env) :
    env.slots = p.globals.length := by
  rw [← h.globals, List.length_map, Array.length_toList, h.topLevel.counted]

/-- What is seen is a global of the program, at its slot. -/
theorem getElem?_of_lookup? (h : Declared p env) {x : String} {b : Binding}
    (hb : env.lookup? x = some b) : p.globals[b.slot]? = some (x, b.ty) := by
  obtain ⟨rfl, hslot⟩ := h.topLevel.seen.mp hb
  rw [← h.globals, List.getElem?_map, Array.getElem?_toList, hslot]
  rfl

/-- What the first globals of a program bind, told by their slots. -/
theorem lookup_take (h : Declared p env) (n : Nat) (x : String) :
    (p.globals.take n).lookup x =
      (env.lookup? x).bind fun b => if b.slot < n then some b.ty else none := by
  cases hl : (p.globals.take n).lookup x with
  | some ty =>
      obtain ⟨before, after, hsplit, -⟩ := List.lookup_eq_some_iff.mp hl
      have hi : (p.globals.take n)[before.length]? = some (x, ty) := by
        rw [hsplit]
        simp
      rw [List.getElem?_take] at hi
      split at hi
      · next hlt =>
          rw [h.lookup?_of_getElem? hi]
          simp [hlt]
      · cases hi
  | none =>
      cases hb : env.lookup? x with
      | none => rfl
      | some b =>
          by_cases hlt : b.slot < n
          · have hi : (p.globals.take n)[b.slot]? = some (x, b.ty) := by
              rw [List.getElem?_take_of_lt hlt]
              exact h.getElem?_of_lookup? hb
            have hne := List.lookup_eq_none_iff.mp hl _ (List.mem_of_getElem? hi)
            simp at hne
          · simp [hlt]

/-- A scope sees the globals and the functions of the program it holds. -/
theorem visible_eq (h : Declared p env) : env.visible = p.visible := by
  have hvars : (fun x => (env.lookup? x).map (·.ty)) = fun x => p.globals.lookup x := by
    funext x
    have htake := h.lookup_take p.globals.length x
    rw [List.take_length] at htake
    rw [htake]
    cases hb : env.lookup? x with
    | none => rfl
    | some b =>
        have hlt := (List.getElem?_eq_some_iff.mp (h.getElem?_of_lookup? hb)).1
        simp [hlt]
  have hfuncs : env.signature? = fun f => p.signatures.lookup f := funext h.signatures
  rw [Env.visible, hvars, hfuncs]
  rfl

end Declared

end Taglet
