import Taglet.Proofs.TypeRules

/-!
# Taglet.Proofs.Scopes

What scopes come to see.

A function scope is a nested scope with its locals added one by one
(`Env.withLocal`, `Env.withParams`, `Env.withDecls`); declaring a local
succeeds exactly when it is new to its function, and then does just that.  At
the top level the visible variables are the globals, each at the slot of its
place in the list of globals (`Env.TopLevel`).
-/

namespace Taglet.Env

/-! ## Locals -/

/-- The scope with one more local. -/
def withLocal (name : String) (ty : Ty) (e : Env) : Env :=
  e.addLocal ⟨name, ty, .frame, e.scope.locals⟩

/-- The scope with the parameters of a function. -/
def withParams : List Param → Env → Env
  | [], e => e
  | p :: params, e => withParams params (e.withLocal p.name p.ty)

/-- The scope with the leading declarations of a function. -/
def withDecls : List Decl → Env → Env
  | [], e => e
  | d :: decls, e => withDecls decls (e.withLocal d.name d.ty)

theorem withDecls_concat (decls : List Decl) (d : Decl) (e : Env) :
    e.withDecls (decls ++ [d]) = (e.withDecls decls).withLocal d.name d.ty := by
  induction decls generalizing e with
  | nil => rfl
  | cons d' decls ih => rw [List.cons_append, withDecls, ih, withDecls]

@[simp]
theorem lookup?_withLocal (name : String) (ty : Ty) (e : Env) (x : String) :
    (e.withLocal name ty).lookup? x =
      if name = x then some ⟨name, ty, .frame, e.scope.locals⟩ else e.lookup? x := by
  simp only [withLocal, addLocal, lookup?_bind]
  rfl

@[simp]
theorem isBoundHere_withLocal (name : String) (ty : Ty) (e : Env) (x : String) :
    (e.withLocal name ty).isBoundHere x = (name == x || e.isBoundHere x) := by
  simp only [withLocal, addLocal, isBoundHere_bind]
  rfl

@[simp]
theorem isTop_withLocal (name : String) (ty : Ty) (e : Env) :
    (e.withLocal name ty).isTop = e.isTop := rfl

@[simp]
theorem isTop_withParams (params : List Param) (e : Env) :
    (e.withParams params).isTop = e.isTop := by
  induction params generalizing e with
  | nil => rfl
  | cons p params ih => rw [withParams, ih, isTop_withLocal]

@[simp]
theorem isTop_withDecls (decls : List Decl) (e : Env) : (e.withDecls decls).isTop = e.isTop := by
  induction decls generalizing e with
  | nil => rfl
  | cons d decls ih => rw [withDecls, ih, isTop_withLocal]

theorem isBoundHere_withParams (params : List Param) (e : Env) (x : String) :
    (e.withParams params).isBoundHere x = true ↔
      x ∈ params.map (·.name) ∨ e.isBoundHere x = true := by
  induction params generalizing e with
  | nil => simp [withParams]
  | cons p params ih =>
      rw [withParams, ih, isBoundHere_withLocal]
      simp only [Bool.or_eq_true, beq_iff_eq, List.map_cons, List.mem_cons]
      constructor
      · rintro (h | rfl | h)
        · exact .inl (.inr h)
        · exact .inl (.inl rfl)
        · exact .inr h
      · rintro ((rfl | h) | h)
        · exact .inr (.inl rfl)
        · exact .inl h
        · exact .inr (.inr h)

/-- What a scope with parameters sees is one of them, or was seen before. -/
theorem of_lookup?_withParams {params : List Param} {e : Env} {x : String} {b : Binding}
    (h : (e.withParams params).lookup? x = some b) :
    (x, b.ty) ∈ params.map (fun q => (q.name, q.ty)) ∧ b.isLocal = true ∨ e.lookup? x = some b := by
  induction params generalizing e with
  | nil => exact .inr h
  | cons q params ih =>
      rcases ih h with ⟨hx, hlocal⟩ | hx
      · exact .inl ⟨List.mem_cons_of_mem _ hx, hlocal⟩
      · rw [lookup?_withLocal] at hx
        split at hx
        · next hname =>
            cases hx
            exact .inl ⟨by simp [hname], rfl⟩
        · exact .inr hx

/-- What a scope with declarations sees is one of them, or was seen before. -/
theorem of_lookup?_withDecls {decls : List Decl} {e : Env} {x : String} {b : Binding}
    (h : (e.withDecls decls).lookup? x = some b) :
    (x, b.ty) ∈ decls.map (fun d => (d.name, d.ty)) ∧ b.isLocal = true ∨ e.lookup? x = some b := by
  induction decls generalizing e with
  | nil => exact .inr h
  | cons d decls ih =>
      rcases ih h with ⟨hx, hlocal⟩ | hx
      · exact .inl ⟨List.mem_cons_of_mem _ hx, hlocal⟩
      · rw [lookup?_withLocal] at hx
        split at hx
        · next hname =>
            cases hx
            exact .inl ⟨by simp [hname], rfl⟩
        · exact .inr hx

/-- A function scope is not the top level. -/
theorem isTop_nest {func : String} (h : func ≠ "") (e : Env) : (e.nest func).isTop = false := by
  simpa [nest, isTop] using h

/-- A local can be declared when it is new to its function. -/
theorem declareLocal_eq_ok_iff {name : String} {ty : Ty} {e e' : Env} {b : Binding} :
    e.declareLocal name ty = .ok (e', b) ↔
      e.isTop = false ∧ e.isBoundHere name = false ∧ e' = e.withLocal name ty ∧
        b = ⟨name, ty, .frame, e.scope.locals⟩ := by
  unfold declareLocal newLocal
  by_cases ht : e.isTop = true
  · simp [ht]
  · by_cases hb : e.isBoundHere name = true
    · simp [ht, hb]
    · simp only [ht, hb, Bool.false_eq_true, ↓reduceIte, Except.ok.injEq, Prod.mk.injEq, true_and,
        withLocal]
      constructor
      · rintro ⟨rfl, rfl⟩
        exact ⟨rfl, rfl⟩
      · rintro ⟨rfl, rfl⟩
        exact ⟨rfl, rfl⟩

/-! ## What is visible -/

/-- What is visible from a scope. -/
def visible (e : Env) : Visible where
  vars := fun x => (e.lookup? x).map (·.ty)
  funcs := e.signature?

@[simp]
theorem visible_withLocal (name : String) (ty : Ty) (e : Env) :
    (e.withLocal name ty).visible = e.visible.bind name ty := by
  simp only [visible, Visible.bind, lookup?_withLocal]
  congr 1
  funext x
  split <;> rfl

@[simp]
theorem visible_nest (func : String) (e : Env) : (e.nest func).visible = e.visible := rfl

theorem visible_withParams (params : List Param) (e : Env) :
    (e.withParams params).visible = e.visible.bindParams params := by
  induction params generalizing e with
  | nil => rfl
  | cons p params ih => rw [withParams, ih, visible_withLocal, Visible.bindParams]

theorem visible_withDecls (decls : List Decl) (e : Env) :
    (e.withDecls decls).visible = e.visible.bindDecls decls := by
  induction decls generalizing e with
  | nil => rfl
  | cons d decls ih => rw [withDecls, ih, visible_withLocal, Visible.bindDecls]

/-! ## The top level -/

/-- A top-level scope: what it sees are the globals, each at its slot. -/
structure TopLevel (e : Env) : Prop where
  isTop : e.isTop = true
  counted : e.slots = e.globals.bindings.size
  seen : ∀ {x : String} {b : Binding},
    e.lookup? x = some b ↔ b.name = x ∧ e.globals.bindings[b.slot]? = some b
  stored : ∀ {i : Nat} {b : Binding},
    e.globals.bindings[i]? = some b → b.storage = .global ∧ b.slot = i
  bound : ∀ {x : String} {b : Binding}, e.lookup? x = some b → e.isBoundHere x = true

theorem topLevel_empty : empty.TopLevel where
  isTop := rfl
  counted := rfl
  seen := by simp [empty, lookup?]
  stored := by simp [empty]
  bound := by simp

/-- A global can be declared at the top level when its name is new there. -/
theorem declareGlobal_eq_ok_iff {name : String} {ty : Ty} {e e' : Env} {b : Binding} :
    e.declareGlobal name ty = .ok (e', b) ↔
      e.isTop = true ∧ e.isBoundHere name = false ∧ b = ⟨name, ty, .global, e.slots⟩ ∧
        e' = e.addGlobal b := by
  unfold declareGlobal newGlobal
  by_cases ht : e.isTop = true
  · by_cases hb : e.isBoundHere name = true
    · simp [ht, hb]
    · simp only [ht, hb, Bool.not_true, Bool.false_eq_true, ↓reduceIte, Except.ok.injEq,
        Prod.mk.injEq, true_and]
      constructor
      · rintro ⟨rfl, rfl⟩
        exact ⟨rfl, rfl⟩
      · rintro ⟨rfl, rfl⟩
        exact ⟨rfl, rfl⟩
  · simp [ht]

@[simp]
theorem lookup?_addGlobal (b : Binding) (e : Env) (x : String) :
    (e.addGlobal b).lookup? x = if b.name = x then some b else e.lookup? x := by
  simp only [addGlobal, lookup?_bind]
  rfl

@[simp]
theorem isBoundHere_addGlobal (b : Binding) (e : Env) (x : String) :
    (e.addGlobal b).isBoundHere x = (b.name == x || e.isBoundHere x) := by
  simp only [addGlobal, isBoundHere_bind]
  rfl

@[simp]
theorem bindings_addGlobal (b : Binding) (e : Env) :
    (e.addGlobal b).globals.bindings = e.globals.bindings.push b := rfl

@[simp]
theorem slots_addGlobal (b : Binding) (e : Env) : (e.addGlobal b).slots = e.slots + 1 := rfl

@[simp]
theorem signature?_addGlobal (b : Binding) (e : Env) (f : String) :
    (e.addGlobal b).signature? f = e.signature? f := rfl

/-- Declaring a global keeps a scope at the top level. -/
theorem TopLevel.declareGlobal {name : String} {ty : Ty} {e e' : Env} {b : Binding}
    (h : e.TopLevel) (hd : e.declareGlobal name ty = .ok (e', b)) : e'.TopLevel := by
  obtain ⟨_, hnew, hb, rfl⟩ := declareGlobal_eq_ok_iff.mp hd
  have hslot : b.slot = e.globals.bindings.size := by rw [hb, h.counted]
  have hname : b.name = name := by rw [hb]
  constructor
  · exact h.isTop
  · rw [slots_addGlobal, bindings_addGlobal, Array.size_push, h.counted]
  · intro x c
    rw [lookup?_addGlobal, bindings_addGlobal, Array.getElem?_push]
    by_cases hx : b.name = x
    · rw [if_pos hx]
      constructor
      · intro hc
        obtain rfl := Option.some.inj hc
        exact ⟨hx, by rw [if_pos hslot]⟩
      · rintro ⟨hcx, hc⟩
        split at hc
        · exact hc
        · -- an older global of that name would be bound here
          have hbound := h.bound (h.seen.mpr ⟨hcx, hc⟩)
          rw [← hx, hname, hnew] at hbound
          cases hbound
    · rw [if_neg hx, h.seen]
      constructor
      · rintro ⟨hcx, hc⟩
        have hlt : c.slot < e.globals.bindings.size := (Array.getElem?_eq_some_iff.mp hc).1
        exact ⟨hcx, by rw [if_neg (by omega)]; exact hc⟩
      · rintro ⟨hcx, hc⟩
        split at hc
        · obtain rfl := Option.some.inj hc
          exact absurd hcx hx
        · exact ⟨hcx, hc⟩
  · intro i c
    rw [bindings_addGlobal, Array.getElem?_push]
    intro hc
    split at hc
    · next hi =>
        obtain rfl := Option.some.inj hc
        exact ⟨by rw [hb], by omega⟩
    · exact h.stored hc
  · intro x c hc
    rw [lookup?_addGlobal] at hc
    rw [isBoundHere_addGlobal]
    split at hc
    · next hx => simp [hx]
    · simp [h.bound hc]

/-- What reserving a name does: it is bound from then on, and no more changes. -/
theorem reserve_spec {name : String} {e e' : Env} (h : e.reserve name = .ok e') :
    e.isBoundHere name = false ∧ e'.globals = e.globals ∧ e'.isTop = e.isTop ∧
      (∀ x, e'.lookup? x = e.lookup? x) ∧
      ∀ x, e'.isBoundHere x = (name == x || e.isBoundHere x) := by
  unfold reserve at h
  split at h
  · cases h
  · next hnew =>
      cases h
      refine ⟨by simpa using hnew, rfl, rfl, fun _ => rfl, fun x => ?_⟩
      rw [Bool.eq_iff_iff]
      simp [isBoundHere, Std.TreeSet.contains_insert]

/-- Recording a signature changes neither the scope nor the globals. -/
theorem defineFunc_spec {name : String} {sig : Signature} {e e' : Env}
    (h : e.defineFunc name sig = .ok e') :
    e'.scope = e.scope ∧ e'.slots = e.slots ∧ e'.globals.bindings = e.globals.bindings := by
  unfold defineFunc at h
  split at h
  · cases h
  · cases h
    exact ⟨rfl, rfl, rfl⟩

/-- Reserving a name keeps a scope at the top level. -/
theorem TopLevel.reserve {name : String} {e e' : Env} (h : e.TopLevel)
    (hr : e.reserve name = .ok e') : e'.TopLevel := by
  obtain ⟨_, hglobals, htop, hlookup, hbound⟩ := reserve_spec hr
  constructor
  · rw [htop, h.isTop]
  · rw [slots, hglobals]
    exact h.counted
  · intro x b
    rw [hlookup, hglobals]
    exact h.seen
  · intro i b
    rw [hglobals]
    exact h.stored
  · intro x b hb
    rw [hlookup] at hb
    rw [hbound, h.bound hb, Bool.or_true]

/-- To be at the top level is a matter of the scope and the globals. -/
theorem TopLevel.congr {e e' : Env} (h : e.TopLevel) (hscope : e'.scope = e.scope)
    (hslots : e'.slots = e.slots) (hbindings : e'.globals.bindings = e.globals.bindings) :
    e'.TopLevel := by
  have hlookup : ∀ x, e'.lookup? x = e.lookup? x := by
    intro x
    rw [lookup?, hscope, lookup?]
  constructor
  · rw [Env.isTop, hscope]
    exact h.isTop
  · rw [hslots, hbindings, h.counted]
  · intro x b
    rw [hlookup, hbindings]
    exact h.seen
  · intro i b
    rw [hbindings]
    exact h.stored
  · intro x b hb
    rw [hlookup] at hb
    rw [isBoundHere, hscope]
    exact h.bound hb

/-- Declaring a function keeps a scope at the top level. -/
theorem TopLevel.declareFunc {name : String} {sig : Signature} {e reserved e' : Env}
    (h : e.TopLevel) (hr : e.reserve name = .ok reserved)
    (hd : reserved.defineFunc name sig = .ok e') : e'.TopLevel := by
  obtain ⟨hscope, hslots, hbindings⟩ := defineFunc_spec hd
  exact (h.reserve hr).congr hscope hslots hbindings

/-- What a top-level scope sees is a global within its slots. -/
theorem TopLevel.global_of_lookup? {e : Env} (h : e.TopLevel) {x : String} {b : Binding}
    (hb : e.lookup? x = some b) : b.storage = .global ∧ b.slot < e.slots := by
  have hslot := (h.seen.mp hb).2
  rw [h.counted]
  exact ⟨(h.stored hslot).1, (Array.getElem?_eq_some_iff.mp hslot).1⟩

/-- Different names that a top-level scope sees have different slots. -/
theorem TopLevel.slot_ne {e : Env} (h : e.TopLevel) {x y : String} {b c : Binding}
    (hb : e.lookup? x = some b) (hc : e.lookup? y = some c) (hxy : x ≠ y) : b.slot ≠ c.slot := by
  intro heq
  obtain ⟨hbname, hbslot⟩ := h.seen.mp hb
  obtain ⟨hcname, hcslot⟩ := h.seen.mp hc
  rw [heq, hcslot] at hbslot
  obtain rfl := Option.some.inj hbslot
  exact hxy (hbname.symm.trans hcname)

end Taglet.Env
