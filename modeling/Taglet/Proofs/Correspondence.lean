import Taglet.Proofs.Runs
import Taglet.Proofs.Storage

/-!
# Taglet.Proofs.Correspondence

How the state of the machine corresponds to that of an evaluation.

The globals that are ready lie in memory, each at its slot, as the words of
their values; the host is the one that the run began with, after what was
printed since (`Holds`).  A scope says where the value of a variable is: in
the frame under its name, or among the globals (`Sees`).
-/

namespace Taglet

open Machine Wat

/-! ## Printing -/

/-- A writer that refuses nothing. -/
def Writer.NeverFails : Writer → Prop
  | absent => True
  | answering answers later => (∀ a ∈ answers, a = true) ∧ later = true

namespace Host

/-- With a writer that refuses nothing, printing gives back what it printed. -/
theorem print_spec {h : Host} (hw : h.writer.NeverFails) (w : Word) :
    (h.print w).1 = .ok w ∧ (h.print w).2.writer.NeverFails := by
  obtain ⟨writer, printed, written⟩ := h
  match writer, hw with
  | .absent, _ => exact ⟨rfl, trivial⟩
  | .answering [] true, hw => exact ⟨rfl, hw⟩
  | .answering (true :: answers) later, hw =>
      exact ⟨rfl, fun a ha => hw.1 a (List.mem_cons_of_mem _ ha), hw.2⟩
  | .answering [] false, hw => exact absurd hw.2 (by decide)
  | .answering (false :: answers) later, hw => exact absurd (hw.1 false (by simp)) (by decide)

theorem writer_printAll {h : Host} (hw : h.writer.NeverFails) (vs : List Value) :
    (h.printAll vs).writer.NeverFails := by
  induction vs generalizing h with
  | nil => exact hw
  | cons v vs ih => exact ih (print_spec hw v.word).2

theorem printAll_concat (h : Host) (vs : List Value) (v : Value) :
    h.printAll (vs ++ [v]) = ((h.printAll vs).print v.word).2 := by
  rw [printAll, List.foldl_append]
  rfl

end Host

/-! ## Globals -/

/-- The state of the machine corresponds to a store: the globals `ready` have
their values in memory, where the scope `env` has them; what was printed was
printed on `h`; and `depth` calls are in progress. -/
structure Holds (env : Env) (h : Host) (ready : List (String × Ty)) (depth : Nat) (σ : Store)
    (st : State Host) : Prop where
  world : st.world = h.printAll σ.printed
  depth : st.depth = depth
  running : st.canceled = false
  /-- All slots lie in the memory, whose addresses are words. -/
  room : 8 * env.slots ≤ st.memory.size ∧ st.memory.size < 2 ^ 62
  globals : ∀ {x : String} {t : Ty} {b : Binding}, ready.lookup x = some t →
    env.lookup? x = some b →
    ∃ v, v.HasTy t ∧ σ.globals x = some v ∧ st.memory.word (8 * b.slot) = v.word

namespace Holds

variable {env : Env} {h : Host} {ready : List (String × Ty)} {depth : Nat} {σ : Store}
  {st : State Host}

/-- The address of a slot is within the memory. -/
theorem locate (hh : Holds env h ready depth σ st) (htop : env.TopLevel) {x : String} {b : Binding}
    (hb : env.lookup? x = some b) :
    Memory.locate st.memory.size (Int64.ofInt b.addr) = .done (8 * b.slot) := by
  have hslot := (htop.global_of_lookup? hb).2
  have hroom := hh.room
  exact Memory.locate_addr (by omega) hroom.2

/-- A global that is ready is loaded from its address. -/
theorem load (hh : Holds env h ready depth σ st) (htop : env.TopLevel) {x : String} {b : Binding}
    {t : Ty} (hready : ready.lookup x = some t) (hb : env.lookup? x = some b) :
    ∃ v, v.HasTy t ∧ σ.globals x = some v ∧
      st.memory.load (Int64.ofInt b.addr) = .done v.word := by
  obtain ⟨v, hv, hvalue, hword⟩ := hh.globals hready hb
  refine ⟨v, hv, hvalue, ?_⟩
  rw [Memory.load, hh.locate htop hb, Access.map, hword]

/-- Storing a value at the slot of a global gives the global that value, and
from then on it is ready. -/
theorem store (hh : Holds env h ready depth σ st) (htop : env.TopLevel) {x : String} {b : Binding}
    {t : Ty} {v : Value} (ready' : List (String × Ty)) (hb : env.lookup? x = some b)
    (hv : v.HasTy t)
    (hready : ∀ y t', ready'.lookup y = some t' →
      x = y ∧ t' = t ∨ x ≠ y ∧ ready.lookup y = some t') :
    Holds env h ready' depth { σ with globals := fun y => if x = y then some v else σ.globals y }
      { st with memory := st.memory.setWord (8 * b.slot) v.word } where
  world := hh.world
  depth := hh.depth
  running := hh.running
  room := by
    rw [Memory.size_setWord]
    exact hh.room
  globals := by
    intro y t' c hy hc
    rcases hready y t' hy with ⟨rfl, rfl⟩ | ⟨hxy, hold⟩
    · obtain rfl : b = c := Option.some.inj (hb.symm.trans hc)
      exact ⟨v, hv, by simp, by simp⟩
    · obtain ⟨u, hu, hvalue, hword⟩ := hh.globals hold hc
      refine ⟨u, hu, by simp [hxy, hvalue], ?_⟩
      -- another name has another slot, which the store leaves alone
      have hslot := htop.slot_ne hb hc hxy
      rw [← hword]
      exact Memory.word_setWord_of_disjoint _ _ (by omega)

/-- Printing a value. -/
theorem print (hh : Holds env h ready depth σ st) (v : Value) :
    Holds env h ready depth { σ with printed := σ.printed ++ [v] }
      { st with world := (st.world.print v.word).2 } where
  world := by rw [hh.world, Host.printAll_concat]
  depth := hh.depth
  running := hh.running
  room := hh.room
  globals := hh.globals

/-- A call enters a function. -/
theorem enter (hh : Holds env h ready depth σ st) :
    Holds env h ready (depth + 1) σ { st with depth := st.depth + 1 } :=
  ⟨hh.world, by rw [hh.depth], hh.running, hh.room, hh.globals⟩

/-- A call leaves a function. -/
theorem leave (hh : Holds env h ready (depth + 1) σ st) :
    Holds env h ready depth σ { st with depth := st.depth - 1 } :=
  ⟨hh.world, by rw [hh.depth]; rfl, hh.running, hh.room, hh.globals⟩

end Holds

/-! ## Variables -/

/-- Where the variables of a scope have their values: a local in the frame,
under its name, and a global among the globals that are ready. -/
def Sees (env : Env) (ready : List (String × Ty)) (scope : Env) (Γ : Visible) (ρ : Frame)
    (ls : Locals) : Prop :=
  ∀ ⦃x : String⦄ ⦃t : Ty⦄, Γ.vars x = some t →
    ∃ b, scope.lookup? x = some b ∧
      (b.isLocal = true ∧ (∃ v, v.HasTy t ∧ ρ x = some v ∧ ls.get? (utf8 x) = some v.word) ∨
        b.isLocal = false ∧ ρ x = none ∧ env.lookup? x = some b ∧ ready.lookup x = some t)

namespace Sees

variable {env scope : Env} {ready : List (String × Ty)} {Γ : Visible} {ρ : Frame} {ls : Locals}

/-- Only the locals that the scope has matter. -/
theorem congr {ls' : Locals} (hs : Sees env ready scope Γ ρ ls)
    (h : ∀ x b, scope.lookup? x = some b → b.isLocal = true →
      ls'.get? (utf8 x) = ls.get? (utf8 x)) : Sees env ready scope Γ ρ ls' := by
  intro x t hx
  obtain ⟨b, hb, ⟨hlocal, hvalue⟩ | hglobal⟩ := hs hx
  · exact ⟨b, hb, .inl ⟨hlocal, by rw [h x b hb hlocal]; exact hvalue⟩⟩
  · exact ⟨b, hb, .inr hglobal⟩

/-- Giving a local a value of its type. -/
theorem assign (hs : Sees env ready scope Γ ρ ls) {x : String} {t : Ty} {b : Binding} {v : Value}
    (hx : Γ.vars x = some t) (hb : scope.lookup? x = some b) (hlocal : b.isLocal = true)
    (hv : v.HasTy t) : Sees env ready scope Γ (ρ.set x v) (ls.set (utf8 x) v.word) := by
  intro y t' hy
  by_cases hxy : x = y
  · subst hxy
    obtain rfl : t = t' := Option.some.inj (hx.symm.trans hy)
    exact ⟨b, hb, .inl ⟨hlocal, v, hv, by simp [Frame.set], by simp⟩⟩
  · have hname : utf8 x ≠ utf8 y := fun h => hxy (utf8_injective h)
    simp only [Frame.set, Locals.get?_set, hxy, hname, ↓reduceIte]
    exact hs hy

/-- A new local with a value of its type. -/
theorem bind (hs : Sees env ready scope Γ ρ ls) (x : String) {t : Ty} {v : Value}
    (hv : v.HasTy t) :
    Sees env ready (scope.withLocal x t) (Γ.bind x t) (ρ.set x v) (ls.set (utf8 x) v.word) := by
  intro y t' hy
  by_cases hxy : x = y
  · subst hxy
    obtain rfl : t = t' := by simpa [Visible.bind] using hy
    exact ⟨⟨x, t, .frame, scope.scope.locals⟩, by simp,
      .inl ⟨rfl, v, hv, by simp [Frame.set], by simp⟩⟩
  · have hname : utf8 x ≠ utf8 y := fun h => hxy (utf8_injective h)
    simp only [Visible.bind, hxy, ↓reduceIte] at hy
    simp only [Frame.set, Locals.get?_set, Env.lookup?_withLocal, hxy, hname, ↓reduceIte]
    exact hs hy

/-- The parameters of a function with arguments of their types. -/
theorem bindParams {params : List Param} {args : List Value}
    (hs : Sees env ready scope Γ ρ ls)
    (hargs : List.Forall₂ (fun (p : Param) v => v.HasTy p.ty) params args) :
    Sees env ready (scope.withParams params) (Γ.bindParams params) (ρ.bind params args)
      (((params.map fun p => utf8 p.name).zip (args.map Value.word)).foldl
        (fun (ls : Locals) p => ls.set p.1 p.2) ls) := by
  induction hargs generalizing scope Γ ρ ls with
  | nil => exact hs
  | cons hv _ ih => exact ih (hs.bind _ hv)

/-- At the top level all variables are globals. -/
theorem top (htop : env.TopLevel) (ls : Locals)
    (hready : ∀ x t, Γ.vars x = some t → ready.lookup x = some t)
    (hseen : ∀ x t, Γ.vars x = some t → ∃ b, env.lookup? x = some b) :
    Sees env ready env Γ Frame.empty ls := by
  intro x t hx
  obtain ⟨b, hb⟩ := hseen x t hx
  have hglobal : b.isLocal = false := by
    rw [Binding.isLocal, (htop.global_of_lookup? hb).1]
    rfl
  exact ⟨b, hb, .inr ⟨hglobal, rfl, hb, hready x t hx⟩⟩

end Sees

end Taglet
