import Mathlib.Data.Int.ConditionallyCompleteOrder
import Mathlib.Order.CompletePartialOrder
import Mathlib.Order.ConditionallyCompleteLattice.Basic
import Mathlib.Order.Interval.Set.Disjoint
import Taglet.Proofs.Scopes
import Taglet.Scope.Forest

/-!
# Taglet.Proofs.Forests

Forests of scopes under any sequence of operations.

What an operation can do to a scope and the globals it shares with the other
scopes of its program is said once (`Env.Performed`).  The forests that grow
from a single program (`Forest.Grown`) keep one scope at the top level, and all
others belong to functions (`Forest.Rooted`).  Only the top level can declare
globals, so at any time they fill the slots of linear memory from the first on,
each under a name of its own (`Env.Allocated`).
-/

namespace Taglet

/-! ## One operation on one scope -/

/-- The global that an operation declared, going by its answer. -/
def ScopeAction.global? : ScopeAction → Except ScopeError (Option Binding) → Option Binding
  | .declareGlobal _ _, .ok b => b
  | _, _ => none

namespace Env

/-- What an operation makes of a scope, and its answer. -/
inductive Performed (e : Env) : ScopeAction → Env × Except ScopeError (Option Binding) → Prop
  | failed {a : ScopeAction} (err : ScopeError) : Performed e a (e, .error err)
  | declaredGlobal {name : String} {ty : Ty} {e' : Env} {b : Binding}
      (declared : e.declareGlobal name ty = .ok (e', b)) :
      Performed e (.declareGlobal name ty) (e', .ok (some b))
  | declaredLocal {name : String} {ty : Ty} {e' : Env} {b : Binding}
      (declared : e.declareLocal name ty = .ok (e', b)) :
      Performed e (.declareLocal name ty) (e', .ok (some b))
  | reserved {name : String} {e' : Env} (reserved : e.reserve name = .ok e') :
      Performed e (.reserve name) (e', .ok none)
  | defined {name : String} {sig : Signature} {e' : Env}
      (defined : e.defineFunc name sig = .ok e') : Performed e (.defineFunc name sig) (e', .ok none)

theorem performed (a : ScopeAction) (e : Env) : e.Performed a (e.perform a) := by
  cases a with
  | declareGlobal name ty =>
      rw [perform]
      cases h : e.newGlobal name ty with
      | error err => exact .failed err
      | ok b => exact .declaredGlobal (by rw [declareGlobal, h])
  | declareLocal name ty =>
      rw [perform]
      cases h : e.newLocal name ty with
      | error err => exact .failed err
      | ok b => exact .declaredLocal (by rw [declareLocal, h])
  | reserve name =>
      rw [perform]
      cases h : e.reserve name with
      | error err => exact .failed err
      | ok e' => exact .reserved h
  | defineFunc name sig =>
      rw [perform]
      cases h : e.defineFunc name sig with
      | error err => exact .failed err
      | ok e' => exact .defined h

variable {e e' : Env} {a : ScopeAction} {answer : Except ScopeError (Option Binding)}

/-- An operation that fails changes nothing. -/
theorem Performed.eq_of_error {err : ScopeError} (h : e.Performed a (e', .error err)) :
    e' = e := by
  cases h
  rfl

/-- No operation moves a scope to the top level or away from it. -/
theorem Performed.isTop_eq (h : e.Performed a (e', answer)) : e'.isTop = e.isTop := by
  cases h with
  | failed => rfl
  | declaredGlobal declared =>
      obtain ⟨_, _, _, rfl⟩ := declareGlobal_eq_ok_iff.mp declared
      rfl
  | declaredLocal declared =>
      obtain ⟨_, _, rfl, _⟩ := declareLocal_eq_ok_iff.mp declared
      rfl
  | reserved reserved => exact (reserve_spec reserved).2.2.1
  | defined defined => rw [isTop, (defineFunc_spec defined).1, isTop]

/-- The globals grow by what is declared. -/
theorem Performed.bindings_eq (h : e.Performed a (e', answer)) :
    e'.globals.bindings.toList =
      e.globals.bindings.toList ++ (a.global? answer).toList := by
  cases h with
  | failed => simp [ScopeAction.global?]
  | declaredGlobal declared =>
      obtain ⟨_, _, _, rfl⟩ := declareGlobal_eq_ok_iff.mp declared
      simp [ScopeAction.global?]
  | declaredLocal declared =>
      obtain ⟨_, _, rfl, _⟩ := declareLocal_eq_ok_iff.mp declared
      simp [ScopeAction.global?, withLocal, addLocal, bind]
  | reserved reserved => simp [ScopeAction.global?, (reserve_spec reserved).2.1]
  | defined defined => simp [ScopeAction.global?, (defineFunc_spec defined).2.2]

/-- The slots in use grow with the globals. -/
theorem Performed.slots_eq (h : e.Performed a (e', answer)) :
    e'.slots = e.slots + (a.global? answer).toList.length := by
  cases h with
  | failed => simp [ScopeAction.global?]
  | declaredGlobal declared =>
      obtain ⟨_, _, _, rfl⟩ := declareGlobal_eq_ok_iff.mp declared
      simp [ScopeAction.global?]
  | declaredLocal declared =>
      obtain ⟨_, _, rfl, _⟩ := declareLocal_eq_ok_iff.mp declared
      rfl
  | reserved reserved => simp [ScopeAction.global?, slots, (reserve_spec reserved).2.1]
  | defined defined => simp [ScopeAction.global?, (defineFunc_spec defined).2.1]

/-- A function scope declares no globals. -/
theorem Performed.global?_eq_none (h : e.Performed a (e', answer))
    (htop : e.isTop = false) : a.global? answer = none := by
  cases h with
  | declaredGlobal declared =>
      obtain ⟨htop', _⟩ := declareGlobal_eq_ok_iff.mp declared
      rw [htop] at htop'
      cases htop'
  | failed | declaredLocal | reserved | defined => simp [ScopeAction.global?]

/-- Every operation keeps a scope at the top level. -/
theorem TopLevel.performed (h : e.TopLevel) (hp : e.Performed a (e', answer)) : e'.TopLevel := by
  cases hp with
  | failed => exact h
  | declaredGlobal declared => exact h.declareGlobal declared
  | declaredLocal declared =>
      obtain ⟨htop, _⟩ := declareLocal_eq_ok_iff.mp declared
      rw [h.isTop] at htop
      cases htop
  | reserved reserved => exact h.reserve reserved
  | defined defined =>
      obtain ⟨hscope, hslots, hbindings⟩ := defineFunc_spec defined
      exact h.congr hscope hslots hbindings

end Env

/-! ## Operations on a forest -/

/-- Something that happened to a forest: a scope was opened inside another, or
an operation on a scope gave an answer. -/
inductive ScopeEvent where
  | opened (outer : Nat) (func : String)
  | performed (scope : Nat) (a : ScopeAction) (answer : Except ScopeError (Option Binding))

/-- The global that was declared, if one was. -/
def ScopeEvent.global? : ScopeEvent → Option Binding
  | .opened _ _ => none
  | .performed _ a answer => a.global? answer

namespace Forest

/-- What can become of a single program when function scopes are opened and
operations performed on any scope, with all that happened on the way. -/
inductive Grown : List ScopeEvent → Forest → Prop
  | single : Grown [] single
  | nest {history : List ScopeEvent} {f f' : Forest} {i : Nat} {func : String}
      (before : Grown history f) (named : func ≠ "") (opened : f.nest i func = some f') :
      Grown (history ++ [.opened i func]) f'
  | perform {history : List ScopeEvent} {f f' : Forest} {i : Nat} {a : ScopeAction}
      {answer : Except ScopeError (Option Binding)} (before : Grown history f)
      (performed : f.perform i a = some (f', answer)) :
      Grown (history ++ [.performed i a answer]) f'

variable {f f' : Forest} {i : Nat}

/-- An operation is performed on a scope with the globals of its program, and
nothing else changes. -/
theorem perform_eq_some {a : ScopeAction} {answer : Except ScopeError (Option Binding)}
    (h : f.perform i a = some (f', answer)) :
    ∃ p scope globals, f.scopes[i]? = some (p, scope) ∧ f.programs[p]? = some globals ∧
      ∃ e : Env, ({ globals, scope } : Env).Performed a (e, answer) ∧
        f' = { programs := f.programs.setIfInBounds p e.globals
               scopes := f.scopes.setIfInBounds i (p, e.scope) } := by
  unfold perform at h
  simp only [Option.bind_eq_bind, Option.bind_eq_some_iff, Array.setIfInBounds_setIfInBounds,
    Option.pure_def, Option.some.injEq, Prod.mk.injEq] at h
  obtain ⟨⟨p, scope⟩, hscope, globals, hglobals, rfl, rfl⟩ := h
  exact ⟨p, scope, globals, hscope, hglobals, _, Env.performed _ _, rfl⟩

/-- A new scope is that of its function in the scope around it, and nothing
else changes. -/
theorem nest_eq_some {func : String} (h : f.nest i func = some f') :
    ∃ p scope, f.scopes[i]? = some (p, scope) ∧
      f' = { f with scopes := f.scopes.push (p, { func := func, names := scope.names }) } := by
  unfold nest env? at h
  simp only [Option.bind_eq_bind, Option.bind_eq_some_iff, Option.pure_def, Option.some.injEq] at h
  obtain ⟨⟨p, scope⟩, hscope, e, ⟨⟨p', scope'⟩, hscope', globals, _, rfl⟩, rfl⟩ := h
  rw [hscope] at hscope'
  cases hscope'
  exact ⟨p, scope, hscope, rfl⟩

/-- Writing what is there changes nothing. -/
theorem setIfInBounds_eq_self {α : Type} {a : Array α} {i : Nat} {x : α} (h : a[i]? = some x) :
    a.setIfInBounds i x = a := by
  obtain ⟨hi, rfl⟩ := Array.getElem?_eq_some_iff.mp h
  rw [Array.setIfInBounds, dif_pos hi, Array.set_getElem_self]

/-- A failed operation leaves every scope and all globals as they were. -/
theorem eq_of_perform_error {a : ScopeAction} {err : ScopeError}
    (h : f.perform i a = some (f', .error err)) : f' = f := by
  obtain ⟨p, scope, globals, hscope, hglobals, e, he, rfl⟩ := perform_eq_some h
  obtain rfl := he.eq_of_error
  rw [setIfInBounds_eq_self hglobals, setIfInBounds_eq_self hscope]

/-! ## One program -/

/-- All scopes belong to one program, and only the first is at its top level. -/
structure Rooted (globals : Globals) (f : Forest) : Prop where
  programs_eq : f.programs = #[globals]
  program_eq : ∀ {i p : Nat} {scope : Scope}, f.scopes[i]? = some (p, scope) → p = 0
  top : ∃ scope, f.scopes[0]? = some (0, scope) ∧ ({ globals, scope } : Env).TopLevel
  inner : ∀ {i p : Nat} {scope : Scope}, f.scopes[i]? = some (p, scope) → i ≠ 0 →
    ({ globals, scope } : Env).isTop = false

theorem rooted_single : single.Rooted {} where
  programs_eq := rfl
  program_eq := by
    intro i p scope h
    simp only [single, plant, Array.getElem?_push] at h
    split at h
    · cases h
      rfl
    · simp at h
  top := ⟨{}, rfl, Env.topLevel_empty⟩
  inner := by
    intro i p scope h hi
    simp [single, plant, hi] at h

/-- Opening a function scope keeps a forest rooted. -/
theorem Rooted.nest {globals : Globals} {func : String} (h : f.Rooted globals) (hfunc : func ≠ "")
    (hn : f.nest i func = some f') : f'.Rooted globals := by
  obtain ⟨p, scope, hscope, rfl⟩ := nest_eq_some hn
  obtain ⟨top, htop, htopLevel⟩ := h.top
  have hsize : 0 < f.scopes.size := (Array.getElem?_eq_some_iff.mp htop).1
  constructor
  · exact h.programs_eq
  · intro k q inner hinner
    rw [Array.getElem?_push] at hinner
    split at hinner
    · cases hinner
      exact h.program_eq hscope
    · exact h.program_eq hinner
  · refine ⟨top, ?_, htopLevel⟩
    rw [Array.getElem?_push, if_neg (by omega), htop]
  · intro k q inner hinner hk
    rw [Array.getElem?_push] at hinner
    split at hinner
    · cases hinner
      exact Env.isTop_nest hfunc { globals, scope }
    · exact h.inner hinner hk

/-- An operation keeps a forest rooted, and adds the global it declares. -/
theorem Rooted.perform {globals : Globals} {a : ScopeAction}
    {answer : Except ScopeError (Option Binding)} (h : f.Rooted globals)
    (hp : f.perform i a = some (f', answer)) :
    ∃ globals', f'.Rooted globals' ∧
      globals'.bindings.toList = globals.bindings.toList ++ (a.global? answer).toList := by
  obtain ⟨p, scope, globals', hscope, hglobals, e, he, rfl⟩ := perform_eq_some hp
  obtain ⟨top, htop, htopLevel⟩ := h.top
  obtain rfl := h.program_eq hscope
  obtain rfl : globals' = globals := by simpa [h.programs_eq] using hglobals.symm
  have hafter : ∀ {k q : Nat} {s : Scope},
      (f.scopes.setIfInBounds i (0, e.scope))[k]? = some (q, s) →
        k = i ∧ q = 0 ∧ s = e.scope ∨ f.scopes[k]? = some (q, s) := by
    intro k q s hs
    rw [Array.getElem?_setIfInBounds] at hs
    split at hs
    · next hk =>
        split at hs <;> cases hs
        exact .inl ⟨hk.symm, rfl, rfl⟩
    · exact .inr hs
  refine ⟨e.globals, ?_, he.bindings_eq⟩
  constructor
  · simp [h.programs_eq]
  · intro k q s hs
    rcases hafter hs with ⟨_, hq, _⟩ | hs
    · exact hq
    · exact h.program_eq hs
  · by_cases hi : i = 0
    · subst hi
      rw [hscope] at htop
      cases htop
      exact ⟨e.scope, by grind, htopLevel.performed he⟩
    · have hnone := he.global?_eq_none (h.inner hscope hi)
      have hslots := he.slots_eq
      have hbindings := he.bindings_eq
      rw [hnone] at hslots
      rw [hnone, Option.toList_none, List.append_nil] at hbindings
      exact ⟨top, by grind, htopLevel.congr rfl hslots (Array.toList_inj.mp hbindings)⟩
  · intro k q s hs hk
    rcases hafter hs with ⟨rfl, _, rfl⟩ | hs
    · rw [← h.inner hscope hk, ← he.isTop_eq]
    · exact h.inner hs hk

/-- A single program stays rooted, and its globals are those that were
declared. -/
theorem Grown.rooted {history : List ScopeEvent} (h : Grown history f) :
    ∃ globals, f.Rooted globals ∧
      globals.bindings.toList = history.filterMap ScopeEvent.global? := by
  induction h with
  | single => exact ⟨{}, rooted_single, rfl⟩
  | nest _ named opened ih =>
      obtain ⟨globals, hrooted, hglobals⟩ := ih
      refine ⟨globals, hrooted.nest named opened, ?_⟩
      simp [ScopeEvent.global?, hglobals]
  | @perform _ _ _ _ a answer _ performed ih =>
      obtain ⟨globals, hrooted, hglobals⟩ := ih
      obtain ⟨globals', hrooted', hglobals'⟩ := hrooted.perform performed
      refine ⟨globals', hrooted', ?_⟩
      rw [hglobals', hglobals, List.filterMap_append]
      cases h : a.global? answer <;> simp [ScopeEvent.global?, h]

/-- Every scope of a rooted forest has the globals of its program. -/
theorem Rooted.env?_eq_some {globals : Globals} (h : f.Rooted globals) (hi : i < f.scopes.size) :
    ∃ scope, f.env? i = some { globals, scope } := by
  obtain ⟨⟨p, scope⟩, hscope⟩ : ∃ own, f.scopes[i]? = some own :=
    ⟨f.scopes[i], Array.getElem?_eq_getElem hi⟩
  obtain rfl := h.program_eq hscope
  refine ⟨scope, ?_⟩
  rw [env?, hscope, h.programs_eq]
  rfl

end Forest

/-! ## Storage for globals -/

namespace Binding

/-- The bytes of linear memory that hold a global. -/
def range (b : Binding) : Set Int :=
  Set.Ico b.addr (b.addr + wordSize)

theorem range_subset_iff {b : Binding} {n : Nat} :
    b.range ⊆ Set.Ico 0 (n * pageSize : Int) ↔ (b.slot + 1) * wordSize ≤ n * pageSize := by
  have hrange : b.addr < b.addr + wordSize := by
    unfold wordSize
    omega
  rw [range, Set.Ico_subset_Ico_iff hrange]
  simp only [addr, slotAddress, wordSize, pageSize]
  omega

theorem disjoint_range {b c : Binding} (h : b.slot < c.slot) : Disjoint b.range c.range := by
  rw [range, range, Set.Ico_disjoint_Ico]
  simp only [addr, slotAddress, wordSize]
  omega

end Binding

namespace Env

/-- Do all globals fit into so many pages of linear memory? -/
def FitsIn (pages : Nat) (e : Env) : Prop :=
  ∀ b ∈ e.globals.bindings, b.range ⊆ Set.Ico 0 (pages * pageSize : Int)

/-- The globals that were declared have their slots in order, names of their
own and bytes of their own, in just as many pages as they need. -/
structure Allocated (declared : List Binding) (e : Env) : Prop where
  listed : e.globals.bindings.toList = declared
  slots_eq : e.slots = declared.length
  slot_eq : ∀ {i : Nat} {b : Binding}, declared[i]? = some b → b.storage = .global ∧ b.slot = i
  names_nodup : (declared.map (·.name)).Nodup
  disjoint : declared.Pairwise fun b c => Disjoint b.range c.range
  pages_least : IsLeast { n | 1 ≤ n ∧ e.FitsIn n } e.pages

theorem pages_le_iff {e : Env} {n : Nat} :
    e.pages ≤ n ↔ 1 ≤ n ∧ e.slots * wordSize ≤ n * pageSize := by
  unfold pages wordSize pageSize
  omega

/-- Globals fit when their slots do. -/
theorem TopLevel.fitsIn_iff {e : Env} (h : e.TopLevel) {n : Nat} :
    e.FitsIn n ↔ e.slots * wordSize ≤ n * pageSize := by
  constructor
  · intro hfits
    rcases Nat.eq_zero_or_pos e.slots with hzero | hpos
    · simp [hzero]
    · -- the last slot is the one that has to fit
      have hlast : e.slots - 1 < e.globals.bindings.size := h.counted ▸ Nat.sub_one_lt_of_lt hpos
      have hslot := (h.stored (Array.getElem?_eq_getElem hlast)).2
      have hrange := Binding.range_subset_iff.mp (hfits _ (Array.getElem_mem hlast))
      rwa [hslot, Nat.sub_add_cancel hpos] at hrange
  · intro hslots b hb
    obtain ⟨i, hi, rfl⟩ := Array.mem_iff_getElem.mp hb
    have hslot := (h.stored (Array.getElem?_eq_getElem hi)).2
    rw [Binding.range_subset_iff, hslot]
    rw [h.counted] at hslots
    exact (Nat.mul_le_mul_right _ hi).trans hslots

theorem TopLevel.slots_increase {e : Env} (h : e.TopLevel) :
    e.globals.bindings.toList.Pairwise fun b c => b.slot < c.slot := by
  rw [List.pairwise_iff_getElem]
  intro i j hi hj hij
  have hb := (h.stored (Array.getElem?_eq_getElem hi)).2
  have hc := (h.stored (Array.getElem?_eq_getElem hj)).2
  rwa [Array.getElem_toList, Array.getElem_toList, hb, hc]

/-- The top level sees every global. -/
theorem TopLevel.lookup?_of_mem {e : Env} {b : Binding} (h : e.TopLevel)
    (hb : b ∈ e.globals.bindings.toList) : e.lookup? b.name = some b := by
  obtain ⟨i, hi⟩ := List.mem_iff_getElem?.mp hb
  rw [Array.getElem?_toList] at hi
  rw [h.seen, (h.stored hi).2]
  exact ⟨rfl, hi⟩

theorem TopLevel.allocated {e : Env} (h : e.TopLevel) :
    e.Allocated e.globals.bindings.toList where
  listed := rfl
  slots_eq := by rw [h.counted, Array.length_toList]
  slot_eq := by
    intro i b hb
    rw [Array.getElem?_toList] at hb
    exact h.stored hb
  names_nodup := by
    rw [List.Nodup, List.pairwise_map]
    refine h.slots_increase.imp_of_mem fun hb hc hlt hname => ?_
    -- one name has one binding, which has one slot
    have heq := (h.lookup?_of_mem hb).symm.trans (hname ▸ h.lookup?_of_mem hc)
    rw [Option.some.inj heq] at hlt
    exact lt_irrefl _ hlt
  disjoint := h.slots_increase.imp Binding.disjoint_range
  pages_least := by
    constructor
    · exact (pages_le_iff.mp le_rfl).imp_right h.fitsIn_iff.mpr
    · intro n hn
      exact pages_le_iff.mpr (hn.imp_right h.fitsIn_iff.mp)

/-- Storage is a matter of the globals. -/
theorem Allocated.congr {declared : List Binding} {e e' : Env} (h : e.Allocated declared)
    (heq : e'.globals = e.globals) : e'.Allocated declared := by
  obtain ⟨globals, scope⟩ := e
  obtain ⟨globals', scope'⟩ := e'
  cases heq
  exact ⟨h.listed, h.slots_eq, h.slot_eq, h.names_nodup, h.disjoint, h.pages_least⟩

end Env

namespace Forest

/-- **Globals are allocated soundly**: whatever happened to the scopes of a
program, the globals that were declared have storage of their own, as seen from
every scope, and what fails leaves no trace. -/
theorem globals_allocated {history : List ScopeEvent} {f : Forest} (h : Grown history f) :
    (∀ i < f.scopes.size, ∃ e, f.env? i = some e ∧
      e.Allocated (history.filterMap ScopeEvent.global?)) ∧
    ∀ i a f' err, f.perform i a = some (f', .error err) → f' = f := by
  obtain ⟨globals, hrooted, hglobals⟩ := h.rooted
  obtain ⟨top, _, htop⟩ := hrooted.top
  rw [← hglobals]
  refine ⟨fun i hi => ?_, fun i a f' err => eq_of_perform_error⟩
  obtain ⟨scope, hscope⟩ := hrooted.env?_eq_some hi
  exact ⟨_, hscope, htop.allocated.congr rfl⟩

/-- A function scope that wants a global and gets a local of that name. -/
theorem shadowedGlobal_allocated :
    ∃ f, Grown
      [.performed 0 (.declareGlobal "x" .int) (.ok (some ⟨"x", .int, .global, 0⟩)),
        .opened 0 "f",
        .performed 1 (.declareGlobal "y" .int) (.error (.globalInFunction "y" "f")),
        .performed 1 (.declareLocal "x" .bool) (.ok (some ⟨"x", .bool, .frame, 0⟩)),
        .performed 0 (.declareGlobal "y" .bool) (.ok (some ⟨"y", .bool, .global, 1⟩))] f ∧
      f.scopes.size = 2 ∧
      ((∀ i < f.scopes.size, ∃ e, f.env? i = some e ∧
          e.Allocated [⟨"x", .int, .global, 0⟩, ⟨"y", .bool, .global, 1⟩]) ∧
        ∀ i a f' err, f.perform i a = some (f', .error err) → f' = f) := by
  have h := Grown.single
    |>.perform (i := 0) (a := .declareGlobal "x" .int) rfl
    |>.nest (i := 0) (show "f" ≠ "" by decide) rfl
    |>.perform (i := 1) (a := .declareGlobal "y" .int) rfl
    |>.perform (i := 1) (a := .declareLocal "x" .bool) rfl
    |>.perform (i := 0) (a := .declareGlobal "y" .bool) rfl
  exact ⟨_, h, rfl, globals_allocated h⟩

end Forest

end Taglet
