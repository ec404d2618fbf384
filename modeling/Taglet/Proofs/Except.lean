import Taglet.Failure

/-!
# Taglet.Proofs.Except

When steps that may fail succeed.  A sequence of steps succeeds when each of
them does; these lemmas take such a sequence apart.
-/

namespace Taglet

variable {π ε α β : Type}

/-- A sequence of two steps succeeds when both do. -/
@[simp]
theorem bind_eq_ok_iff {x : Except ε α} {f : α → Except ε β} {b : β} :
    (x >>= f) = .ok b ↔ ∃ a, x = .ok a ∧ f a = .ok b := by
  cases x with
  | error e => simp [bind, Except.bind]
  | ok a => simp [bind, Except.bind]

/-- A step whose result is changed succeeds when the step does. -/
@[simp]
theorem map_eq_ok_iff {x : Except ε α} {f : α → β} {b : β} :
    (f <$> x) = .ok b ↔ ∃ a, x = .ok a ∧ f a = b := by
  cases x with
  | error e => simp [Functor.map, Except.map]
  | ok a => simp [Functor.map, Except.map]

@[simp]
theorem pure_eq_ok_iff {a b : α} : (pure a : Except ε α) = .ok b ↔ a = b := by
  simp [pure, Except.pure]

@[simp]
theorem fail_ne_ok {e : ε} {a : α} : (fail e : Except (Failure π ε) α) ≠ .ok a := by
  simp [fail]

/-- A step that succeeds is followed by the next one. -/
@[simp]
theorem ok_bind {ε α β : Type} (a : α) (f : α → Except ε β) : Except.ok a >>= f = f a := rfl

/-- A step followed by one that succeeds whatever the result was. -/
theorem bind_ok (x : Except ε α) (f : α → β) : (x >>= fun a => .ok (f a)) = f <$> x := by
  cases x <;> rfl

@[simp]
theorem map_ok (f : α → β) (a : α) : f <$> (.ok a : Except ε α) = .ok (f a) := rfl

/-- Where a step stands makes no difference to what is made of its result. -/
@[simp]
theorem inside_map (place : π) (f : α → β) (x : Except (Failure π ε) α) :
    inside place (f <$> x) = f <$> inside place x := by
  cases x <;> rfl

/-! ## Steps that cannot fail -/

/-- A step gives a result. -/
def Succeeds (x : Except ε α) : Prop :=
  ∃ a, x = .ok a

namespace Succeeds

theorem pure (a : α) : Succeeds (Pure.pure a : Except ε α) :=
  ⟨a, rfl⟩

/-- A sequence of steps gives a result if each of them does. -/
theorem bind {x : Except ε α} {f : α → Except ε β} (hx : Succeeds x)
    (hf : ∀ a, Succeeds (f a)) : Succeeds (x >>= f) := by
  obtain ⟨a, rfl⟩ := hx
  exact hf a

/-- Where a step stands makes no difference to a result. -/
theorem inside {place : π} {x : Except (Failure π ε) α} (h : Succeeds x) :
    Succeeds (Taglet.inside place x) := by
  obtain ⟨a, rfl⟩ := h
  exact ⟨a, rfl⟩

end Succeeds

/-! ## Steps with the same result -/

/-- Two steps have the same result, or both fail. -/
def SameResult (x y : Except ε α) : Prop :=
  ∀ a, x = .ok a ↔ y = .ok a

namespace SameResult

variable {γ : Type} {x y x' y' : Except ε α}

theorem refl (x : Except ε α) : SameResult x x :=
  fun _ => Iff.rfl

/-- A step may be followed by steps that look at different forms of its
result. -/
theorem bind_of_map {φ : α → β} {z : Except ε β} {f : α → Except ε γ} {g : β → Except ε γ}
    (h : SameResult (φ <$> x) z) (hf : ∀ a, SameResult (f a) (g (φ a))) :
    SameResult (x >>= f) (z >>= g) := by
  intro c
  rw [bind_eq_ok_iff, bind_eq_ok_iff]
  constructor
  · rintro ⟨a, ha, hc⟩
    exact ⟨φ a, (h (φ a)).mp (map_eq_ok_iff.mpr ⟨a, ha, rfl⟩), (hf a c).mp hc⟩
  · rintro ⟨b, hb, hc⟩
    obtain ⟨a, ha, rfl⟩ := map_eq_ok_iff.mp ((h b).mpr hb)
    exact ⟨a, ha, (hf a c).mpr hc⟩

theorem bind {f g : α → Except ε β} (h : SameResult x y) (hf : ∀ a, SameResult (f a) (g a)) :
    SameResult (x >>= f) (y >>= g) := by
  refine bind_of_map (φ := id) ?_ hf
  rwa [id_map]

theorem ite {p : Prop} [Decidable p] (h : SameResult x y) (h' : SameResult x' y') :
    SameResult (if p then x else x') (if p then y else y') := by
  split
  · exact h
  · exact h'

theorem map_ite {φ : α → β} {p : Prop} [Decidable p] {z z' : Except ε β}
    (h : SameResult (φ <$> x) z) (h' : SameResult (φ <$> x') z') :
    SameResult (φ <$> if p then x else x') (if p then z else z') := by
  split
  · exact h
  · exact h'

theorem fail (e e' : ε) : SameResult (fail e : Except (Failure π ε) α) (Taglet.fail e') :=
  fun _ => ⟨fun h => absurd h fail_ne_ok, fun h => absurd h fail_ne_ok⟩

theorem inside {x y : Except (Failure π ε) α} (h : SameResult x y) (place place' : π) :
    SameResult (inside place x) (Taglet.inside place' y) := by
  intro a
  rw [inside_eq_ok_iff, inside_eq_ok_iff, h]

end SameResult

end Taglet
