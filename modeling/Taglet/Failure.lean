import Taglet.Bytes

/-!
# Taglet.Failure

A failure is a cause together with the places it was met in.  Each stage of
the compiler has its own causes and its own places; what they share is how
places are collected on the way out (`inside`) and how the whole is worded
(`Failure.message`): the places from the outermost inwards, then the cause.
-/

namespace Taglet

/-- A cause of failure and the places it was met in, outermost first. -/
structure Failure (π ε : Type) where
  places : List π
  cause : ε
deriving Repr, BEq, DecidableEq

namespace Failure

variable {π ε α : Type}

/-- A bare cause, met nowhere in particular yet. -/
def ofCause (e : ε) : Failure π ε :=
  ⟨[], e⟩

/-- The wording of a failure: its places as labels around its cause. -/
def message (place : π → Bytes) (cause : ε → Bytes) (f : Failure π ε) : Bytes :=
  f.places.foldr (fun p text => labelled (place p) text) (cause f.cause)

end Failure

/-- Run a step in the place `p`: a failure of the step is met there. -/
def inside {π ε α : Type} (p : π) : Except (Failure π ε) α → Except (Failure π ε) α
  | .ok a => .ok a
  | .error f => .error { f with places := p :: f.places }

/-- Fail with a bare cause. -/
def fail {π ε α : Type} (e : ε) : Except (Failure π ε) α :=
  .error (Failure.ofCause e)

@[simp]
theorem inside_ok {π ε α : Type} (p : π) (a : α) :
    inside p (.ok a : Except (Failure π ε) α) = .ok a := rfl

/-- A place changes neither whether a step succeeds nor what it gives. -/
theorem inside_eq_ok_iff {π ε α : Type} (p : π) (x : Except (Failure π ε) α) (a : α) :
    inside p x = .ok a ↔ x = .ok a := by
  cases x <;> simp [inside]

end Taglet
