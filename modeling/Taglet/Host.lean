import Taglet.Machine.Config

/-!
# Taglet.Host

The procedures that compiled programs import: `print`, `abs`, `max`, `min` and
`pow`.  Arguments and results are tagged words.

A host keeps the words that were printed and the text written for them.  Its
writer decides which texts are taken; there may be none to write to.
-/

namespace Taglet

/-- Where printed text goes. -/
inductive Writer where
  /-- There is nothing to write to. -/
  | absent
  /-- The next texts are taken or refused as `answers` says, and all after
  them as `later` says. -/
  | answering (answers : List Bool) (later : Bool)
deriving Repr, DecidableEq

namespace Writer

/-- A writer that takes every text. -/
def accepting : Writer :=
  .answering [] true

/-- A writer that takes so many texts and refuses the rest. -/
def withRoom (texts : Nat) : Writer :=
  .answering (List.replicate texts true) false

/-- Offer a text: is it taken, and the writer after it.  Where there is no
writer, nothing is taken or refused. -/
def offer : Writer → Option Bool × Writer
  | absent => (none, absent)
  | answering [] later => (some later, answering [] later)
  | answering (a :: answers) later => (some a, answering answers later)

end Writer

/-- The words printed so far and the text written for them. -/
structure Host where
  writer : Writer := Writer.accepting
  printed : Array Word := #[]
  written : Array UInt8 := #[]
deriving Repr, DecidableEq

/-- Why a procedure fails. -/
inductive HostError where
  | arity (expected given : Nat)
  | notInt (w : Word)
  | zeroToNegative
  /-- The writer took no more. -/
  | write
deriving Repr, DecidableEq

/-- The wording of a procedure's failure. -/
def HostError.message : HostError → Bytes
  | arity expected given =>
    utf8 "expected " ++ Decimal.ofNat expected
      ++ utf8 (if expected = 1 then " argument, got " else " arguments, got ")
      ++ Decimal.ofNat given
  | notInt w => utf8 "not an int: " ++ Tagged.text w
  | zeroToNegative => utf8 "pow: zero to negative power"
  | write => utf8 "write: disk full"

namespace Host

/-! ## Printing -/

/-- The text written for a word. -/
def line (w : Word) : Bytes :=
  Tagged.text w ++ [0x0a]

/-- Print a word: it is recorded, whether or not its text is taken. -/
def print (w : Word) : Host → Except HostError Word × Host
  | ⟨writer, printed, written⟩ =>
    match writer.offer with
    | (none, writer) => (.ok w, ⟨writer, printed.push w, written⟩)
    | (some true, writer) => (.ok w, ⟨writer, printed.push w, written ++ line w⟩)
    | (some false, writer) => (.error .write, ⟨writer, printed.push w, written⟩)

/-! ## Arithmetic -/

/-- The integer of a word that has to be one. -/
def integer (w : Word) : Except HostError Int64 :=
  if Tagged.isInt w then .ok (Tagged.decode w) else .error (.notInt w)

/-- The magnitude of an integer. -/
def abs (x : Word) : Except HostError Word := do
  let n ← integer x
  return Tagged.encode (if n < 0 then -n else n)

/-- The greater of two integers, found by comparing their words. -/
def max (x y : Word) : Except HostError Word := do
  let _ ← integer x
  let _ ← integer y
  return if x < y then y else x

/-- The lesser of two integers, found by comparing their words. -/
def min (x y : Word) : Except HostError Word := do
  let _ ← integer x
  let _ ← integer y
  return if y < x then y else x

/-- The product of `acc` and a power, by repeated squaring. -/
def powAcc (base acc : Int64) (exp : Nat) : Int64 :=
  if exp = 0 then acc
  else powAcc (base * base) (if exp % 2 = 1 then acc * base else acc) (exp / 2)
termination_by exp

/-- A power.  A negative exponent asks for one divided by a power, truncated
toward zero. -/
def pow (x y : Word) : Except HostError Word := do
  let base ← integer x
  let exp ← integer y
  if exp < 0 then
    if base = 0 then .error .zeroToNegative
    else if base = 1 then return Tagged.encode 1
    else if base = -1 then return Tagged.encode (if exp % 2 = 0 then 1 else -1)
    else return Tagged.encode 0
  else return Tagged.encode (powAcc base 1 exp.toInt.toNat)

/-! ## Procedures -/

/-- The procedure of a function of one word that may change the host. -/
def procedure1 (f : Word → Host → Except HostError Word × Host) :
    Machine.Procedure Host HostError
  | [x], h =>
    match f x h with
    | (result, h) => { result, world := h }
  | args, h => { result := .error (.arity 1 args.length), world := h }

/-- The procedure of a function of two words. -/
def procedure2 (f : Word → Word → Except HostError Word) : Machine.Procedure Host HostError
  | [x, y], h => { result := f x y, world := h }
  | args, h => { result := .error (.arity 2 args.length), world := h }

/-- The procedures by the name they are imported under. -/
def procedure? (name : Bytes) : Option (Machine.Procedure Host HostError) :=
  if name = utf8 "print" then some (procedure1 print)
  else if name = utf8 "abs" then some (procedure1 fun x h => (abs x, h))
  else if name = utf8 "max" then some (procedure2 max)
  else if name = utf8 "min" then some (procedure2 min)
  else if name = utf8 "pow" then some (procedure2 pow)
  else none

/-- The word that stands beside a failure: what was to be printed if it could
not be written, and otherwise zero. -/
def besideError (args : List Word) : HostError → Word
  | .write => args.headD 0
  | _ => 0

end Host

end Taglet
