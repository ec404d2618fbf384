import Taglet.Tagged

/-!
# Taglet.Machine.Memory

Linear memory: a fixed number of bytes, read and written eight at a time as
little-endian words.  Only the bytes up to the last one written are kept, so
a large memory costs nothing until it is used.

An access at an address is allowed when the eight bytes from there on lie in
the memory.  The end of the access is computed as a word: an address so large
that its end wraps around is told apart from one that is merely outside.
-/

namespace Taglet.Machine

/-- A memory of a number of bytes, which are zeros at first. -/
structure Memory where
  /-- The number of bytes. -/
  size : Nat
  /-- The bytes as far as they were written; zeros follow. -/
  written : Array UInt8 := #[]
deriving Repr, DecidableEq

/-- What an access came to. -/
inductive Access (α : Type) where
  | done (a : α)
  /-- The range does not lie in the memory. -/
  | outOfBounds
  /-- The end of the range is not a word. -/
  | wraps
deriving Repr, DecidableEq

/-- Go on from an access that is allowed. -/
def Access.map {α β : Type} (f : α → β) : Access α → Access β
  | done a => done (f a)
  | outOfBounds => outOfBounds
  | wraps => wraps

/-- The value of `n` bytes from a place on, lowest first. -/
def readBytes (a : Array UInt8) : (n : Nat) → (i : Nat) → UInt64
  | 0, _ => 0
  | n + 1, i => (a.getD i 0).toUInt64 + 256 * readBytes a n (i + 1)

/-- Put a byte at a place, with zeros before it as far as there is nothing. -/
def putByte (a : Array UInt8) (i : Nat) (b : UInt8) : Array UInt8 :=
  if i < a.size then a.setIfInBounds i b
  else (a ++ Array.replicate (i - a.size) 0).push b

/-- Put the low `n` bytes of a value at a place and on, lowest first. -/
def writeBytes : (n : Nat) → (i : Nat) → (w : UInt64) → Array UInt8 → Array UInt8
  | 0, _, _, a => a
  | n + 1, i, w, a => writeBytes n (i + 1) (w / 256) (putByte a i w.toUInt8)

/-- The byte that was put at a place stands there. -/
theorem getD_putByte_self (a : Array UInt8) (i : Nat) (b : UInt8) :
    (putByte a i b).getD i 0 = b := by
  unfold putByte
  simp only [Array.getD_eq_getD_getElem?]
  split
  · next h => simp [h]
  · next h =>
    have hs : (a ++ Array.replicate (i - a.size) 0).size = i := by simp; omega
    rw [Array.getElem?_push, if_pos hs.symm]
    rfl

/-- Bytes at other places stay as they were. -/
theorem getD_putByte_of_ne {i j : Nat} (a : Array UInt8) (b : UInt8) (h : j ≠ i) :
    (putByte a i b).getD j 0 = a.getD j 0 := by
  unfold putByte
  simp only [Array.getD_eq_getD_getElem?]
  split
  · rw [Array.getElem?_setIfInBounds_ne (by omega)]
  · next hi =>
    have hs : (a ++ Array.replicate (i - a.size) 0).size = i := by simp; omega
    rw [Array.getElem?_push, if_neg (by omega), Array.getElem?_append]
    split
    · rfl
    · next hj =>
      rw [Array.getElem?_eq_none (by omega : a.size ≤ j), Array.getElem?_replicate]
      split <;> rfl

/-- Bytes at other places stay as they were. -/
theorem getD_writeBytes_of_ne (n i j : Nat) (w : UInt64) (a : Array UInt8)
    (h : j < i ∨ i + n ≤ j) : (writeBytes n i w a).getD j 0 = a.getD j 0 := by
  induction n generalizing i w a with
  | zero => rfl
  | succ n ih =>
    rw [writeBytes, ih _ _ _ (by omega), getD_putByte_of_ne _ _ (by omega)]

namespace Memory

/-- A memory of zeros. -/
def zeros (size : Nat) : Memory :=
  { size }

/-- The byte at a place. -/
def byte (m : Memory) (i : Nat) : UInt8 :=
  m.written.getD i 0

/-- At most `count` bytes from `start` on, as far as the memory reaches. -/
def slice (m : Memory) (start count : Nat) : Bytes :=
  (List.range' start (min count (m.size - start))).map m.byte

/-- Replace one byte; a place outside the memory is left alone. -/
def poke (m : Memory) (i : Nat) (b : UInt8) : Memory :=
  if i < m.size then { m with written := putByte m.written i b } else m

/-- Where an access at an address begins, if it is allowed. -/
def locate (size : Nat) (addr : Word) : Access Nat :=
  if addr < 0 then .outOfBounds
  else if addr + 8 < 0 then .wraps
  else if (addr + 8).toInt > size then .outOfBounds
  else .done addr.toInt.toNat

/-- The word of the eight bytes from a place on. -/
def word (m : Memory) (i : Nat) : Word :=
  (readBytes m.written 8 i).toInt64

/-- Put a word in the eight bytes from a place on. -/
def setWord (m : Memory) (i : Nat) (w : Word) : Memory :=
  { m with written := writeBytes 8 i w.toUInt64 m.written }

@[simp]
theorem size_setWord (m : Memory) (i : Nat) (w : Word) : (m.setWord i w).size = m.size := by
  simp only [setWord]

/-- The word at an address. -/
def load (m : Memory) (addr : Word) : Access Word :=
  (locate m.size addr).map m.word

end Memory

end Taglet.Machine
