import Taglet.Wire

/-!
# Taglet.SlotSet

Sets of slots (small natural numbers) as growable bitmaps: element `i` is bit
`i % 64` of word `i / 64`.

The empty bitmap has no words until it is first grown; a grown bitmap always
has at least one.  Elements are given as integers, because callers may ask
about negative ones: they are never members, and changing one is refused.
-/

namespace Taglet

/-- A set of natural numbers, 64 to a word. -/
structure SlotSet where
  words : List UInt64
deriving Repr, BEq, DecidableEq

namespace SlotSet

/-- The set that was never grown. -/
def empty : SlotSet := ⟨[]⟩

/-! ## Words and bits -/

/-- Bit `j` alone. -/
def bit (j : Nat) : UInt64 :=
  1 <<< j.toUInt64

/-- Is bit `j` of the word set? -/
def testBit (w : UInt64) (j : Nat) : Bool :=
  w &&& bit j != 0

/-- The word without bit `j`. -/
def clearBit (w : UInt64) (j : Nat) : UInt64 :=
  w &&& ~~~bit j

/-- The number of bits that are set. -/
def onesCount (w : UInt64) : Nat :=
  w.toBitVec.cpop.toNat

/-- The lowest bit that is set, or 64 if there is none. -/
def trailingZeros (w : UInt64) : Nat :=
  w.toBitVec.ctz.toNat

/-- The number of bits up to the highest one that is set. -/
def bitLength (w : UInt64) : Nat :=
  if w = 0 then 0 else w.toNat.log2 + 1

theorem toBitVec_bit {j : Nat} (h : j < 64) : (bit j).toBitVec = BitVec.twoPow 64 j := by
  unfold bit
  rw [UInt64.toBitVec_shiftLeft]
  simp [BitVec.shiftLeft_eq', Nat.mod_eq_of_lt h, BitVec.twoPow]

theorem toBitVec_ne_zero {w : UInt64} (h : w ≠ 0) : w.toBitVec ≠ 0#64 :=
  fun h0 => h (UInt64.toBitVec_inj.mp h0)

theorem trailingZeros_lt {w : UInt64} (h : w ≠ 0) : trailingZeros w < 64 := by
  have hlt := BitVec.ctz_lt_iff_ne_zero.mpr (toBitVec_ne_zero h)
  exact BitVec.lt_def.mp hlt

/-- Clearing a bit leaves the others as they are. -/
theorem getLsbD_clearBit (w : UInt64) {i j : Nat} (hi : i < 64) (hj : j < 64) :
    (clearBit w j).toBitVec.getLsbD i = (w.toBitVec.getLsbD i && decide (i ≠ j)) := by
  rw [clearBit, UInt64.toBitVec_and, UInt64.toBitVec_not, toBitVec_bit hj, BitVec.getLsbD_and,
    BitVec.getLsbD_not, BitVec.getLsbD_twoPow]
  simp [hi, hj, eq_comm]

/-- Clearing the lowest bit makes a word smaller. -/
theorem toNat_clearBit_lt {w : UInt64} (h : w ≠ 0) :
    (clearBit w (trailingZeros w)).toNat < w.toNat := by
  have hle : (clearBit w (trailingZeros w)).toNat ≤ w.toNat := by
    rw [clearBit, UInt64.toNat_and]
    exact Nat.and_le_left
  refine Nat.lt_of_le_of_ne hle fun heq => ?_
  have hlt := trailingZeros_lt h
  have hset : w.toBitVec.getLsbD (trailingZeros w) = true :=
    BitVec.getLsbD_true_ctz_of_ne_zero (toBitVec_ne_zero h)
  have hcleared := getLsbD_clearBit w hlt hlt
  rw [UInt64.toNat_inj.mp heq, hset] at hcleared
  simp at hcleared

/-- Pad with zero words until there is a word `w`. -/
def grow (w : Nat) (s : SlotSet) : SlotSet :=
  ⟨s.words ++ List.replicate (w + 1 - s.words.length) 0⟩

/-- A bitmap with room for the elements below `size`; there is always room
for the first word. -/
def withRoom (size : Int) : SlotSet :=
  empty.grow ((size - 1).tdiv 64).toNat

/-! ## Membership -/

/-- Is `i` a member?  Negative numbers never are. -/
def contains (i : Int) (s : SlotSet) : Bool :=
  match i with
  | .ofNat n => testBit (s.words.getD (n / 64) 0) (n % 64)
  | .negSucc _ => false

/-- Add an element. -/
def insert (i : Nat) (s : SlotSet) : SlotSet :=
  let grown := s.grow (i / 64)
  ⟨grown.words.modify (i / 64) (· ||| bit (i % 64))⟩

/-- Remove an element. -/
def erase (i : Nat) (s : SlotSet) : SlotSet :=
  ⟨s.words.modify (i / 64) (clearBit · (i % 64))⟩

/-- Add any integer.  A negative one is refused, but the bitmap is grown by
then. -/
def insertInt (i : Int) (s : SlotSet) : SlotSet × Bool :=
  match i with
  | .ofNat n => (s.insert n, true)
  | .negSucc _ => (s.grow 0, false)

/-- Remove any integer.  A negative one is refused, unless it would lie in
the first word and there is none yet. -/
def eraseInt (i : Int) (s : SlotSet) : SlotSet × Bool :=
  match i with
  | .ofNat n => (s.erase n, true)
  | .negSucc n => (s, n < 63 && s.words.isEmpty)

/-! ## The elements -/

/-- The number of elements in words. -/
def countOf : List UInt64 → Nat
  | [] => 0
  | w :: words => onesCount w + countOf words

/-- The number of elements. -/
def size (s : SlotSet) : Nat :=
  countOf s.words

/-- One past the largest element in the words from number `start` on, or `0`. -/
def boundFrom : (start : Nat) → List UInt64 → Nat
  | _, [] => 0
  | start, w :: words =>
    match boundFrom (start + 1) words with
    | 0 => if w = 0 then 0 else start * 64 + bitLength w
    | bound => bound

/-- One past the largest element, or `0` for the empty set. -/
def bound (s : SlotSet) : Nat :=
  boundFrom 0 s.words

/-- Visit the elements in a word, lowest first, carrying a state, until a visit
says stop: `base` is added to each bit.  Beside the state it is told whether to
go on. -/
def visitWord {σ : Type} (f : σ → Nat → σ × Bool) (base : Nat) (acc : σ) (w : UInt64) :
    σ × Bool :=
  if w = 0 then (acc, true)
  else
    match f acc (base + trailingZeros w) with
    | (acc, true) => visitWord f base acc (clearBit w (trailingZeros w))
    | (acc, false) => (acc, false)
termination_by w.toNat
decreasing_by exact toNat_clearBit_lt ‹¬w = 0›

/-- Visit the elements in the words from number `start` on. -/
def visitFrom {σ : Type} (f : σ → Nat → σ × Bool) :
    (start : Nat) → σ → List UInt64 → σ × Bool
  | _, acc, [] => (acc, true)
  | start, acc, w :: words =>
    match visitWord f (start * 64) acc w with
    | (acc, true) => visitFrom f (start + 1) acc words
    | (acc, false) => (acc, false)

/-- Fold over the elements in increasing order until `f` answers `false`. -/
def foldWhile {σ : Type} (f : σ → Nat → σ × Bool) (init : σ) (s : SlotSet) : σ :=
  (visitFrom f 0 init s.words).1

/-- The elements in increasing order. -/
def toList (s : SlotSet) : List Nat :=
  (s.foldWhile (fun seen i => (seen.push i, true)) #[]).toList

/-! ## The logged form -/

/-- The set as it is logged: absent until first grown, then the list of its
elements. -/
def wire (s : SlotSet) : Bytes :=
  if s.words.isEmpty then Wire.absent else Wire.list (s.toList.map Wire.nat)

end SlotSet

end Taglet
