import Mathlib.Data.Set.Function
import Mathlib.Order.Bounds.Defs
import Taglet.Proofs.Checking
import Taglet.Proofs.HostArithmetic

/-!
# Taglet.Proofs.WordCodec

Integers as words and back, over all 64 bits.

The tag takes the place of the top bit, so an integer and the one in range that
it is congruent to modulo `2 ^ 63` have the same word, and the one in range is
read off it.  In range the words are in the order of the integers.  The first
integer on either side of the range already breaks this order, so no larger
interval around zero keeps it (`Ordered`).
-/

namespace Taglet.Tagged

/-! ## Reading integers off words -/

theorem encode_eq_ofInt (n : Int64) : encode n = ofInt n.toInt := by
  rw [ofInt, Int64.ofInt_toInt]

theorem toInt_decode_ofInt {a : Int} (h : Fits a) : (decode (ofInt a)).toInt = a := by
  have hdecode : decode (ofInt a) = Int64.ofInt a := Value.decode_word h
  rw [hdecode]
  exact Value.toInt_ofInt h

/-- What is read off the word of an integer is what the integer reduces to. -/
theorem reduces_decode_encode (n : Int64) : Reduces n.toInt (decode (encode n)).toInt := by
  have hreduces := reduces_wrap n.toInt
  have hword : encode n = ofInt (wrap n.toInt) := by
    rw [encode_eq_ofInt, hreduces.ofInt_eq]
  rwa [hword, toInt_decode_ofInt hreduces.fits]

theorem reduces_iff_eq_decode {n : Int64} {k : Int} :
    Reduces n.toInt k ↔ k = (decode (encode n)).toInt := by
  constructor
  · intro h
    exact h.unique (reduces_decode_encode n)
  · rintro rfl
    exact reduces_decode_encode n

theorem decode_encode_iff {n : Int64} : decode (encode n) = n ↔ inRange n = true := by
  rw [inRange_iff]
  constructor
  · intro h
    have hfits : Fits (decode (encode n)).toInt := (reduces_decode_encode n).fits
    rw [h] at hfits
    exact hfits
  · intro h
    have hself : Reduces n.toInt n.toInt := ⟨h, rfl⟩
    exact Int64.toInt_inj.mp (reduces_iff_eq_decode.mp hself).symm

/-! ## The order of words -/

theorem encode_lt_encode {n m : Int64} (hn : inRange n = true) (hm : inRange m = true) :
    encode n < encode m ↔ n < m := by
  rw [encode_eq_ofInt, encode_eq_ofInt, Int64.lt_iff_toInt_lt (x := n)]
  exact Value.word_lt_word (inRange_iff.mp hn) (inRange_iff.mp hm)

/-- On an interval around zero, integers have different words, and these are in
the order of the integers. -/
structure Ordered (I : Set Int64) : Prop where
  zero_mem : 0 ∈ I
  interval : ∀ a ∈ I, ∀ c ∈ I, ∀ b, a ≤ b → b ≤ c → b ∈ I
  injective : Set.InjOn encode I
  strictMono : ∀ a ∈ I, ∀ b ∈ I, a < b → encode a < encode b

theorem ordered_inRange : Ordered {n | inRange n = true} where
  zero_mem := by decide
  interval := by
    intro a ha c hc b hab hbc
    obtain ⟨hlow, -⟩ := inRange_iff.mp ha
    obtain ⟨-, hhigh⟩ := inRange_iff.mp hc
    rw [Int64.le_iff_toInt_le] at hab hbc
    exact inRange_iff.mpr ⟨hlow.trans hab, hbc.trans hhigh⟩
  injective := by
    intro a ha b hb heq
    rw [← decode_encode_iff.mpr ha, heq, decode_encode_iff.mpr hb]
  strictMono := by
    intro a ha b hb hlt
    exact (encode_lt_encode ha hb).mpr hlt

/-- The word of the first integer above the range is below that of zero, and
the word of the first one below the range is above it. -/
theorem encode_outside :
    ¬encode 0 < encode (maxInt + 1) ∧ ¬encode (minInt - 1) < encode 0 := by
  decide

/-- An interval that leaves the range has the first integer outside. -/
theorem Ordered.inRange {I : Set Int64} (h : Ordered I) {n : Int64} (hn : n ∈ I) :
    inRange n = true := by
  obtain ⟨habove, hbelow⟩ := encode_outside
  rw [inRange_iff]
  by_contra hout
  rw [not_and_or, not_le, not_le] at hout
  rcases hout with hlow | hhigh
  · have hmem : minInt - 1 ∈ I := by
      refine h.interval n hn 0 h.zero_mem _ ?_ (by decide)
      have hfirst : (minInt - 1).toInt = -2 ^ 62 - 1 := by decide
      rw [Int64.le_iff_toInt_le]
      omega
    exact hbelow (h.strictMono _ hmem 0 h.zero_mem (by decide))
  · have hmem : maxInt + 1 ∈ I := by
      refine h.interval 0 h.zero_mem n hn _ (by decide) ?_
      have hfirst : (maxInt + 1).toInt = 2 ^ 62 := by decide
      rw [Int64.le_iff_toInt_le]
      omega
    exact habove (h.strictMono 0 h.zero_mem _ hmem (by decide))

/-- **The word codec**: words of integers are odd, and what is read off the word
of an integer is the one integer in range that it is congruent to, hence the
integer itself just if that is in range.  Every odd word is the word of the
integer read off it.  The range is the largest interval around zero on which
the words are different and in the order of the integers. -/
theorem codec_exact :
    (∀ n, Odd (encode n).toInt) ∧
    (∀ n k, Reduces n.toInt k ↔ k = (decode (encode n)).toInt) ∧
    (∀ n, decode (encode n) = n ↔ inRange n = true) ∧
    (∀ w : Word, Odd w.toInt → encode (decode w) = w) ∧
    (∀ n m, inRange n = true → inRange m = true → (n < m ↔ encode n < encode m)) ∧
    IsGreatest {I | Ordered I} {n | inRange n = true} := by
  refine ⟨Host.odd_encode, fun _ _ => reduces_iff_eq_decode, fun _ => decode_encode_iff, ?_, ?_,
    ordered_inRange, ?_⟩
  · intro w hw
    exact encode_decode ((Host.isInt_iff_odd w).mpr hw)
  · intro n m hn hm
    exact (encode_lt_encode hn hm).symm
  · intro I hI n hn
    exact hI.inRange hn

/-- The first integer above the range is taken for the least one in it.  The
ends of the range are told apart and in order. -/
theorem codec_exact_ends :
    Reduces (maxInt + 1).toInt minInt.toInt ∧ (decode (encode (maxInt + 1))).toInt = minInt.toInt ∧
      inRange minInt = true ∧ inRange maxInt = true ∧ encode minInt < encode maxInt := by
  obtain ⟨-, hreduces, -, -, hlt, -⟩ := codec_exact
  have hleast : Reduces (maxInt + 1).toInt minInt.toInt := ⟨⟨by decide, by decide⟩, by decide⟩
  exact ⟨hleast, ((hreduces _ _).mp hleast).symm, by decide, by decide,
    (hlt minInt maxInt (by decide) (by decide)).mp (by decide)⟩

end Taglet.Tagged
