import Mathlib.Algebra.Group.Int.Defs
import Mathlib.Algebra.Group.Nat.Defs
import Taglet.Proofs.Except
import Taglet.Text.Decimal
import Taglet.Text.Numeral

/-!
# Taglet.Proofs.Numerals

Reading a numeral undoes writing it: the decimal text of an integer of 64
bits is read back as that integer, as a plain numeral and as a literal.  A
literal could take a leading zero for a base, but the text of no integer
other than zero has one.
-/

namespace Taglet

namespace Decimal

/-- The byte of a decimal digit. -/
def digitByte (d : Nat) : UInt8 :=
  (48 + d).toUInt8

/-! ## Digits one by one -/

theorem ofNat_of_lt {n : Nat} (h : n < 10) : ofNat n = [digitByte n] := by
  rw [ofNat, Nat.toDigits_of_lt_base h]
  revert n
  decide

theorem ofNat_of_le {n : Nat} (h : 10 ≤ n) :
    ofNat n = ofNat (n / 10) ++ [digitByte (n % 10)] := by
  have hlast : n % 10 < 10 := Nat.mod_lt n (by omega)
  have hdigits := Nat.toDigits_append_toDigits (b := 10) (n := n / 10) (d := n % 10)
    (by omega) (by omega) hlast
  rw [Nat.div_add_mod] at hdigits
  rw [← ofNat_of_lt hlast, ofNat, ofNat, ofNat, ← List.map_append, hdigits]

/-- The digits of a number: it has one at least, they are decimal, and only
zero begins with a zero. -/
theorem ofNat_spec (n : Nat) :
    (∃ d < 10, ∃ rest, ofNat n = digitByte d :: rest ∧ (d = 0 → n = 0)) ∧
      ∀ b ∈ ofNat n, ∃ d < 10, b = digitByte d := by
  induction n using Nat.strongRecOn with
  | ind n ih =>
      by_cases h : n < 10
      · rw [ofNat_of_lt h]
        refine ⟨⟨n, h, [], rfl, id⟩, ?_⟩
        intro b hb
        exact ⟨n, h, List.mem_singleton.mp hb⟩
      · have hle : 10 ≤ n := by omega
        obtain ⟨⟨d, hd, rest, heq, hzero⟩, hall⟩ := ih (n / 10) (by omega)
        rw [ofNat_of_le hle]
        refine ⟨⟨d, hd, rest ++ [digitByte (n % 10)], by rw [heq]; rfl, ?_⟩, ?_⟩
        · intro hd
          have := hzero hd
          omega
        · intro b hb
          rcases List.mem_append.mp hb with hb | hb
          · exact hall b hb
          · exact ⟨n % 10, by omega, List.mem_singleton.mp hb⟩

theorem ofInt_ne_nil (z : Int) : ofInt z ≠ [] := by
  cases z with
  | ofNat n =>
      obtain ⟨⟨d, -, rest, heq, -⟩, -⟩ := ofNat_spec n
      rw [ofInt, heq]
      exact List.cons_ne_nil _ _
  | negSucc n => exact List.cons_ne_nil _ _

end Decimal

namespace Numeral

open Decimal (digitByte)

theorem digit?_digitByte {d : Nat} (h : d < 10) : digit? (digitByte d) = some d := by
  revert d
  decide

theorem isUnderscore_digitByte {d : Nat} (h : d < 10) : isUnderscore (digitByte d) = false := by
  revert d
  decide

theorem digitByte_ne_sign {d : Nat} (h : d < 10) :
    digitByte d ≠ '-'.toUInt8 ∧ digitByte d ≠ '+'.toUInt8 := by
  revert d
  decide

/-! ## Magnitudes -/

/-- Reading digits continues where it stopped. -/
theorem magnitude_append (base : Nat) (separators : Bool) (value : Nat) (xs ys : Bytes) :
    magnitude base separators value (xs ++ ys) =
      magnitude base separators value xs >>= fun v => magnitude base separators v ys := by
  induction xs generalizing value with
  | nil => rfl
  | cons b xs ih =>
      simp only [List.cons_append, magnitude]
      split
      · exact ih value
      · split
        · rfl
        · split
          · rfl
          · split
            · rfl
            · exact ih _

/-- One more digit. -/
theorem magnitude_digit {separators : Bool} {value d : Nat} (h : d < 10)
    (hv : value * 10 + d < 2 ^ 64) :
    magnitude 10 separators value [digitByte d] = .ok (value * 10 + d) := by
  have hbase : ¬10 ≤ d := by omega
  have hfits : ¬0x10000000000000000 ≤ value * 10 + d := by omega
  simp only [magnitude, isUnderscore_digitByte h, Bool.and_false, Bool.false_eq_true, ↓reduceIte,
    digit?_digitByte h, hbase, hfits]

/-- The digits of a number are worth the number. -/
theorem magnitude_ofNat (separators : Bool) {n : Nat} (h : n < 2 ^ 64) :
    magnitude 10 separators 0 (Decimal.ofNat n) = .ok n := by
  induction n using Nat.strongRecOn with
  | ind n ih =>
      by_cases hn : n < 10
      · rw [Decimal.ofNat_of_lt hn, magnitude_digit hn (by omega)]
        simp
      · rw [Decimal.ofNat_of_le (by omega), magnitude_append, ih (n / 10) (by omega) (by omega)]
        show magnitude 10 separators (n / 10) [digitByte (n % 10)] = .ok n
        rw [magnitude_digit (by omega) (by omega)]
        congr 1
        omega

/-! ## Numerals and literals -/

/-- A nonzero first digit announces no base. -/
theorem baseAndDigits_of_ne {d : Nat} (hlt : d < 10) (hd : d ≠ 0) (rest : Bytes) :
    baseAndDigits (digitByte d :: rest) = (10, digitByte d :: rest) := by
  have hne : digitByte d ≠ '0'.toUInt8 := by
    revert d
    decide
  unfold baseAndDigits
  simp only [hne, ↓reduceIte]

/-- The digits of a number are not taken for a literal in another base, unless
the number is zero. -/
theorem unsignedLiteral_ofNat {n : Nat} (h : n < 2 ^ 64) :
    unsignedLiteral (Decimal.ofNat n) = .ok n := by
  by_cases hn : n = 0
  · subst hn
    rfl
  · obtain ⟨⟨d, hlt, rest, heq, hzero⟩, hall⟩ := Decimal.ofNat_spec n
    have hbase := baseAndDigits_of_ne hlt (fun hd => hn (hzero hd)) rest
    have hplain : (Decimal.ofNat n).any isUnderscore = false := by
      rw [List.any_eq_false]
      intro b hb
      obtain ⟨c, hc, rfl⟩ := hall b hb
      rw [isUnderscore_digitByte hc]
      exact Bool.false_ne_true
    rw [← heq] at hbase
    have hsome : (Decimal.ofNat n).isEmpty = false := by rw [heq]; rfl
    rw [unsignedLiteral, hsome, hbase]
    simp only [Bool.false_eq_true, ↓reduceIte, magnitude_ofNat true h, hplain, Bool.false_and]

theorem unsigned_ofNat {n : Nat} (h : n < 2 ^ 64) : unsigned 10 (Decimal.ofNat n) = .ok n := by
  obtain ⟨⟨d, -, rest, heq, -⟩, -⟩ := Decimal.ofNat_spec n
  have hsome : (Decimal.ofNat n).isEmpty = false := by rw [heq]; rfl
  rw [unsigned, hsome]
  exact magnitude_ofNat false h

/-- The sign of a decimal text, and the digits after it. -/
theorem sign_ofInt (z : Int) :
    sign (Decimal.ofInt z) = (decide (z < 0), Decimal.ofNat z.natAbs) := by
  cases z with
  | ofNat n =>
      obtain ⟨⟨d, hlt, rest, heq, -⟩, -⟩ := Decimal.ofNat_spec n
      obtain ⟨hminus, hplus⟩ := digitByte_ne_sign hlt
      have hneg : decide (Int.ofNat n < 0) = false := by
        simp
      rw [hneg, Decimal.ofInt, Int.natAbs_ofNat', heq, sign, if_neg hminus, if_neg hplus]
  | negSucc n =>
      have hneg : decide (Int.negSucc n < 0) = true := by
        simp [Int.negSucc_lt_zero]
      rw [hneg]
      rfl

/-- The magnitude of a signed integer of 64 bits, with its sign. -/
theorem signed_natAbs {z : Int} (hlow : -2 ^ 63 ≤ z) (hhigh : z < 2 ^ 63) :
    signed (decide (z < 0)) z.natAbs = .ok (Int64.ofInt z) := by
  by_cases hz : z < 0
  · have hle : z.natAbs ≤ 0x8000000000000000 := by omega
    have habs : -(z.natAbs : Int) = z := by omega
    simp only [signed, hz, decide_true, ↓reduceIte, hle, habs]
  · have hlt : z.natAbs < 0x8000000000000000 := by omega
    have habs : (z.natAbs : Int) = z := by omega
    simp only [signed, hz, decide_false, Bool.false_eq_true, ↓reduceIte, hlt, habs]

/-- **Literals**: the decimal text of an integer of 64 bits is a literal for it. -/
theorem literal_ofInt {z : Int} (hlow : -2 ^ 63 ≤ z) (hhigh : z < 2 ^ 63) :
    literal (Decimal.ofInt z) = .ok (Int64.ofInt z) := by
  rw [literal, sign_ofInt]
  simp only [unsignedLiteral_ofNat (n := z.natAbs) (by omega)]
  exact signed_natAbs hlow hhigh

/-- **Numerals**: the decimal text of an integer of 64 bits is a numeral for it. -/
theorem decimal_ofInt {z : Int} (hlow : -2 ^ 63 ≤ z) (hhigh : z < 2 ^ 63) :
    decimal (Decimal.ofInt z) = .ok (Int64.ofInt z) := by
  rw [decimal, inBase, sign_ofInt]
  simp only [unsigned_ofNat (n := z.natAbs) (by omega)]
  exact signed_natAbs hlow hhigh

theorem literal_ofWord (w : Int64) : literal (Decimal.ofWord w) = .ok w := by
  rw [Decimal.ofWord, literal_ofInt (Int64.le_toInt w) (Int64.toInt_lt w), Int64.ofInt_toInt]

theorem decimal_ofWord (w : Int64) : decimal (Decimal.ofWord w) = .ok w := by
  rw [Decimal.ofWord, decimal_ofInt (Int64.le_toInt w) (Int64.toInt_lt w), Int64.ofInt_toInt]

end Numeral

end Taglet
