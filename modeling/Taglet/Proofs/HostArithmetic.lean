import Mathlib.Data.Int.ModEq
import Taglet.Proofs.Except
import Taglet.Proofs.Words

/-!
# Taglet.Proofs.HostArithmetic

What the procedures of the host compute, in exact integers.

An integer between `-2 ^ 62` and `2 ^ 62 - 1` has a word of its own
(`Tagged.Fits`).  Modulo `2 ^ 63` every integer is congruent to just one of
these (`Tagged.existsUnique_reduces`), and the two have the same word.  So
`abs` and `pow`, whose exact results may leave the range, give the word of what
their results reduce to, while `max` and `min` compare exactly
(`Host.Computes`).  Only odd words are integers: the procedures refuse the
others, and give odd words (`Host.Guards`).
-/

namespace Taglet

namespace Tagged

/-! ## Integers in range -/

/-- The integer has a word of its own. -/
def Fits (a : Int) : Prop :=
  -2 ^ 62 ≤ a ∧ a ≤ 2 ^ 62 - 1

/-- The word of an integer. -/
def ofInt (a : Int) : Word :=
  encode (Int64.ofInt a)

/-- The integer `n` is in range and congruent to `m` modulo `2 ^ 63`. -/
structure Reduces (m n : Int) : Prop where
  fits : Fits n
  congr : n ≡ m [ZMOD 2 ^ 63]

theorem reduces_wrap (m : Int) : Reduces m (wrap m) := by
  obtain ⟨⟨k, hk⟩, hfits⟩ := wrap_spec m
  have hcongr : wrap m ≡ m [ZMOD 2 ^ 63] := by
    rw [hk, Int.mul_comm]
    exact Int.modEq_add_fac_self
  exact ⟨hfits, hcongr⟩

/-- Two integers in range that are congruent differ by less than the modulus. -/
theorem Reduces.unique {m n n' : Int} (h : Reduces m n) (h' : Reduces m n') : n = n' := by
  obtain ⟨hlow, hhigh⟩ := h.fits
  obtain ⟨hlow', hhigh'⟩ := h'.fits
  have hcongr : n ≡ n' [ZMOD 2 ^ 63] := h.congr.trans h'.congr.symm
  rw [Int.ModEq] at hcongr
  omega

theorem existsUnique_reduces (m : Int) : ∃! n, Reduces m n :=
  ⟨wrap m, reduces_wrap m, fun _ h => h.unique (reduces_wrap m)⟩

/-- An integer and what it reduces to have the same word. -/
theorem Reduces.ofInt_eq {m n : Int} (h : Reduces m n) : ofInt n = ofInt m := by
  have hwrap : n = wrap m := h.unique (reduces_wrap m)
  have hword : (Value.int (wrap m)).word = (Value.int m).word := Value.word_wrap m
  rw [hwrap]
  exact hword

theorem isInt_encode (n : Int64) : isInt (encode n) = true := by
  have hword := Value.isInt_word n.toInt
  rwa [Value.word, Int64.ofInt_toInt] at hword

end Tagged

namespace Host

open Tagged (Fits Reduces)

/-! ## Exact results -/

/-- What the procedures make of the words of two integers. -/
structure Computes (a b : Int) : Prop where
  abs_eq : ∀ n, Reduces |a| n → abs (Tagged.ofInt a) = .ok (Tagged.ofInt n)
  max_eq : max (Tagged.ofInt a) (Tagged.ofInt b) = .ok (Tagged.ofInt (Max.max a b))
  min_eq : min (Tagged.ofInt a) (Tagged.ofInt b) = .ok (Tagged.ofInt (Min.min a b))
  pow_of_nonneg : 0 ≤ b → ∀ n, Reduces (a ^ b.toNat) n →
    pow (Tagged.ofInt a) (Tagged.ofInt b) = .ok (Tagged.ofInt n)
  /-- One divided by a power, truncated toward zero. -/
  pow_of_neg : b < 0 → a ≠ 0 →
    pow (Tagged.ofInt a) (Tagged.ofInt b) = .ok (Tagged.ofInt (Int.tdiv 1 (a ^ (-b).toNat)))
  pow_fails_iff : (∃ e, pow (Tagged.ofInt a) (Tagged.ofInt b) = .error e) ↔ a = 0 ∧ b < 0

theorem computes_of_fits {a b : Int} (ha : Fits a) (hb : Fits b) : Computes a b where
  abs_eq n hn := by
    have habs : abs (Tagged.ofInt a) = .ok (Tagged.ofInt a.natAbs) := abs_word ha
    rw [habs, hn.ofInt_eq, Int.natCast_natAbs]
  max_eq := max_word ha hb
  min_eq := min_word ha hb
  pow_of_nonneg h n hn := by
    have hpow : pow (Tagged.ofInt a) (Tagged.ofInt b) = .ok (Tagged.ofInt (a ^ b.toNat)) :=
      pow_word_of_nonneg ha hb h
    rw [hpow, hn.ofInt_eq]
  pow_of_neg h h0 := by
    have hpow := pow_word_of_neg ha hb h
    rwa [if_neg h0] at hpow
  pow_fails_iff := by
    by_cases hneg : b < 0
    · have hpow : pow (Tagged.ofInt a) (Tagged.ofInt b) =
          if a = 0 then .error .zeroToNegative
          else .ok (Tagged.ofInt (Int.tdiv 1 (a ^ (-b).toNat))) := pow_word_of_neg ha hb hneg
      rw [hpow]
      by_cases h0 : a = 0 <;> simp [h0, hneg]
    · have hpow : pow (Tagged.ofInt a) (Tagged.ofInt b) = .ok (Tagged.ofInt (a ^ b.toNat)) :=
        pow_word_of_nonneg ha hb (by omega)
      rw [hpow]
      simp [hneg]

/-! ## Words that are not integers -/

/-- The procedures of two integers. -/
def procedures2 : List (Word → Word → Except HostError Word) :=
  [max, min, pow]

/-- An even word is refused in any position, and a result is an odd word. -/
structure Guards (x y : Word) : Prop where
  abs_refuses : ¬ Odd x.toInt → abs x = .error (.notInt x)
  refuses_left : ∀ f ∈ procedures2, ¬ Odd x.toInt → f x y = .error (.notInt x)
  refuses_right : ∀ f ∈ procedures2, Odd x.toInt → ¬ Odd y.toInt → f x y = .error (.notInt y)
  abs_odd : ∀ w, abs x = .ok w → Odd w.toInt
  odd : ∀ f ∈ procedures2, ∀ w, f x y = .ok w → Odd w.toInt

theorem isInt_iff_odd (w : Word) : Tagged.isInt w = true ↔ Odd w.toInt := by
  rw [Tagged.isInt_iff, Int.odd_iff]

theorem integer_of_odd {w : Word} (h : Odd w.toInt) : integer w = .ok (Tagged.decode w) := by
  rw [integer, if_pos ((isInt_iff_odd w).mpr h)]

theorem integer_of_not_odd {w : Word} (h : ¬ Odd w.toInt) : integer w = .error (.notInt w) := by
  rw [integer, if_neg (fun hint => h ((isInt_iff_odd w).mp hint))]

theorem odd_encode (n : Int64) : Odd (Tagged.encode n).toInt :=
  (isInt_iff_odd _).mp (Tagged.isInt_encode n)

/-- A procedure of two integers looks at its arguments from left to right
before anything else. -/
theorem exists_of_mem_procedures2 {f : Word → Word → Except HostError Word}
    (hf : f ∈ procedures2) (x y : Word) :
    ∃ g : Int64 → Int64 → Except HostError Word,
      f x y = (integer x >>= fun a => integer y >>= fun b => g a b) ∧
      ∀ a b w, Odd x.toInt → Odd y.toInt → g a b = .ok w → Odd w.toInt := by
  simp only [procedures2, List.mem_cons, List.not_mem_nil, or_false] at hf
  obtain rfl | rfl | rfl := hf
  · refine ⟨fun _ _ => .ok (if x < y then y else x), rfl, fun _ _ w hx hy hw => ?_⟩
    obtain rfl := Except.ok.inj hw
    split
    · exact hy
    · exact hx
  · refine ⟨fun _ _ => .ok (if y < x then y else x), rfl, fun _ _ w hx hy hw => ?_⟩
    obtain rfl := Except.ok.inj hw
    split
    · exact hy
    · exact hx
  · refine ⟨_, rfl, fun a b w _ _ hw => ?_⟩
    -- every result of a power is encoded
    have hencoded : ∃ n, Tagged.encode n = w := by
      split_ifs at hw <;> exact ⟨_, Except.ok.inj hw⟩
    obtain ⟨n, rfl⟩ := hencoded
    exact odd_encode n

theorem guards (x y : Word) : Guards x y where
  abs_refuses hx := by
    rw [abs, integer_of_not_odd hx]
    rfl
  refuses_left f hf hx := by
    obtain ⟨g, hfg, -⟩ := exists_of_mem_procedures2 hf x y
    rw [hfg, integer_of_not_odd hx]
    rfl
  refuses_right f hf hx hy := by
    obtain ⟨g, hfg, -⟩ := exists_of_mem_procedures2 hf x y
    rw [hfg, integer_of_odd hx, integer_of_not_odd hy]
    rfl
  abs_odd w hw := by
    obtain ⟨n, -, hn⟩ := bind_eq_ok_iff.mp hw
    obtain rfl := pure_eq_ok_iff.mp hn
    exact odd_encode _
  odd f hf w hw := by
    obtain ⟨g, hfg, hg⟩ := exists_of_mem_procedures2 hf x y
    rw [hfg] at hw
    by_cases hx : Odd x.toInt
    · by_cases hy : Odd y.toInt
      · rw [integer_of_odd hx, integer_of_odd hy] at hw
        exact hg _ _ w hx hy hw
      · rw [integer_of_odd hx, integer_of_not_odd hy] at hw
        cases hw
    · rw [integer_of_not_odd hx] at hw
      cases hw

/-- **Host arithmetic**: on the words of integers in range the procedures give
the words of the exact results, reduced into range where they leave it; a power
fails just for zero and a negative exponent.  Words that are no integers are
refused, and every result is the word of an integer. -/
theorem arithmetic_exact :
    (∀ m, ∃! n, Reduces m n) ∧
    (∀ a b, Fits a → Fits b → Computes a b) ∧
    ∀ x y, Guards x y :=
  ⟨Tagged.existsUnique_reduces, fun _ _ => computes_of_fits, guards⟩

/-- The least integer: its magnitude and its square leave the range. -/
theorem arithmetic_least :
    Fits (-2 ^ 62) ∧ Fits 2 ∧ Reduces |(-2 ^ 62 : Int)| (-2 ^ 62) ∧
      Reduces ((-2 ^ 62 : Int) ^ (2 : Int).toNat) 0 ∧
      abs (Tagged.ofInt (-2 ^ 62)) = .ok (Tagged.ofInt (-2 ^ 62)) ∧
      pow (Tagged.ofInt (-2 ^ 62)) (Tagged.ofInt 2) = .ok (Tagged.ofInt 0) := by
  have hleast : Fits (-2 ^ 62) := ⟨by decide, by decide⟩
  have htwo : Fits 2 := ⟨by decide, by decide⟩
  have habs : Reduces |(-2 ^ 62 : Int)| (-2 ^ 62) := ⟨hleast, by decide⟩
  have hsquare : Reduces ((-2 ^ 62 : Int) ^ (2 : Int).toNat) 0 :=
    ⟨⟨by decide, by decide⟩, by decide⟩
  have hcomputes := arithmetic_exact.2.1 (-2 ^ 62) 2 hleast htwo
  exact ⟨hleast, htwo, habs, hsquare, hcomputes.abs_eq _ habs,
    hcomputes.pow_of_nonneg (by decide) _ hsquare⟩

end Host

end Taglet
