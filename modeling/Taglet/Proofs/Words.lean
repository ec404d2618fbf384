import Mathlib.Algebra.Order.Ring.Abs
import Mathlib.Algebra.Ring.Parity
import Mathlib.Tactic.Ring
import Taglet.Host
import Taglet.Proofs.Evaluation
import Taglet.Proofs.Lowering
import Taglet.Typing.Check

/-!
# Taglet.Proofs.Words

Values as words, and what the operators of the machine make of the words.

A value has a word (`Value.word`), and a typed value can be read off it
(`Value.word_inj`).  The integer `n` and the one that `wrap` makes of it have
the same word, so that arithmetic on words, which is modulo `2 ^ 64`, agrees
with exact arithmetic that is taken into range afterwards.  Comparing words is
comparing values, since the word of an integer grows with it.
-/

namespace Taglet

open Wat Machine

/-! ## Integers in words -/

/-- The word of a value. -/
def Value.word : Value → Word
  | none => Tagged.none
  | bool b => Tagged.ofBool b
  | int n => Tagged.encode (Int64.ofInt n)

/-- Shifting in a tag doubles a bit vector and adds one. -/
theorem shiftLeft_or_one (x : BitVec 64) : x <<< 1 ||| 1#64 = x + x + 1#64 := by
  have hdisjoint : x <<< 1 &&& 1#64 = 0#64 := by
    ext i hi
    by_cases h0 : i = 0
    · subst h0; simp
    · simp [h0]
  have hdouble : x <<< 1 = x + x := by
    apply BitVec.eq_of_toNat_eq
    simp only [BitVec.toNat_shiftLeft, Nat.shiftLeft_eq, BitVec.toNat_add]
    omega
  rw [← BitVec.add_eq_or_of_and_eq_zero _ _ hdisjoint, hdouble]

/-- The word of an integer, as an integer. -/
theorem Tagged.encode_ofInt (n : Int) :
    Tagged.encode (Int64.ofInt n) = Int64.ofInt (2 * n + 1) := by
  have htag : ∀ x : Int64, x <<< 1 ||| 1 = x + x + 1 := by
    intro x
    apply Int64.toBitVec_inj.1
    simpa using shiftLeft_or_one x.toBitVec
  rw [Tagged.encode, htag, Int.two_mul, Int64.ofInt_add, Int64.ofInt_add]
  rfl

/-- The integer of a word is half of it. -/
theorem Tagged.toInt_decode (w : Word) : (Tagged.decode w).toInt = w.toInt / 2 := by
  rw [Tagged.decode, ← Int64.toInt_toBitVec]
  simp [Int.shiftRight_eq_div_pow]

/-- Words of equal integers modulo `2 ^ 64` are equal. -/
theorem ofInt_eq_ofInt {a b : Int} (h : ∃ k, a = b + k * 2 ^ 64) :
    Int64.ofInt a = Int64.ofInt b := by
  obtain ⟨k, rfl⟩ := h
  rw [Int64.ofInt_eq_iff_bmod_eq_toInt, Int64.toInt_ofInt]
  simp [Int.bmod]

/-- What `wrap` changes is a multiple of `2 ^ 63`. -/
theorem wrap_spec (n : Int) :
    (∃ k, wrap n = n + k * 2 ^ 63) ∧ -2 ^ 62 ≤ wrap n ∧ wrap n ≤ 2 ^ 62 - 1 := by
  refine ⟨⟨-n.bdiv (2 ^ 63), ?_⟩, ?_, ?_⟩
  · rw [wrap, Int.bmod_eq_self_sub_bdiv_mul]
    push_cast
    ring
  · have := @Int.le_bmod n (2 ^ 63) (by decide)
    unfold wrap
    omega
  · have := @Int.bmod_lt n (2 ^ 63) (by decide)
    unfold wrap
    omega

theorem Value.hasTy_wrap (n : Int) : (Value.int (wrap n)).HasTy .int :=
  (wrap_spec n).2

/-- Taking an integer into range does not change its word. -/
theorem Value.word_wrap (n : Int) : (Value.int (wrap n)).word = (Value.int n).word := by
  obtain ⟨⟨k, hk⟩, _⟩ := wrap_spec n
  rw [word, word, Tagged.encode_ofInt, Tagged.encode_ofInt]
  exact ofInt_eq_ofInt ⟨k, by rw [hk]; ring⟩

section Integers

variable {a b : Int} (ha : (Value.int a).HasTy .int) (hb : (Value.int b).HasTy .int)
include ha

/-- The word of an integer in range, as an integer. -/
theorem Value.toInt_word : (Value.int a).word.toInt = 2 * a + 1 := by
  obtain ⟨hlo, hhi⟩ := ha
  rw [word, Tagged.encode_ofInt]
  exact Int64.toInt_ofInt_of_le (by omega) (by omega)

theorem Value.toInt_ofInt : (Int64.ofInt a).toInt = a := by
  obtain ⟨hlo, hhi⟩ := ha
  exact Int64.toInt_ofInt_of_le (by omega) (by omega)

/-- The integer in the word of an integer. -/
theorem Value.decode_word : Tagged.decode (Value.int a).word = Int64.ofInt a := by
  apply Int64.toInt_inj.1
  rw [Tagged.toInt_decode, toInt_word ha, toInt_ofInt ha]
  omega

end Integers

/-- The integers are the odd words. -/
theorem Tagged.isInt_iff (w : Word) : Tagged.isInt w = true ↔ w.toInt % 2 = 1 := by
  have hbit : (w &&& 1 == 1) = true ↔ (w.toBitVec &&& 1#64).toNat = 1 := by
    rw [beq_iff_eq, ← Int64.toBitVec_inj, ← BitVec.toNat_inj]
    simp
  have hone : (1 % 2 ^ 64 : Nat) = 1 := rfl
  rw [Tagged.isInt, hbit, BitVec.toNat_and, BitVec.toNat_ofNat, hone, Nat.and_one_is_mod,
    ← Int64.toInt_toBitVec, BitVec.toInt_eq_toNat_cond]
  split <;> omega

/-- An odd word is the word of its integer. -/
theorem Tagged.encode_decode {w : Word} (h : Tagged.isInt w = true) :
    Tagged.encode (Tagged.decode w) = w := by
  have hodd := (Tagged.isInt_iff w).mp h
  have hhalf : Tagged.decode w = Int64.ofInt (w.toInt / 2) := by
    rw [← Tagged.toInt_decode, Int64.ofInt_toInt]
  have hdouble : 2 * (w.toInt / 2) + 1 = w.toInt := by omega
  rw [hhalf, Tagged.encode_ofInt, hdouble, Int64.ofInt_toInt]

theorem Value.isInt_word (n : Int) : Tagged.isInt (Value.int n).word = true := by
  have hsize : Int64.size = 2 ^ 64 := rfl
  have hmod := @Int.bmod_emod (2 * n + 1) (2 ^ 64)
  rw [Tagged.isInt_iff, word, Tagged.encode_ofInt, Int64.toInt_ofInt, hsize]
  omega

/-- A typed value can be read off its word. -/
theorem Value.word_inj {v v' : Value} {t t' : Ty} (hv : v.HasTy t) (hv' : v'.HasTy t') :
    v.word = v'.word ↔ v = v' := by
  constructor
  · intro h
    have hkind : Tagged.isInt v.word = Tagged.isInt v'.word := by rw [h]
    cases v with
    | none => cases v' with
      | none => rfl
      | bool b => cases b <;> simp [word, Tagged.none, Tagged.ofBool] at h
      | int n =>
          rw [isInt_word] at hkind
          exact absurd hkind (by decide)
    | bool b => cases v' with
      | none => cases b <;> simp [word, Tagged.none, Tagged.ofBool] at h
      | bool b' => cases b <;> cases b' <;> simp_all [word, Tagged.ofBool]
      | int n =>
          rw [isInt_word] at hkind
          cases b <;> exact absurd hkind (by decide)
    | int n => cases v' with
      | none =>
          rw [isInt_word] at hkind
          exact absurd hkind (by decide)
      | bool b =>
          rw [isInt_word] at hkind
          cases b <;> exact absurd hkind (by decide)
      | int n' =>
          cases t <;> cases t' <;> try contradiction
          have hint := congrArg Int64.toInt h
          rw [toInt_word hv, toInt_word hv'] at hint
          congr 1
          omega
  · rintro rfl
    rfl

/-- A label that a branch is not for takes one off its depth. -/
theorem toInt_depth_sub_one {d : Depth} (h0 : 0 ≤ d.toInt) (hd : d ≠ 0) :
    0 ≤ (d - 1).toInt ∧ (d - 1).toInt = d.toInt - 1 := by
  have hne : d.toInt ≠ 0 := fun h => hd (Int64.toInt_inj.mp h)
  have hlt := Int64.toInt_lt d
  have hless : (d - 1).toInt = d.toInt - 1 := by
    rw [Int64.toInt_sub, Int64.toInt_one, Int.bmod_eq_of_le (by omega) (by omega)]
  exact ⟨by omega, hless⟩

/-! ## Operators on words -/

section Integers

variable {a b : Int} (ha : (Value.int a).HasTy .int) (hb : (Value.int b).HasTy .int)
include ha hb

theorem Value.word_lt_word : (Value.int a).word < (Value.int b).word ↔ a < b := by
  rw [Int64.lt_iff_toInt_lt, toInt_word ha, toInt_word hb]
  omega

theorem Value.word_le_word : (Value.int a).word ≤ (Value.int b).word ↔ a ≤ b := by
  rw [Int64.le_iff_toInt_le, toInt_word ha, toInt_word hb]
  omega

/-- The operator of an arithmetic operation computes it on the integers, or
fails with it. -/
theorem applyBinary_arithmetic {op : Operator} {instr : BinaryOp}
    (hop : Lower.arithmetic? op = some instr) :
    (∃ n, op.arithmetic a b = .ok n ∧
      applyBinary instr (Int64.ofInt a) (Int64.ofInt b) = .ok (Int64.ofInt n)) ∨
    (op.arithmetic a b = .error .divByZero ∧
      applyBinary instr (Int64.ofInt a) (Int64.ofInt b) = .error .divByZero) := by
  have hzero : Int64.ofInt b = 0 ↔ b = 0 := by
    rw [← Int64.toInt_inj, Value.toInt_ofInt hb]
    rfl
  cases op <;> simp only [Lower.arithmetic?, Option.some.injEq, reduceCtorEq] at hop <;> subst hop
  case plus => exact .inl ⟨a + b, rfl, by rw [Int64.ofInt_add]; rfl⟩
  case minus => exact .inl ⟨a - b, rfl, by rw [Int64.ofInt_sub]; rfl⟩
  case times => exact .inl ⟨a * b, rfl, by rw [Int64.ofInt_mul]; rfl⟩
  case div =>
    simp only [Operator.arithmetic, applyBinary, hzero]
    by_cases h0 : b = 0
    · exact .inr ⟨by rw [if_pos h0], by rw [if_pos h0]⟩
    · -- an integer in range is never the least word
      have hmin : Int64.ofInt a ≠ Int64.minValue := by
        intro h
        have hint := Value.toInt_ofInt ha
        rw [h, Int64.toInt_minValue] at hint
        obtain ⟨hlo, _⟩ := ha
        omega
      have hdiv := Int64.toInt_div_of_ne_left (Int64.ofInt a) (Int64.ofInt b) hmin
      rw [Value.toInt_ofInt ha, Value.toInt_ofInt hb] at hdiv
      refine .inl ⟨a.tdiv b, by rw [if_neg h0], ?_⟩
      rw [if_neg h0, if_neg (fun h => hmin h.1), ← hdiv, Int64.ofInt_toInt]
  case mod =>
    simp only [Operator.arithmetic, applyBinary, hzero]
    by_cases h0 : b = 0
    · exact .inr ⟨by rw [if_pos h0], by rw [if_pos h0]⟩
    · have hmod := Int64.toInt_mod (Int64.ofInt a) (Int64.ofInt b)
      rw [Value.toInt_ofInt ha, Value.toInt_ofInt hb] at hmod
      refine .inl ⟨a.tmod b, by rw [if_neg h0], ?_⟩
      rw [if_neg h0]
      split
      · next h =>
          have hminus : b = -1 := by
            rw [← Value.toInt_ofInt hb, h]
            rfl
          rw [hminus, Int.tmod_neg, Int.tmod_one]
          rfl
      · rw [← hmod, Int64.ofInt_toInt]

end Integers

/-- The operator of a comparison compares values by their words. -/
theorem applyBinary_comparison {op : Operator} {instr : BinaryOp} {l r : Value} {t : Ty}
    (hop : Lower.comparison? op = some instr) (hl : l.HasTy t) (hr : r.HasTy t)
    (hint : op.isOrder = true → t = .int) :
    ∃ c, op.binary l r = .ok (.bool c) ∧ applyBinary instr l.word r.word = .ok (wordOfBool c) := by
  by_cases horder : op.isOrder = true
  · obtain rfl := hint horder
    obtain ⟨a, rfl⟩ : ∃ a, l = .int a := by cases l <;> simp_all [Value.HasTy]
    obtain ⟨b, rfl⟩ : ∃ b, r = .int b := by cases r <;> simp_all [Value.HasTy]
    refine ⟨op.holds a b, ?_, ?_⟩
    · cases op <;> first | rfl | cases horder
    · cases op <;> simp only [Lower.comparison?, Option.some.injEq, reduceCtorEq] at hop <;>
        cases horder
      all_goals
        subst hop
        simp only [applyBinary, Operator.holds, gt_iff_lt, ge_iff_le, Value.word_lt_word hl hr,
          Value.word_lt_word hr hl, Value.word_le_word hl hr, Value.word_le_word hr hl]
  · have heq : (l.word == r.word) = decide (l = r) := by
      rw [Bool.eq_iff_iff, beq_iff_eq, decide_eq_true_iff, Value.word_inj hl hr]
    cases op <;> simp only [Lower.comparison?, Option.some.injEq, reduceCtorEq] at hop <;>
      first | exact absurd rfl horder | subst hop
    case eq => exact ⟨decide (l = r), rfl, by rw [applyBinary, heq]⟩
    case is => exact ⟨decide (l = r), rfl, by rw [applyBinary, heq]⟩
    case ne => exact ⟨decide (l ≠ r), rfl, by rw [applyBinary, bne, heq, decide_not]⟩

/-- The tag that arithmetic puts back. -/
theorem retag_int (n : Int) :
    ∃ w, applyBinary .shl (Int64.ofInt n) 1 = .ok w ∧
      applyBinary .or w 1 = .ok (Value.int n).word :=
  ⟨_, rfl, rfl⟩

/-- The truth value that comparisons make of their result. -/
theorem retag_bool (c : Bool) :
    applyUnary .extendU (wordOfBool c) = .ok (wordOfBool c) ∧
      ∃ w, applyBinary .shl (wordOfBool c) 1 = .ok w ∧
        applyBinary .add (Tagged.ofBool false) w = .ok (Value.bool c).word := by
  cases c <;> exact ⟨rfl, _, rfl, rfl⟩

/-- A unary operation takes a typed operand from a constant. -/
theorem applyBinary_unary {op : Operator} {t : Ty} {v : Value} (hop : op.unaryTy? = some t)
    (hv : v.HasTy t) :
    ∃ v', op.unary v = .ok v' ∧ v'.HasTy t ∧
      applyBinary .sub (if op = .not then 6 else 2) v.word = .ok v'.word := by
  cases op <;> simp only [Operator.unaryTy?, Option.some.injEq, reduceCtorEq] at hop <;> subst hop
  case neg =>
    obtain ⟨n, rfl⟩ : ∃ n, v = .int n := by cases v <;> simp_all [Value.HasTy]
    refine ⟨.int (wrap (-n)), rfl, Value.hasTy_wrap _, ?_⟩
    have hneg : (2 : Int64) - Int64.ofInt (2 * n + 1) = Int64.ofInt (2 * -n + 1) := by
      have htwo : (2 : Int64) = Int64.ofInt 2 := rfl
      rw [htwo, ← Int64.ofInt_sub]
      congr 1
      ring
    rw [Value.word_wrap, applyBinary, Value.word, Value.word, Tagged.encode_ofInt,
      Tagged.encode_ofInt, if_neg (by decide), hneg]
  case not =>
    obtain ⟨b, rfl⟩ : ∃ b, v = .bool b := by cases v <;> simp_all [Value.HasTy]
    exact ⟨.bool !b, rfl, trivial, by cases b <;> rfl⟩

/-- The comparisons of conditions with a truth value. -/
theorem applyBinary_cond (b c : Bool) :
    applyBinary .eq (Tagged.ofBool b) (Value.bool c).word = .ok (wordOfBool (b == c)) := by
  cases b <;> cases c <;> rfl

/-! ## Intrinsic procedures -/

@[simp]
theorem Host.integer_word {n : Int} (h : (Value.int n).HasTy .int) :
    Host.integer (Value.int n).word = .ok (Int64.ofInt n) := by
  rw [Host.integer, if_pos (Value.isInt_word n), Value.decode_word h]

/-- Repeated squaring computes powers. -/
theorem Host.powAcc_ofInt (base acc : Int) (exp : Nat) :
    Host.powAcc (Int64.ofInt base) (Int64.ofInt acc) exp = Int64.ofInt (acc * base ^ exp) := by
  induction exp using Nat.strongRecOn generalizing base acc with
  | ind exp ih =>
      rw [Host.powAcc]
      by_cases h0 : exp = 0
      · rw [if_pos h0, h0, pow_zero, mul_one]
      · have hhalf : exp / 2 < exp := by omega
        rw [if_neg h0, ← Int64.ofInt_mul]
        by_cases hodd : exp % 2 = 1
        · have hexp : base ^ exp = base * (base * base) ^ (exp / 2) := by
            conv_lhs => rw [show exp = 1 + 2 * (exp / 2) by omega]
            rw [pow_add, pow_one, pow_mul, pow_two]
          rw [if_pos hodd, ← Int64.ofInt_mul, ih _ hhalf, hexp, mul_assoc]
        · have hexp : base ^ exp = (base * base) ^ (exp / 2) := by
            conv_lhs => rw [show exp = 2 * (exp / 2) by omega]
            rw [pow_mul, pow_two]
          rw [if_neg hodd, ih _ hhalf, hexp]

/-- One divided by a power of a larger integer. -/
theorem tdiv_one_pow {base : Int} {k : Nat} (h0 : base ≠ 0) (h1 : base ≠ 1) (h2 : base ≠ -1)
    (hk : 0 < k) : Int.tdiv 1 (base ^ k) = 0 := by
  have hbig : 2 ≤ (base ^ k).natAbs := by
    rw [Int.natAbs_pow]
    exact le_trans (by omega) (Nat.le_self_pow (by omega) base.natAbs)
  rw [← Int.natAbs_eq_zero, Int.natAbs_tdiv]
  exact Nat.div_eq_of_lt hbig

/-- One divided by a power of minus one. -/
theorem tdiv_one_neg_one_pow (k : Nat) :
    Int.tdiv 1 ((-1) ^ k) = if k % 2 = 0 then 1 else -1 := by
  by_cases h : k % 2 = 0
  · rw [if_pos h, Even.neg_one_pow (Nat.even_iff.mpr h)]
    rfl
  · rw [if_neg h, Odd.neg_one_pow (Nat.odd_iff.mpr (by omega))]
    rfl

section Procedures

variable {a b : Int} (ha : (Value.int a).HasTy .int) (hb : (Value.int b).HasTy .int)
include ha

theorem ofInt_eq_iff {w : Word} : Int64.ofInt a = w ↔ a = w.toInt := by
  rw [← Int64.toInt_inj, Value.toInt_ofInt ha]

theorem ofInt_lt_zero : Int64.ofInt a < 0 ↔ a < 0 := by
  rw [Int64.lt_iff_toInt_lt, Value.toInt_ofInt ha]
  rfl

theorem Host.abs_word : Host.abs (Value.int a).word = .ok (Value.int a.natAbs).word := by
  rw [Host.abs, Host.integer_word ha]
  simp only [bind, Except.bind, pure, Except.pure, ofInt_lt_zero ha, Value.word]
  congr 2
  split
  · rw [← Int64.ofInt_neg]
    congr 1
    omega
  · congr 1
    omega

include hb

theorem Host.max_word :
    Host.max (Value.int a).word (Value.int b).word = .ok (Value.int (Max.max a b)).word := by
  rw [Host.max, Host.integer_word ha, Host.integer_word hb]
  simp only [bind, Except.bind, pure, Except.pure, Value.word_lt_word ha hb]
  split
  · rw [max_eq_right (by omega)]
  · rw [max_eq_left (by omega)]

theorem Host.min_word :
    Host.min (Value.int a).word (Value.int b).word = .ok (Value.int (Min.min a b)).word := by
  rw [Host.min, Host.integer_word ha, Host.integer_word hb]
  simp only [bind, Except.bind, pure, Except.pure, Value.word_lt_word hb ha]
  split
  · rw [min_eq_right (by omega)]
  · rw [min_eq_left (by omega)]

theorem Host.pow_word_of_nonneg (h : 0 ≤ b) :
    Host.pow (Value.int a).word (Value.int b).word = .ok (Value.int (a ^ b.toNat)).word := by
  have hacc := Host.powAcc_ofInt a 1 b.toNat
  rw [one_mul] at hacc
  rw [Host.pow, Host.integer_word ha, Host.integer_word hb]
  simp only [bind, Except.bind, pure, Except.pure, ofInt_lt_zero hb, Value.toInt_ofInt hb]
  rw [if_neg (by omega)]
  exact congrArg (fun n => Except.ok (Tagged.encode n)) hacc

/-- A negative exponent: what is left of one divided by the power is decided
by the base, and for minus one by whether the exponent is even. -/
theorem Host.pow_word_of_neg (h : b < 0) :
    Host.pow (Value.int a).word (Value.int b).word =
      if a = 0 then .error .zeroToNegative
      else .ok (Value.int (Int.tdiv 1 (a ^ (-b).toNat))).word := by
  rw [Host.pow, Host.integer_word ha, Host.integer_word hb]
  simp only [bind, Except.bind, pure, Except.pure, ofInt_lt_zero hb, ofInt_eq_iff ha]
  rw [if_pos h]
  by_cases h0 : a = 0
  · rw [if_pos (by rw [h0]; rfl), if_pos h0]
  · rw [if_neg (by simpa using h0), if_neg h0]
    by_cases h1 : a = 1
    · rw [if_pos (by rw [h1]; rfl), h1, one_pow]
      rfl
    · rw [if_neg (by simpa using h1)]
      by_cases h2 : a = -1
      · have heven : Int64.ofInt b % 2 = 0 ↔ (-b).toNat % 2 = 0 := by
          have htwo : (2 : Int64).toInt = 2 := rfl
          rw [← Int64.toInt_inj, Int64.toInt_mod, Value.toInt_ofInt hb, htwo, Int64.toInt_zero,
            ← Int.dvd_iff_tmod_eq_zero]
          omega
        rw [if_pos (by rw [h2]; rfl), h2, tdiv_one_neg_one_pow]
        by_cases hp : (-b).toNat % 2 = 0
        · rw [if_pos (heven.mpr hp), if_pos hp]
          rfl
        · rw [if_neg (fun he => hp (heven.mp he)), if_neg hp]
          rfl
      · rw [if_neg (by simpa using h2), tdiv_one_pow h0 h1 h2 (by omega)]
        rfl

/-- A power is computed on the words, or fails with them. -/
theorem Host.pow_word :
    (∃ n, power a b = .ok n ∧
      Host.pow (Value.int a).word (Value.int b).word = .ok (Value.int n).word) ∨
    (power a b = .error .zeroToNegative ∧
      Host.pow (Value.int a).word (Value.int b).word = .error .zeroToNegative) := by
  unfold power
  by_cases hneg : b < 0
  · rw [if_neg (by omega), Host.pow_word_of_neg ha hb hneg]
    by_cases h0 : a = 0
    · exact .inr ⟨by rw [if_pos h0], by rw [if_pos h0]⟩
    · exact .inl ⟨_, by rw [if_neg h0], by rw [if_neg h0]⟩
  · rw [if_pos (by omega), Host.pow_word_of_nonneg ha hb (by omega)]
    exact .inl ⟨_, rfl, rfl⟩

/-- **Intrinsic procedures of two integers.** The procedure of the host
computes the result on the words, or fails with it. -/
theorem Host.procedure?_intrinsic2 {f : String} (hf : f ∈ intrinsics2) :
    ∃ g, Host.procedure? (utf8 f) = some (Host.procedure2 g) ∧
      ((∃ n, intrinsicValue f [a, b] = .ok n ∧
          g (Value.int a).word (Value.int b).word = .ok (Value.int n).word) ∨
        (intrinsicValue f [a, b] = .error .zeroToNegative ∧
          g (Value.int a).word (Value.int b).word = .error .zeroToNegative)) := by
  simp only [intrinsics2, List.mem_cons, List.not_mem_nil, or_false] at hf
  obtain rfl | rfl | rfl := hf
  · exact ⟨Host.max, rfl, .inl ⟨_, rfl, Host.max_word ha hb⟩⟩
  · exact ⟨Host.min, rfl, .inl ⟨_, rfl, Host.min_word ha hb⟩⟩
  · exact ⟨Host.pow, rfl, Host.pow_word ha hb⟩

end Procedures

end Taglet
