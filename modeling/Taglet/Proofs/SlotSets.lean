import Taglet.SlotSet

/-!
# Taglet.Proofs.SlotSets

What a bitmap of slots stands for: adding an element makes it a member,
removing it makes it none, and either leaves every other number as it was.
-/

namespace Taglet.SlotSet

/-! ## Bits of a word -/

theorem testBit_eq_getLsbD (w : UInt64) {j : Nat} (h : j < 64) :
    testBit w j = w.toBitVec.getLsbD j := by
  have hne : BitVec.twoPow 64 j ≠ 0 := by
    intro heq
    have hbit := congrArg (fun v => v.getLsbD j) heq
    simp [h] at hbit
  unfold testBit
  rw [Bool.eq_iff_iff, bne_iff_ne, ne_eq, ← UInt64.toBitVec_inj, UInt64.toBitVec_and,
    toBitVec_bit h, BitVec.and_twoPow]
  cases w.toBitVec.getLsbD j
  · simp
  · simpa using hne

theorem testBit_or_bit (w : UInt64) {i j : Nat} (hi : i < 64) (hj : j < 64) :
    testBit (w ||| bit i) j = (decide (i = j) || testBit w j) := by
  rw [testBit_eq_getLsbD _ hj, testBit_eq_getLsbD _ hj, UInt64.toBitVec_or, BitVec.getLsbD_or,
    toBitVec_bit hi, BitVec.getLsbD_twoPow]
  simp [hi, Bool.or_comm]

theorem testBit_clearBit (w : UInt64) {i j : Nat} (hi : i < 64) (hj : j < 64) :
    testBit (clearBit w i) j = (testBit w j && decide (j ≠ i)) := by
  rw [testBit_eq_getLsbD _ hj, testBit_eq_getLsbD _ hj, getLsbD_clearBit w hj hi]

@[simp]
theorem testBit_zero (j : Nat) : testBit 0 j = false := by
  simp [testBit]

/-! ## Words of a set -/

theorem contains_natCast (s : SlotSet) (i : Nat) :
    s.contains (i : Int) = testBit (s.words.getD (i / 64) 0) (i % 64) := rfl

/-- Growing adds words without elements. -/
theorem getD_grow (s : SlotSet) (w k : Nat) :
    (s.grow w).words.getD k 0 = s.words.getD k 0 := by
  simp only [grow, List.getD_eq_getElem?_getD, List.getElem?_append, List.getElem?_replicate]
  by_cases hk : k < s.words.length
  · rw [if_pos hk]
  · rw [if_neg hk, List.getElem?_eq_none (by omega)]
    split <;> rfl

theorem lt_length_grow (s : SlotSet) (w : Nat) : w < (s.grow w).words.length := by
  simp only [grow, List.length_append, List.length_replicate]
  omega

/-- Only the word of the element changes. -/
theorem getD_insert (s : SlotSet) (i k : Nat) :
    (s.insert i).words.getD k 0 =
      if i / 64 = k then s.words.getD k 0 ||| bit (i % 64) else s.words.getD k 0 := by
  simp only [insert]
  rw [← getD_grow s (i / 64) k]
  simp only [List.getD_eq_getElem?_getD, List.getElem?_modify]
  by_cases hk : i / 64 = k
  · have hlt : k < (s.grow (i / 64)).words.length := hk ▸ lt_length_grow s (i / 64)
    rw [if_pos hk, List.getElem?_eq_getElem hlt]
    simp [hk]
  · rw [if_neg hk]
    simp [hk]

/-- Only the word of the element changes. -/
theorem getD_erase (s : SlotSet) (i k : Nat) :
    (s.erase i).words.getD k 0 =
      if i / 64 = k then clearBit (s.words.getD k 0) (i % 64) else s.words.getD k 0 := by
  simp only [erase, List.getD_eq_getElem?_getD, List.getElem?_modify]
  by_cases hk : i / 64 = k
  · cases s.words[k]? with
    | none => simp [hk, clearBit]
    | some w => simp [hk]
  · simp [hk]

@[simp]
theorem contains_empty (j : Int) : empty.contains j = false := by
  cases j with
  | ofNat n => simp [contains, empty]
  | negSucc n => rfl

/-- Growing adds no members. -/
@[simp]
theorem contains_grow (s : SlotSet) (w : Nat) (j : Int) :
    (s.grow w).contains j = s.contains j := by
  cases j with
  | ofNat n => simp only [contains, getD_grow]
  | negSucc n => rfl

/-- The members after adding an element are it and those from before. -/
theorem contains_insert (s : SlotSet) (i j : Nat) :
    (s.insert i).contains (j : Int) = (decide (i = j) || s.contains (j : Int)) := by
  rw [contains_natCast, contains_natCast, getD_insert]
  by_cases hw : i / 64 = j / 64
  · rw [if_pos hw, testBit_or_bit _ (by omega) (by omega)]
    congr 2
    rw [eq_iff_iff]
    omega
  · rw [if_neg hw]
    have hij : i ≠ j := fun h => hw (h ▸ rfl)
    simp [hij]

/-- The members after removing an element are the others from before. -/
theorem contains_erase (s : SlotSet) (i j : Nat) :
    (s.erase i).contains (j : Int) = (s.contains (j : Int) && decide (j ≠ i)) := by
  rw [contains_natCast, contains_natCast, getD_erase]
  by_cases hw : i / 64 = j / 64
  · rw [if_pos hw, testBit_clearBit _ (by omega) (by omega)]
    congr 2
    rw [eq_iff_iff]
    omega
  · rw [if_neg hw]
    have hij : j ≠ i := fun h => hw (h ▸ rfl)
    simp [hij]

end Taglet.SlotSet
