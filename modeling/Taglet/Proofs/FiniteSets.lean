import Mathlib.Data.Finset.Sort
import Taglet.Proofs.SlotSets

/-!
# Taglet.Proofs.FiniteSets

A bitmap of slots is a finite set.

The bits of a word that are set are listed once (`bitsOf`), and the elements of
a bitmap with them (`elements`): in increasing order, whatever words the bitmap
was grown to.  Counting bits counts the list, the length of the highest word
finds its end, and visiting the lowest bit and clearing it goes through it from
the front, up to where a visit says stop.

So a bitmap represents the set of its members (`Represents`), and adding and
removing elements keeps it in step with the set that the same changes make.
-/

namespace Taglet.SlotSet

/-! ## Bits of a word -/

/-- The bits of a word that are set, in increasing order. -/
def bitsOf (w : UInt64) : List Nat :=
  (List.range 64).filter (testBit w)

theorem mem_bitsOf {w : UInt64} {j : Nat} : j ∈ bitsOf w ↔ j < 64 ∧ testBit w j = true := by
  simp [bitsOf]

theorem sortedLT_bitsOf (w : UInt64) : (bitsOf w).SortedLT :=
  (List.pairwise_lt_range.filter _).sortedLT

@[simp]
theorem bitsOf_zero : bitsOf 0 = [] := by
  simp [bitsOf]

theorem testBit_trailingZeros {w : UInt64} (h : w ≠ 0) : testBit w (trailingZeros w) = true := by
  rw [testBit_eq_getLsbD w (trailingZeros_lt h)]
  exact BitVec.getLsbD_true_ctz_of_ne_zero (toBitVec_ne_zero h)

/-- The lowest bit comes first, and the others are left when it is cleared. -/
theorem bitsOf_eq_cons {w : UInt64} (h : w ≠ 0) :
    bitsOf w = trailingZeros w :: bitsOf (clearBit w (trailingZeros w)) := by
  have hlt := trailingZeros_lt h
  have hleft : ∀ j, j ∈ bitsOf (clearBit w (trailingZeros w)) ↔
      j ∈ bitsOf w ∧ j ≠ trailingZeros w := by
    intro j
    by_cases hj : j < 64
    · simp [mem_bitsOf, hj, testBit_clearBit w hlt hj]
    · simp [mem_bitsOf, hj]
  have hlowest : ∀ j ∈ bitsOf (clearBit w (trailingZeros w)), trailingZeros w < j := by
    intro j hj
    obtain ⟨hmem, hne⟩ := (hleft j).mp hj
    obtain ⟨hj64, hbit⟩ := mem_bitsOf.mp hmem
    by_contra hle
    have hclear : w.toBitVec.getLsbD j = false :=
      BitVec.getLsbD_false_of_lt_ctz (lt_of_le_of_ne (not_lt.mp hle) hne)
    rw [testBit_eq_getLsbD w hj64, hclear] at hbit
    cases hbit
  have hsorted : (trailingZeros w :: bitsOf (clearBit w (trailingZeros w))).SortedLT :=
    (List.pairwise_cons.mpr ⟨hlowest, (sortedLT_bitsOf _).pairwise⟩).sortedLT
  refine (sortedLT_bitsOf w).eq_of_mem_iff hsorted fun j => ?_
  rw [List.mem_cons, hleft]
  by_cases hj : j = trailingZeros w
  · simp [hj, mem_bitsOf, hlt, testBit_trailingZeros h]
  · simp [hj]

theorem onesCount_eq_length (w : UInt64) : onesCount w = (bitsOf w).length := by
  have hcount : ∀ k ≤ 64,
      w.toBitVec.cpopNatRec k 0 = ((List.range k).filter (testBit w)).length := by
    intro k hk
    induction k with
    | zero => rfl
    | succ k ih =>
        rw [BitVec.cpopNatRec_succ, BitVec.cpopNatRec_add, ih (by omega), List.range_succ,
          List.filter_append, List.length_append, ← testBit_eq_getLsbD w (by omega)]
        cases hbit : testBit w k <;> simp [hbit]
  rw [onesCount, BitVec.toNat_cpop, hcount 64 le_rfl, bitsOf]

/-! ## Elements -/

/-- The elements in the words from number `start` on, in increasing order. -/
def elementsFrom : (start : Nat) → List UInt64 → List Nat
  | _, [] => []
  | start, w :: words => (bitsOf w).map (start * 64 + ·) ++ elementsFrom (start + 1) words

/-- The elements in increasing order. -/
def elements (s : SlotSet) : List Nat :=
  elementsFrom 0 s.words

theorem mem_elementsFrom {start : Nat} {words : List UInt64} {i : Nat} :
    i ∈ elementsFrom start words ↔
      start * 64 ≤ i ∧ testBit (words.getD (i / 64 - start) 0) (i % 64) = true := by
  induction words generalizing start with
  | nil => simp [elementsFrom]
  | cons w words ih =>
      have hhere : i ∈ (bitsOf w).map (start * 64 + ·) ↔
          i / 64 = start ∧ testBit w (i % 64) = true := by
        rw [List.mem_map]
        constructor
        · rintro ⟨j, hj, rfl⟩
          obtain ⟨hj64, hbit⟩ := mem_bitsOf.mp hj
          have hmod : (start * 64 + j) % 64 = j := by omega
          exact ⟨by omega, by rwa [hmod]⟩
        · rintro ⟨hword, hbit⟩
          exact ⟨i % 64, mem_bitsOf.mpr ⟨by omega, hbit⟩, by omega⟩
      rw [elementsFrom, List.mem_append, hhere, ih]
      by_cases hword : i / 64 = start
      · have hlater : ¬ (start + 1) * 64 ≤ i := by omega
        have hfrom : start * 64 ≤ i := by omega
        simp [hword, hlater, hfrom]
      · by_cases hlater : (start + 1) * 64 ≤ i
        · have hnext : i / 64 - start = (i / 64 - (start + 1)) + 1 := by omega
          have hfrom : start * 64 ≤ i := by omega
          simp [hword, hlater, hfrom, hnext]
        · have hfrom : ¬ start * 64 ≤ i := by omega
          simp [hword, hlater, hfrom]

theorem mem_elements {s : SlotSet} {i : Nat} : i ∈ s.elements ↔ s.contains (i : Int) = true := by
  rw [elements, mem_elementsFrom, contains_natCast]
  simp

theorem sortedLT_elementsFrom (start : Nat) (words : List UInt64) :
    (elementsFrom start words).SortedLT := by
  induction words generalizing start with
  | nil => exact List.Pairwise.nil.sortedLT
  | cons w words ih =>
      refine (List.pairwise_append.mpr ⟨?_, (ih (start + 1)).pairwise, ?_⟩).sortedLT
      · refine List.pairwise_map.mpr ((sortedLT_bitsOf w).pairwise.imp fun hlt => ?_)
        omega
      · intro i hi j hj
        obtain ⟨k, hk, rfl⟩ := List.mem_map.mp hi
        have hk64 := (mem_bitsOf.mp hk).1
        have hfrom := (mem_elementsFrom.mp hj).1
        omega

theorem countOf_eq_length (start : Nat) (words : List UInt64) :
    countOf words = (elementsFrom start words).length := by
  induction words generalizing start with
  | nil => rfl
  | cons w words ih =>
      rw [countOf, elementsFrom, List.length_append, List.length_map, onesCount_eq_length,
        ih (start + 1)]

/-! ## The end of a set -/

/-- The number is one past the greatest of some numbers, or zero if there are
none. -/
structure EndsAt (is : List Nat) (n : Nat) : Prop where
  below : ∀ i ∈ is, i < n
  last : ∀ {k}, n = k + 1 → k ∈ is

theorem endsAt_bitLength {w : UInt64} (h : w ≠ 0) : EndsAt (bitsOf w) (bitLength w) := by
  have hne : w.toNat ≠ 0 := fun h0 => h (UInt64.toNat_inj.mp h0)
  have hlt : w.toNat.log2 < 64 := (Nat.log2_lt hne).mpr w.toNat_lt
  rw [bitLength, if_neg h]
  constructor
  · intro j hj
    obtain ⟨hj64, hbit⟩ := mem_bitsOf.mp hj
    rw [testBit_eq_getLsbD w hj64] at hbit
    have hle := (Nat.le_log2 hne).mpr (Nat.ge_two_pow_of_testBit hbit)
    omega
  · intro k hk
    obtain rfl : w.toNat.log2 = k := by omega
    refine mem_bitsOf.mpr ⟨hlt, ?_⟩
    rw [testBit_eq_getLsbD w hlt]
    exact Nat.testBit_log2 hne

theorem endsAt_boundFrom (start : Nat) (words : List UInt64) :
    EndsAt (elementsFrom start words) (boundFrom start words) := by
  induction words generalizing start with
  | nil => exact ⟨by simp [elementsFrom], by simp [boundFrom]⟩
  | cons w words ih =>
      have hrest := ih (start + 1)
      rw [elementsFrom, boundFrom]
      generalize boundFrom (start + 1) words = bound at hrest
      match bound, hrest with
      | 0, hrest =>
          have hnil : elementsFrom (start + 1) words = [] :=
            List.eq_nil_iff_forall_not_mem.mpr fun i hi => Nat.not_lt_zero i (hrest.below i hi)
          by_cases hw : w = 0
          · exact ⟨by simp [hw, hnil], by simp [hw]⟩
          · have hbits := endsAt_bitLength hw
            simp only [hnil, List.append_nil, hw, ↓reduceIte]
            constructor
            · intro i hi
              obtain ⟨j, hj, rfl⟩ := List.mem_map.mp hi
              have hlt := hbits.below j hj
              omega
            · intro k hk
              have hne : bitLength w ≠ 0 := by simp [bitLength, hw]
              refine List.mem_map.mpr ⟨bitLength w - 1, hbits.last (by omega), by omega⟩
      | bound + 1, hrest =>
          -- the elements of later words are greater than those of this one
          have hlater := (mem_elementsFrom.mp (hrest.last rfl)).1
          constructor
          · intro i hi
            rcases List.mem_append.mp hi with hi | hi
            · obtain ⟨j, hj, rfl⟩ := List.mem_map.mp hi
              have hj64 := (mem_bitsOf.mp hj).1
              show start * 64 + j < bound + 1
              omega
            · exact hrest.below i hi
          · intro k hk
            exact List.mem_append_right _ (hrest.last hk)

/-! ## Visits -/

section Visits

variable {σ : Type} {f : σ → Nat → σ × Bool}

/-- Visit numbers in order, carrying a state, until a visit says stop. -/
def visitList (f : σ → Nat → σ × Bool) : σ → List Nat → σ × Bool
  | acc, [] => (acc, true)
  | acc, i :: is =>
    match f acc i with
    | (acc, true) => visitList f acc is
    | (acc, false) => (acc, false)

theorem visitList_append (f : σ → Nat → σ × Bool) (acc : σ) (is js : List Nat) :
    visitList f acc (is ++ js) =
      match visitList f acc is with
      | (acc, true) => visitList f acc js
      | (acc, false) => (acc, false) := by
  induction is generalizing acc with
  | nil => rfl
  | cons i is ih =>
      simp only [List.cons_append, visitList]
      split
      · exact ih _
      · rfl

/-- Going from the lowest bit to the next visits the bits in order. -/
theorem visitWord_eq (f : σ → Nat → σ × Bool) (base : Nat) (acc : σ) (w : UInt64) :
    visitWord f base acc w = visitList f acc ((bitsOf w).map (base + ·)) := by
  fun_induction visitWord f base acc w with
  | case1 acc => simp [visitList]
  | case2 acc w hw acc' hf ih =>
      rw [bitsOf_eq_cons hw, List.map_cons, visitList, hf]
      exact ih
  | case3 acc w hw acc' hf =>
      rw [bitsOf_eq_cons hw, List.map_cons, visitList, hf]

theorem visitFrom_eq (f : σ → Nat → σ × Bool) (start : Nat) (acc : σ) (words : List UInt64) :
    visitFrom f start acc words = visitList f acc (elementsFrom start words) := by
  induction words generalizing start acc with
  | nil => rfl
  | cons w words ih =>
      rw [visitFrom, elementsFrom, visitList_append, visitWord_eq]
      generalize visitList f acc ((bitsOf w).map (start * 64 + ·)) = result
      match result with
      | (acc, true) => exact ih (start + 1) acc
      | (acc, false) => rfl

/-- The state after some visits. -/
def stateAfter (f : σ → Nat → σ × Bool) (init : σ) (is : List Nat) : σ :=
  is.foldl (fun acc i => (f acc i).1) init

/-- Visits that are recorded beside the state. -/
def recording (f : σ → Nat → σ × Bool) : σ × List Nat → Nat → (σ × List Nat) × Bool
  | (acc, seen), i => (((f acc i).1, seen ++ [i]), (f acc i).2)

/-- The elements that `f` is called on, in order. -/
def visited (f : σ → Nat → σ × Bool) (init : σ) (s : SlotSet) : List Nat :=
  (s.foldWhile (recording f) (init, [])).2

/-- Of the numbers `is`, those in `seen` are visited. -/
structure Visits (f : σ → Nat → σ × Bool) (init : σ) (is seen : List Nat) : Prop where
  /-- They are visited in order, from the first. -/
  inOrder : seen <+: is
  /-- An answer `false` is the end. -/
  stops : ∀ {before i after}, seen = before ++ i :: after →
    (f (stateAfter f init before) i).2 = false → after = []
  /-- Without one, nothing is left out. -/
  complete : (∀ {before i after}, seen = before ++ i :: after →
    (f (stateAfter f init before) i).2 = true) → seen = is

/-- Visiting a list is visiting the numbers of it that are recorded. -/
theorem visitList_recording (f : σ → Nat → σ × Bool) (init : σ) (before is : List Nat) :
    ∃ seen,
      (visitList (recording f) (init, before) is).1 = (stateAfter f init seen, before ++ seen) ∧
      (visitList f init is).1 = stateAfter f init seen ∧ Visits f init is seen := by
  induction is generalizing init before with
  | nil =>
      refine ⟨[], by simp [visitList, stateAfter], rfl, List.prefix_rfl, ?_, fun _ => rfl⟩
      intro before i after h
      simp at h
  | cons i is ih =>
      match hf : f init i with
      | (acc, false) =>
          have hanswer : (f init i).2 = false := by rw [hf]
          refine ⟨[i], ?_, ?_, by simp, ?_, ?_⟩
          · simp [visitList, recording, hf, stateAfter]
          · simp [visitList, hf, stateAfter]
          · intro before j after h _
            cases before with
            | nil => exact (List.cons.inj h).2.symm
            | cons k before => simp at h
          · intro hall
            have htrue : (f init i).2 = true := @hall [] i [] rfl
            rw [hanswer] at htrue
            cases htrue
      | (acc, true) =>
          obtain ⟨seen, hrecorded, hstate, hvisits⟩ := ih acc (before ++ [i])
          have hafter : ∀ js, stateAfter f init (i :: js) = stateAfter f acc js := by
            intro js
            simp [stateAfter, hf]
          refine ⟨i :: seen, ?_, ?_, ?_, ?_, ?_⟩
          · simpa [visitList, recording, hf, hafter] using hrecorded
          · simpa [visitList, hf, hafter] using hstate
          · exact List.cons_prefix_cons.mpr ⟨rfl, hvisits.inOrder⟩
          · intro before j after h hanswer
            cases before with
            | nil =>
                obtain ⟨rfl, -⟩ := List.cons.inj h
                simp [stateAfter, hf] at hanswer
            | cons k before =>
                obtain ⟨rfl, hseen⟩ := List.cons.inj h
                rw [hafter] at hanswer
                exact hvisits.stops hseen hanswer
          · intro hall
            rw [hvisits.complete fun {before j after} hseen => ?_]
            have hanswer := @hall (i :: before) j after (congrArg (i :: ·) hseen)
            rwa [hafter] at hanswer

end Visits

/-! ## Sets -/

/-- The bitmap is the finite set `A`. -/
structure Represents (s : SlotSet) (A : Finset Nat) : Prop where
  contains_iff : ∀ i : Int, s.contains i = true ↔ ∃ n ∈ A, (n : Int) = i
  size_eq : s.size = A.card
  bound_empty : A = ∅ → s.bound = 0
  bound_nonempty : ∀ h : A.Nonempty, s.bound = A.max' h + 1
  visits : ∀ {σ : Type} (f : σ → Nat → σ × Bool) (init : σ), Visits f init A.sort (s.visited f init)
  fold_eq : ∀ {σ : Type} (f : σ → Nat → σ × Bool) (init : σ),
    s.foldWhile f init = stateAfter f init (s.visited f init)

/-- Membership decides the rest. -/
theorem represents_of_contains {s : SlotSet} {A : Finset Nat}
    (h : ∀ i : Nat, s.contains (i : Int) = true ↔ i ∈ A) : s.Represents A := by
  have hsort : s.elements = A.sort := by
    refine (sortedLT_elementsFrom 0 s.words).eq_of_mem_iff A.sortedLT_sort fun i => ?_
    rw [Finset.mem_sort, ← h]
    exact mem_elements
  have hend : EndsAt s.elements s.bound := endsAt_boundFrom 0 s.words
  have hmem : ∀ {i}, i ∈ s.elements ↔ i ∈ A := mem_elements.trans (h _)
  have hvisits : ∀ {σ : Type} (f : σ → Nat → σ × Bool) (init : σ),
      Visits f init A.sort (s.visited f init) ∧
        s.foldWhile f init = stateAfter f init (s.visited f init) := by
    intro σ f init
    obtain ⟨seen, hrecorded, hstate, hvisits⟩ := visitList_recording f init [] s.elements
    have hseen : s.visited f init = seen := by
      rw [visited, foldWhile, visitFrom_eq]
      exact (Prod.mk.inj hrecorded).2
    rw [hseen, foldWhile, visitFrom_eq, ← hsort]
    exact ⟨hvisits, hstate⟩
  constructor
  · intro i
    cases i with
    | ofNat n =>
        refine (h n).trans ⟨fun hn => ⟨n, hn, rfl⟩, ?_⟩
        rintro ⟨m, hm, heq⟩
        obtain rfl := Int.ofNat.inj heq
        exact hm
    | negSucc n =>
        refine ⟨fun hn => absurd hn (by simp [contains]), ?_⟩
        rintro ⟨m, -, heq⟩
        exact absurd heq (by omega)
  · have hlength := congrArg List.length hsort
    rw [Finset.length_sort] at hlength
    rw [size, countOf_eq_length 0, ← hlength]
    rfl
  · rintro rfl
    cases hbound : s.bound with
    | zero => rfl
    | succ k => exact absurd (hmem.mp (hend.last hbound)) (Finset.notMem_empty k)
  · intro hne
    have hbelow := hend.below _ (hmem.mpr (A.max'_mem hne))
    obtain ⟨k, hk⟩ : ∃ k, s.bound = k + 1 := ⟨s.bound - 1, by omega⟩
    have hle := A.le_max' k (hmem.mp (hend.last hk))
    omega
  · exact fun f init => (hvisits f init).1
  · exact fun f init => (hvisits f init).2

/-! ## Changes -/

/-- A change of a set. -/
inductive Change where
  | insert (i : Nat)
  | erase (i : Nat)
deriving Repr, DecidableEq

namespace Change

/-- The bitmap after a change, unless the change is refused. -/
def perform? (s : SlotSet) (c : Change) : Option SlotSet :=
  let changed : SlotSet × Bool :=
    match c with
    | .insert i => s.insertInt i
    | .erase i => s.eraseInt i
  if changed.2 then some changed.1 else none

/-- The set after a change. -/
def apply (A : Finset Nat) : Change → Finset Nat
  | .insert i => Insert.insert i A
  | .erase i => A.erase i

/-- **Step lemma**: a change is not refused, and the bitmap has the members that
the set has. -/
theorem perform?_eq_some {s : SlotSet} {A : Finset Nat} (c : Change)
    (h : ∀ i : Nat, s.contains (i : Int) = true ↔ i ∈ A) :
    ∃ s', perform? s c = some s' ∧ ∀ i : Nat, s'.contains (i : Int) = true ↔ i ∈ apply A c := by
  cases c with
  | insert j =>
      refine ⟨s.insert j, rfl, fun i => ?_⟩
      rw [contains_insert, Bool.or_eq_true, decide_eq_true_iff, h, apply, Finset.mem_insert,
        eq_comm]
  | erase j =>
      refine ⟨s.erase j, rfl, fun i => ?_⟩
      rw [contains_erase, Bool.and_eq_true, decide_eq_true_iff, h, apply, Finset.mem_erase,
        and_comm]

/-- **Run lemma**: no history of changes is refused, and the bitmap has the
members of the set that the same changes make. -/
theorem foldlM_eq_some {s : SlotSet} {A : Finset Nat} (cs : List Change)
    (h : ∀ i : Nat, s.contains (i : Int) = true ↔ i ∈ A) :
    ∃ s', cs.foldlM perform? s = some s' ∧
      ∀ i : Nat, s'.contains (i : Int) = true ↔ i ∈ cs.foldl apply A := by
  induction cs generalizing s A with
  | nil => exact ⟨s, rfl, h⟩
  | cons c cs ih =>
      obtain ⟨s₁, hstep, h₁⟩ := perform?_eq_some c h
      obtain ⟨s₂, hrun, h₂⟩ := ih h₁
      exact ⟨s₂, by rw [List.foldlM_cons, hstep]; exact hrun, h₂⟩

end Change

/-- A bitmap to begin with: one with room for some elements, or one that was
never grown. -/
def fresh : Option Int → SlotSet
  | some size => withRoom size
  | none => empty

/-- **Bitmaps are finite sets**: after any history of changes, from any bitmap
to begin with, the bitmap is the set that the same changes make of the empty
set. -/
theorem represents_changes (room : Option Int) (cs : List Change) :
    ∃ s, cs.foldlM Change.perform? (fresh room) = some s ∧
      s.Represents (cs.foldl Change.apply ∅) := by
  have hfresh : ∀ i : Nat, (fresh room).contains (i : Int) = true ↔ i ∈ (∅ : Finset Nat) := by
    intro i
    cases room <;> simp [fresh, withRoom]
  obtain ⟨s, hrun, hmem⟩ := Change.foldlM_eq_some cs hfresh
  exact ⟨s, hrun, represents_of_contains hmem⟩

end Taglet.SlotSet
