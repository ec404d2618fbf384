import Taglet.Machine.Config
import Taglet.Proofs.Scopes
import Taglet.Proofs.TypeRules

/-!
# Taglet.Proofs.Storage

Where a running program keeps its values: words in the memory of the machine
and locals in its frames.

A word that was put in the memory is found there again, and putting one leaves
alone the words that do not overlap it.  The same holds of locals by name.
-/

namespace Taglet.Machine

/-! ## Words in memory -/

/-- The low bytes that were written are read back. -/
theorem readBytes_writeBytes (n i : Nat) (w : UInt64) (a : Array UInt8) (h : w.toNat < 256 ^ n) :
    readBytes (writeBytes n i w a) n i = w := by
  induction n generalizing i w a with
  | zero =>
      rw [readBytes]
      apply UInt64.toNat_inj.mp
      rw [UInt64.toNat_zero]
      omega
  | succ n ih =>
      have hlow : (w / 256).toNat = w.toNat / 256 := by rw [UInt64.toNat_div]; rfl
      have hhigh : (w / 256).toNat < 256 ^ n := by
        rw [hlow, Nat.div_lt_iff_lt_mul (by decide), ← Nat.pow_succ]
        exact h
      have hbyte : (writeBytes n (i + 1) (w / 256) (putByte a i w.toUInt8)).getD i 0 = w.toUInt8 := by
        rw [getD_writeBytes_of_ne _ _ _ _ _ (by omega), getD_putByte_self]
      rw [readBytes, writeBytes, ih _ _ _ hhigh, hbyte]
      apply UInt64.toNat_inj.mp
      have hlt := w.toNat_lt
      simp only [UInt64.toNat_add, UInt64.toNat_mul, UInt64.toNat_div, UInt8.toNat_toUInt64,
        UInt64.toNat_toUInt8, UInt64.reduceToNat]
      omega

/-- Only the bytes that are read matter. -/
theorem readBytes_congr {a a' : Array UInt8} (n i : Nat)
    (h : ∀ j, i ≤ j → j < i + n → a.getD j 0 = a'.getD j 0) : readBytes a n i = readBytes a' n i := by
  induction n generalizing i with
  | zero => rfl
  | succ n ih =>
      rw [readBytes, readBytes, h i (by omega) (by omega)]
      rw [ih (i + 1) fun j hj hj' => h j (by omega) (by omega)]

namespace Memory

@[simp]
theorem word_setWord_self (m : Memory) (i : Nat) (w : Word) : (m.setWord i w).word i = w := by
  rw [word, setWord, readBytes_writeBytes 8 i w.toUInt64 m.written w.toUInt64.toNat_lt]
  exact Int64.toInt64_toUInt64 w

theorem byte_setWord_of_disjoint {i j : Nat} (m : Memory) (w : Word) (h : j < i ∨ i + 8 ≤ j) :
    (m.setWord i w).byte j = m.byte j := by
  simp only [byte, setWord]
  exact getD_writeBytes_of_ne 8 i j w.toUInt64 m.written h

theorem word_setWord_of_disjoint {i j : Nat} (m : Memory) (w : Word) (h : j + 8 ≤ i ∨ i + 8 ≤ j) :
    (m.setWord i w).word j = m.word j := by
  have hbytes : readBytes (writeBytes 8 i w.toUInt64 m.written) 8 j = readBytes m.written 8 j := by
    apply readBytes_congr
    intro k hk hk'
    exact getD_writeBytes_of_ne 8 i k _ _ (by omega)
  rw [word, word, setWord, hbytes]

/-- An access within the memory is allowed. -/
theorem locate_ofInt {size i : Nat} (h : i + 8 ≤ size) (hsize : size < 2 ^ 62) :
    locate size (Int64.ofInt i) = .done i := by
  have hi : (Int64.ofInt i).toInt = i := Int64.toInt_ofInt_of_le (by omega) (by omega)
  have hend : (Int64.ofInt i + 8).toInt = i + 8 := by
    have height : (8 : Int64) = Int64.ofInt 8 := rfl
    rw [height, ← Int64.ofInt_add]
    exact Int64.toInt_ofInt_of_le (by omega) (by omega)
  simp only [locate, Int64.lt_iff_toInt_lt, hi, hend, Int64.toInt_zero]
  rw [if_neg (by omega), if_neg (by omega), if_neg (by omega), Int.toNat_natCast]

/-- The address of a slot within the memory. -/
theorem locate_addr {size : Nat} {b : Binding} (h : 8 * b.slot + 8 ≤ size) (hsize : size < 2 ^ 62) :
    locate size (Int64.ofInt b.addr) = .done (8 * b.slot) := by
  have haddr : b.addr = ((8 * b.slot : Nat) : Int) := by
    rw [Binding.addr, slotAddress, wordSize]
    omega
  rw [haddr]
  exact locate_ofInt h hsize

end Memory

/-! ## Locals -/

namespace Locals

@[simp]
theorem get?_set (ls : Locals) (name : Bytes) (v : Word) (x : Bytes) :
    (ls.set name v).get? x = if name = x then some v else ls.get? x := by
  induction ls with
  | nil =>
      by_cases h : name = x
      · simp [set, get?, h]
      · simp [set, get?, h, List.lookup_cons, beq_eq_false_iff_ne.mpr (Ne.symm h)]
  | cons p ls ih =>
      obtain ⟨k, w⟩ := p
      unfold get? at ih ⊢
      rw [set]
      by_cases hk : k = name
      · subst hk
        rw [if_pos rfl, List.lookup_cons, List.lookup_cons]
        by_cases h : k = x
        · simp [h]
        · simp [h, beq_eq_false_iff_ne.mpr (Ne.symm h)]
      · rw [if_neg hk, List.lookup_cons, List.lookup_cons, ih]
        by_cases h : x = k
        · subst h
          simp [Ne.symm hk]
        · simp [beq_eq_false_iff_ne.mpr h]

theorem get?_foldl_zero (names : List Bytes) (ls : Locals) (x : Bytes) :
    (names.foldl (fun (ls : Locals) name => ls.set name 0) ls).get? x =
      if x ∈ names then some 0 else ls.get? x := by
  induction names generalizing ls with
  | nil => simp
  | cons name names ih =>
      rw [List.foldl_cons, ih, get?_set]
      by_cases hx : x ∈ names
      · simp [hx]
      · by_cases hname : name = x
        · simp [hname]
        · simp [hx, hname, Ne.symm hname]

theorem get?_foldl_set (pairs : List (Bytes × Word)) (ls : Locals) (x : Bytes)
    (h : (pairs.map Prod.fst).Nodup) :
    (pairs.foldl (fun (ls : Locals) p => ls.set p.1 p.2) ls).get? x =
      (List.lookup x pairs).or (ls.get? x) := by
  induction pairs generalizing ls with
  | nil => rfl
  | cons p pairs ih =>
      obtain ⟨name, w⟩ := p
      rw [List.map_cons, List.nodup_cons] at h
      rw [List.foldl_cons, ih _ h.2, get?_set, List.lookup_cons]
      by_cases hx : x = name
      · subst hx
        have hnone : List.lookup x pairs = none := by
          rw [List.lookup_eq_none_iff]
          intro q hq
          rw [bne_iff_ne]
          rintro rfl
          exact h.1 (List.mem_map.mpr ⟨q, hq, rfl⟩)
        simp [hnone]
      · simp [beq_eq_false_iff_ne.mpr hx, Ne.symm hx]

/-- What a function finds in its locals at first: its parameters hold the
arguments, and its own locals zero. -/
theorem get?_start {f : Wat.Func} {args : List Word} (h : f.params.Nodup)
    (hlen : args.length = f.params.length) (x : Bytes) :
    (Locals.start f args).get? x =
      if x ∈ f.locals then some 0 else List.lookup x (f.params.zip args) := by
  have hkeys : (f.params.zip args).map Prod.fst = f.params :=
    List.map_fst_zip (by omega)
  rw [start, get?_foldl_zero, get?_foldl_set _ _ _ (by rw [hkeys]; exact h)]
  simp [get?]

end Locals

end Taglet.Machine
