import Mathlib.Data.Nat.Digits.Defs
import Taglet.Proofs.Runs
import Taglet.Proofs.Storage

/-!
# Taglet.Proofs.MemoryAccess

Loads and stores at any address.

An address is a word, and so is the end of the eight bytes it stands for.
While the end is still a word, an access is checked against the size of the
memory as exact integers are compared (`Memory.locate_eq_done`,
`Memory.locate_eq_outOfBounds`).  At the last eight addresses it is not a word
any more, and there an access is neither done nor found to be out of bounds
(`Memory.locate_eq_wraps`).  So accesses are as they should be
(`Config.ChecksAccess`) at all addresses but those.
-/

namespace Taglet.Machine

open Wat

/-! ## Words as bytes -/

/-- The number whose digits to base 256 are some bytes, lowest first. -/
def littleEndian (bs : Bytes) : Nat :=
  Nat.ofDigits 256 (bs.map UInt8.toNat)

@[simp]
theorem littleEndian_nil : littleEndian [] = 0 := rfl

theorem littleEndian_cons (b : UInt8) (bs : Bytes) :
    littleEndian (b :: bs) = b.toNat + 256 * littleEndian bs := by
  simp [littleEndian, Nat.ofDigits_cons]

theorem littleEndian_lt (bs : Bytes) : littleEndian bs < 256 ^ bs.length := by
  have hdigits : ∀ d ∈ bs.map UInt8.toNat, d < 256 := by
    intro d hd
    obtain ⟨b, _, rfl⟩ := List.mem_map.mp hd
    exact b.toNat_lt
  simpa [littleEndian] using Nat.ofDigits_lt_base_pow_length (by decide) hdigits

/-- Bytes that are read make the number they are the digits of. -/
theorem toNat_readBytes (a : Array UInt8) {n : Nat} (i : Nat) (hn : n ≤ 8) :
    (readBytes a n i).toNat = littleEndian ((List.range' i n).map fun j => a.getD j 0) := by
  induction n generalizing i with
  | zero => rfl
  | succ n ih =>
      have hrest := ih (i + 1) (by omega)
      -- there is room for one byte more below the rest
      have hroom := littleEndian_lt ((List.range' (i + 1) n).map fun j => a.getD j 0)
      rw [← hrest, List.length_map, List.length_range'] at hroom
      have hpow : 256 ^ n ≤ 256 ^ 7 := Nat.pow_le_pow_right (by decide) (by omega)
      have hbyte := (a.getD i 0).toNat_lt
      rw [List.range'_succ, List.map_cons, littleEndian_cons, ← hrest, readBytes,
        UInt64.toNat_add, UInt64.toNat_mul, UInt8.toNat_toUInt64]
      simp only [UInt64.reduceToNat]
      omega

namespace Memory

/-- The word at a place is made of the eight bytes there. -/
theorem toNat_word {mem : Memory} {i : Nat} (h : i + 8 ≤ mem.size) :
    (mem.word i).toUInt64.toNat = littleEndian (mem.slice i 8) := by
  have hmin : min 8 (mem.size - i) = 8 := by omega
  rw [word, slice, hmin]
  exact toNat_readBytes mem.written i le_rfl

/-! ## Addresses -/

/-- The eight bytes from an address on lie in the memory. -/
def InBounds (mem : Memory) (addr : Word) : Prop :=
  0 ≤ addr.toInt ∧ addr.toInt + 8 ≤ mem.size

variable {mem : Memory} {addr : Word}

theorem toInt_add_eight (h : addr.toInt + 8 < 2 ^ 63) : (addr + 8).toInt = addr.toInt + 8 := by
  have hle := addr.le_toInt
  rw [Int64.toInt_add]
  exact Int.bmod_eq_of_le (by simp; omega) (by simp; omega)

theorem locate_eq_done (h : mem.InBounds addr) (hend : addr.toInt + 8 < 2 ^ 63) :
    locate mem.size addr = .done addr.toInt.toNat := by
  obtain ⟨hlow, hhigh⟩ := h
  simp only [locate, Int64.lt_iff_toInt_lt, toInt_add_eight hend, Int64.toInt_zero]
  rw [if_neg (by omega), if_neg (by omega), if_neg (by omega)]

theorem locate_eq_outOfBounds (h : ¬ mem.InBounds addr) (hend : addr.toInt + 8 < 2 ^ 63) :
    locate mem.size addr = .outOfBounds := by
  simp only [InBounds, not_and_or] at h
  simp only [locate, Int64.lt_iff_toInt_lt, toInt_add_eight hend, Int64.toInt_zero]
  by_cases hlow : addr.toInt < 0
  · rw [if_pos hlow]
  · rw [if_neg hlow, if_neg (by omega), if_pos (by omega)]

/-- The end of the access is not a word. -/
theorem locate_eq_wraps (size : Nat) (hend : 2 ^ 63 ≤ addr.toInt + 8) :
    locate size addr = .wraps := by
  have hlt := addr.toInt_lt
  have hwrapped : (addr + 8).toInt < 0 := by
    have height : (8 : Word).toInt = 8 := rfl
    rw [Int64.toInt_add, height, Int.bmod_def]
    omega
  simp only [locate, Int64.lt_iff_toInt_lt, Int64.toInt_zero]
  rw [if_neg (by omega), if_pos hwrapped]

/-! ## Words in the memory -/

/-- Just the eight bytes from an address on were replaced, by those of a word. -/
structure Stored (mem : Memory) (addr w : Word) (mem' : Memory) : Prop where
  size_eq : mem'.size = mem.size
  bytes_eq : littleEndian (mem'.slice addr.toInt.toNat 8) = w.toUInt64.toNat
  byte_eq : ∀ {i : Nat}, (i : Int) < addr.toInt ∨ addr.toInt + 8 ≤ i → mem'.byte i = mem.byte i
  load_self : mem'.load addr = .done w
  load_disjoint : ∀ {other : Word}, other.toInt + 8 ≤ addr.toInt ∨ addr.toInt + 8 ≤ other.toInt →
    mem'.load other = mem.load other

/-- An access at an address whose bytes are disjoint from a word that is put in
the memory. -/
theorem load_setWord_of_disjoint {i : Nat} (mem : Memory) (w : Word)
    (h : addr.toInt + 8 ≤ i ∨ (i : Int) + 8 ≤ addr.toInt) :
    (mem.setWord i w).load addr = mem.load addr := by
  rw [load, load, size_setWord]
  by_cases hend : addr.toInt + 8 < 2 ^ 63
  · by_cases hin : mem.InBounds addr
    · have hlow := hin.1
      rw [locate_eq_done hin hend, Access.map, Access.map,
        word_setWord_of_disjoint mem w (by omega)]
    · rw [locate_eq_outOfBounds hin hend, Access.map, Access.map]
  · rw [locate_eq_wraps _ (by omega), Access.map, Access.map]

theorem stored_setWord (w : Word) (h : mem.InBounds addr) (hend : addr.toInt + 8 < 2 ^ 63) :
    mem.Stored addr w (mem.setWord addr.toInt.toNat w) := by
  obtain ⟨hlow, hhigh⟩ := h
  constructor
  · exact size_setWord mem _ w
  · rw [← toNat_word (by rw [size_setWord]; omega), word_setWord_self]
  · intro i hi
    exact byte_setWord_of_disjoint mem w (by omega)
  · rw [load, size_setWord, locate_eq_done ⟨hlow, hhigh⟩ hend, Access.map, word_setWord_self]
  · intro other hother
    exact load_setWord_of_disjoint mem w (by omega)

end Memory

/-! ## Instructions -/

variable {σ ε : Type}

/-- With the address (and the word to be stored) computed, a load gives the
word at the address and a store puts the word there, if its bytes lie in the
memory; if not, either fails as out of bounds and nothing changes. -/
structure Config.ChecksAccess (m : Linked σ ε) (st : State σ) (addr w : Word) : Prop where
  loads : st.memory.InBounds addr → ∃ v : Word,
    v.toUInt64.toNat = littleEndian (st.memory.slice addr.toInt.toNat 8) ∧
    ∀ stack ls, (⟨.ended (.value addr), .load :: stack, ls, st⟩ : Config σ ε).step m =
      ⟨.ended (.value v), stack, ls, st⟩
  refusesLoad : ¬ st.memory.InBounds addr →
    ∀ stack ls, (⟨.ended (.value addr), .load :: stack, ls, st⟩ : Config σ ε).step m =
      ⟨.ended (.failed ⟨[.load addr], .outOfBounds⟩), stack, ls, st⟩
  stores : st.memory.InBounds addr → ∃ mem', st.memory.Stored addr w mem' ∧
    ∀ stack ls, (⟨.ended (.value w), .storeAt addr :: stack, ls, st⟩ : Config σ ε).step m =
      ⟨.ended (.value 0), stack, ls, { st with memory := mem' }⟩
  refusesStore : ¬ st.memory.InBounds addr →
    ∀ stack ls, (⟨.ended (.value w), .storeAt addr :: stack, ls, st⟩ : Config σ ε).step m =
      ⟨.ended (.failed ⟨[.store addr], .outOfBounds⟩), stack, ls, st⟩

namespace Config

variable {m : Linked σ ε} {stack : List Task} {ls : Locals} {st : State σ} {addr w : Word}

theorem step_load_outOfBounds (h : Memory.locate st.memory.size addr = .outOfBounds) :
    (⟨.ended (.value addr), .load :: stack, ls, st⟩ : Config σ ε).step m =
      ⟨.ended (.failed ⟨[.load addr], .outOfBounds⟩), stack, ls, st⟩ := by
  simp only [Config.step, Config.settle, Config.resume, Config.load, Memory.load, h, Access.map,
    Config.failAt, Config.finish]

theorem step_load_wraps (h : Memory.locate st.memory.size addr = .wraps) :
    (⟨.ended (.value addr), .load :: stack, ls, st⟩ : Config σ ε).step m =
      ⟨.ended (.failed ⟨[], .addressWraps⟩), stack, ls, st⟩ := by
  simp only [Config.step, Config.settle, Config.resume, Config.load, Memory.load, h, Access.map,
    Config.failAt, Config.finish]

theorem step_storeAt_outOfBounds (h : Memory.locate st.memory.size addr = .outOfBounds) :
    (⟨.ended (.value w), .storeAt addr :: stack, ls, st⟩ : Config σ ε).step m =
      ⟨.ended (.failed ⟨[.store addr], .outOfBounds⟩), stack, ls, st⟩ := by
  simp only [Config.step, Config.settle, Config.resume, Config.store, h, Config.failAt,
    Config.finish]

theorem step_storeAt_wraps (h : Memory.locate st.memory.size addr = .wraps) :
    (⟨.ended (.value w), .storeAt addr :: stack, ls, st⟩ : Config σ ε).step m =
      ⟨.ended (.failed ⟨[], .addressWraps⟩), stack, ls, st⟩ := by
  simp only [Config.step, Config.settle, Config.resume, Config.store, h, Config.failAt,
    Config.finish]

/-- While the end of an access is a word, the check is exact. -/
theorem checksAccess_of_lt (m : Linked σ ε) (st : State σ) (w : Word)
    (hend : addr.toInt + 8 < 2 ^ 63) : ChecksAccess m st addr w where
  loads h := by
    refine ⟨st.memory.word addr.toInt.toNat, Memory.toNat_word ?_, fun stack ls => step_load ?_⟩
    · obtain ⟨hlow, hhigh⟩ := h
      omega
    · rw [Memory.load, Memory.locate_eq_done h hend, Access.map]
  refusesLoad h _ _ := step_load_outOfBounds (Memory.locate_eq_outOfBounds h hend)
  stores h :=
    ⟨_, Memory.stored_setWord w h hend, fun _ _ => step_storeAt (Memory.locate_eq_done h hend)⟩
  refusesStore h _ _ := step_storeAt_outOfBounds (Memory.locate_eq_outOfBounds h hend)

/-- An access whose end wraps around is not checked. -/
theorem not_checksAccess (m : Linked σ ε) (st : State σ) (w : Word)
    (hend : 2 ^ 63 ≤ addr.toInt + 8) : ¬ ChecksAccess m st addr w := by
  intro h
  have hwraps : (⟨.ended (.value addr), [.load], [], st⟩ : Config σ ε).step m =
      ⟨.ended (.failed ⟨[], .addressWraps⟩), [], [], st⟩ :=
    step_load_wraps (Memory.locate_eq_wraps st.memory.size hend)
  by_cases hin : st.memory.InBounds addr
  · obtain ⟨v, _, hload⟩ := h.loads hin
    rw [hload] at hwraps
    cases hwraps
  · rw [h.refusesLoad hin] at hwraps
    cases hwraps

/-- **Which accesses are checked**: those at all addresses but the last eight.
There the end of the access wraps around, and neither a load nor a store is
done or refused. -/
theorem checksAccess_iff (m : Linked σ ε) (st : State σ) (addr w : Word) :
    (ChecksAccess m st addr w ↔ addr.toInt + 8 < 2 ^ 63) ∧
    (2 ^ 63 ≤ addr.toInt + 8 → ∀ stack ls,
      (⟨.ended (.value addr), .load :: stack, ls, st⟩ : Config σ ε).step m =
        ⟨.ended (.failed ⟨[], .addressWraps⟩), stack, ls, st⟩ ∧
      (⟨.ended (.value w), .storeAt addr :: stack, ls, st⟩ : Config σ ε).step m =
        ⟨.ended (.failed ⟨[], .addressWraps⟩), stack, ls, st⟩) := by
  constructor
  · constructor
    · intro h
      by_contra hend
      exact not_checksAccess m st w (by omega) h
    · exact checksAccess_of_lt m st w
  · intro hend stack ls
    have hwraps := Memory.locate_eq_wraps st.memory.size hend
    exact ⟨step_load_wraps hwraps, step_storeAt_wraps hwraps⟩

/-- The last address of all, with a page of memory. -/
theorem lastAddress_unchecked :
    ¬ ChecksAccess ({ code := {}, procedures := [] } : Linked Unit Unit)
      { memory := .zeros 65536, world := () } Int64.maxValue 0 :=
  not_checksAccess _ _ _ (by decide)

end Config

end Taglet.Machine
