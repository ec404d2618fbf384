import Mathlib.Logic.Basic
import Taglet.Proofs.Rendering

/-!
# Taglet.Proofs.Quoting

Quoted text inside of larger texts.

The reader of trees finds the end of a string by its closing quote, before it
looks at what the string says.  The two go together: what can be decoded has no
quote that would end it early (`quotable_of_decode?`), whatever escapes it is
written with.  Any text can be written so: it is enough to escape every byte
(`decode?_flatMap_encodeByte`).
-/

namespace Taglet.Wat

/-- A byte that means itself between quotes. -/
def Harmless (b : UInt8) : Prop :=
  b ≠ '"'.toUInt8 ∧ b ≠ '\\'.toUInt8

open Taglet.Quoted

theorem harmless_of_value {value? : UInt8 → Option Nat} (hquote : value? '"'.toUInt8 = none)
    (hbackslash : value? '\\'.toUInt8 = none) {b : UInt8} (hb : value? b ≠ none) : Harmless b :=
  ⟨fun h => hb (h ▸ hquote), fun h => hb (h ▸ hbackslash)⟩

theorem harmless_of_digits? {value? : UInt8 → Option Nat} (hquote : value? '"'.toUInt8 = none)
    (hbackslash : value? '\\'.toUInt8 = none) {base count acc n : Nat} {s : Bytes}
    (h : digits? value? base count acc s = some n) : ∀ b ∈ s.take count, Harmless b := by
  induction count generalizing acc s with
  | zero => simp
  | succ count ih =>
      cases s with
      | nil => simp
      | cons c s =>
          rw [digits?] at h
          split at h
          · next d hd =>
              intro b hb
              rcases List.mem_cons.mp hb with rfl | hb
              · exact harmless_of_value hquote hbackslash (by rw [hd]; simp)
              · exact ih h b hb
          · cases h

/-- A numeric escape and its length. -/
theorem harmless_of_numeral {value? : UInt8 → Option Nat} (hquote : value? '"'.toUInt8 = none)
    (hbackslash : value? '\\'.toUInt8 = none) {base count width k : Nat} {s bytes : Bytes}
    {make : Nat → Nat → Option (Bytes × Nat)}
    (hmake : ∀ {n bytes w}, make width n = some (bytes, w) → w = width)
    (h : digits? value? base count 0 s >>= make width = some (bytes, k)) :
    k = width ∧ ∀ b ∈ s.take count, Harmless b := by
  obtain ⟨n, hn, hbytes⟩ := Option.bind_eq_some_iff.mp h
  exact ⟨hmake hbytes, harmless_of_digits? hquote hbackslash hn⟩

theorem width_of_byteEscape {width n w : Nat} {bytes : Bytes}
    (h : byteEscape width n = some (bytes, w)) : w = width := by
  unfold byteEscape at h
  split at h
  · cases h
    rfl
  · cases h

theorem width_of_charEscape {width n w : Nat} {bytes : Bytes}
    (h : charEscape width n = some (bytes, w)) : w = width := by
  unfold charEscape at h
  split at h
  · cases h
    rfl
  · cases h

/-- After the byte that follows the backslash, an escape holds harmless bytes
only. -/
theorem escape?_spec {s bytes : Bytes} {width : Nat} (h : escape? s = some (bytes, width)) :
    ∃ e rest k, s = e :: rest ∧ width = k + 2 ∧ ∀ b ∈ rest.take k, Harmless b := by
  cases s with
  | nil => cases h
  | cons e rest =>
      rw [escape?] at h
      iterate 8
        rcases ite_eq_iff.mp h with ⟨_, h⟩ | ⟨_, h⟩
        · cases h
          exact ⟨e, rest, 0, rfl, rfl, by simp⟩
      rcases ite_eq_iff.mp h with ⟨_, h⟩ | ⟨_, h⟩
      · obtain ⟨rfl, hrest⟩ := harmless_of_numeral rfl rfl width_of_byteEscape h
        exact ⟨e, rest, 2, rfl, rfl, hrest⟩
      rcases ite_eq_iff.mp h with ⟨_, h⟩ | ⟨_, h⟩
      · obtain ⟨rfl, hrest⟩ := harmless_of_numeral rfl rfl width_of_charEscape h
        exact ⟨e, rest, 4, rfl, rfl, hrest⟩
      rcases ite_eq_iff.mp h with ⟨_, h⟩ | ⟨_, h⟩
      · obtain ⟨rfl, hrest⟩ := harmless_of_numeral rfl rfl width_of_charEscape h
        exact ⟨e, rest, 8, rfl, rfl, hrest⟩
      · obtain ⟨rfl, hrest⟩ := harmless_of_numeral rfl rfl width_of_byteEscape h
        exact ⟨e, rest, 2, rfl, rfl, fun b hb => hrest b (List.mem_cons_of_mem _ hb)⟩

theorem harmless_of_isContinuation {b : UInt8} (h : Utf8.isContinuation b = true) : Harmless b :=
  ⟨fun hb => absurd (hb ▸ h) (by decide), fun hb => absurd (hb ▸ h) (by decide)⟩

/-- The bytes that continue a character are harmless. -/
theorem first?_spec {b : UInt8} {s : Bytes} {c : Char} {width : Nat}
    (h : Utf8.first? (b :: s) = some (c, width)) : ∀ b ∈ s.take (width - 1), Harmless b := by
  unfold Utf8.first? at h
  dsimp only at h
  split at h
  · cases h
    simp
  -- two, three or four bytes
  split at h
  · split at h
    · next d s =>
        split at h
        · next hd =>
            obtain ⟨_, _, heq⟩ := Option.map_eq_some_iff.mp h
            cases heq
            simpa using harmless_of_isContinuation hd
        · cases h
    · cases h
  split at h
  · split at h
    · next d e s =>
        split at h
        · next hd =>
            obtain ⟨_, _, heq⟩ := Option.map_eq_some_iff.mp h
            cases heq
            rw [Bool.and_eq_true] at hd
            simpa using ⟨harmless_of_isContinuation hd.1, harmless_of_isContinuation hd.2⟩
        · cases h
    · cases h
  split at h
  · split at h
    · next d e f s =>
        split at h
        · next hd =>
            obtain ⟨_, _, heq⟩ := Option.map_eq_some_iff.mp h
            cases heq
            rw [Bool.and_eq_true, Bool.and_eq_true] at hd
            simpa using ⟨harmless_of_isContinuation hd.1.1, harmless_of_isContinuation hd.1.2,
              harmless_of_isContinuation hd.2⟩
        · cases h
    · cases h
  · cases h

/-- What is read at a time has no bare quote: it is an escape, or harmless
bytes follow its first one. -/
theorem unit?_spec {b : UInt8} {s bytes : Bytes} {width : Nat}
    (h : unit? (b :: s) = some (bytes, width)) :
    b ≠ '"'.toUInt8 ∧
      (b = '\\'.toUInt8 ∧
          (∃ e rest k, s = e :: rest ∧ width = k + 2 ∧ ∀ c ∈ rest.take k, Harmless c) ∨
        b ≠ '\\'.toUInt8 ∧ ∀ c ∈ s.take (width - 1), Harmless c) := by
  unfold unit? at h
  dsimp only at h
  split at h
  · cases h
  · next hb =>
      refine ⟨fun hquote => hb (.inr hquote), ?_⟩
      split at h
      · next hbackslash => exact .inl ⟨hbackslash, escape?_spec h⟩
      · next hbackslash =>
          refine .inr ⟨hbackslash, ?_⟩
          split at h
          · next hfirst =>
              cases h
              exact first?_spec hfirst
          · cases h
            simp

/-- What can be decoded can stand between quotes. -/
theorem quotable_of_decodeFrom {k : Nat} {s t : Bytes} (h : decodeFrom k s = some t)
    (hk : ∀ b ∈ s.take k, Harmless b) : Quotable false s := by
  match k, s with
  | _, [] => rfl
  | k + 1, b :: s =>
      rw [decodeFrom] at h
      obtain ⟨hquote, hbackslash⟩ := hk b (by simp)
      have hs := quotable_of_decodeFrom h fun c hc => hk c (by simp [hc])
      rw [Quotable, beq_eq_false_iff_ne.mpr hbackslash]
      exact ⟨hquote, hs⟩
  | 0, b :: s =>
      rw [decodeFrom] at h
      split at h
      · cases h
      · next bytes width hunit =>
          obtain ⟨u, hu, -⟩ := Option.map_eq_some_iff.mp h
          obtain ⟨hquote, ⟨rfl, e, rest, k, rfl, rfl, hrest⟩ | ⟨hbackslash, hrest⟩⟩ :=
            unit?_spec hunit
          · exact ⟨hquote, quotable_of_decodeFrom hu hrest⟩
          · rw [Quotable, beq_eq_false_iff_ne.mpr hbackslash]
            exact ⟨hquote, quotable_of_decodeFrom hu hrest⟩
termination_by s.length

theorem quotable_of_decode? {s t : Bytes} (h : decode? s = some t) : Quotable false s :=
  quotable_of_decodeFrom h (by simp)

/-! ## Quoting every byte -/

theorem hexValue?_hexDigit : ∀ n < 16, hexValue? (hexDigit n) = some n := by
  decide

/-- An escaped byte is read back. -/
theorem decodeFrom_encodeByte (b : UInt8) (s : Bytes) :
    decodeFrom 0 (encodeByte b ++ s) = (decodeFrom 0 s).map (b :: ·) := by
  have hhigh : b.toNat / 16 % 16 < 16 := Nat.mod_lt _ (by decide)
  have hlow : b.toNat % 16 < 16 := Nat.mod_lt _ (by decide)
  have hvalue : (0 * 16 + b.toNat / 16 % 16) * 16 + b.toNat % 16 = b.toNat := by
    have hb := b.toNat_lt
    omega
  have hunit : unit? (encodeByte b ++ s) = some ([b], 4) := by
    show digits? hexValue? 16 2 0
      (hexDigit (b.toNat / 16 % 16) :: hexDigit (b.toNat % 16) :: s) >>= byteEscape 4 = _
    simp only [digits?, hexValue?_hexDigit _ hhigh, hexValue?_hexDigit _ hlow, hvalue]
    simp [byteEscape, b.toNat_lt]
  have hescape : encodeByte b ++ s =
      92 :: 120 :: hexDigit (b.toNat / 16 % 16) :: hexDigit (b.toNat % 16) :: s := rfl
  rw [hescape, decodeFrom, ← hescape, hunit]
  rfl

/-- Escaping every byte is a way of quoting any text. -/
theorem decode?_flatMap_encodeByte (s : Bytes) : decode? (s.flatMap encodeByte) = some s := by
  unfold decode?
  induction s with
  | nil => rfl
  | cons b s ih => rw [List.flatMap_cons, decodeFrom_encodeByte, ih, Option.map_some]

end Taglet.Wat
