/-!
# Taglet.Bytes

Every text the compiler reads or writes is a list of bytes.  Names of a
program are Unicode strings; `utf8` carries them into texts, injectively and
compatibly with concatenation, so nothing is lost on the way out.

This module depends only on the Lean 4 core library.
-/

namespace Taglet

/-- A text as a list of bytes. -/
abbrev Bytes := List UInt8

/-! ## Strings as bytes -/

/-- The UTF-8 bytes of a string. -/
def utf8 (s : String) : Bytes :=
  s.toUTF8.data.toList

@[simp]
theorem utf8_empty : utf8 "" = [] := rfl

@[simp]
theorem utf8_append (s t : String) : utf8 (s ++ t) = utf8 s ++ utf8 t := by
  simp [utf8]

/-- Different strings have different bytes. -/
theorem utf8_injective {s t : String} (h : utf8 s = utf8 t) : s = t := by
  have hb : s.toByteArray = t.toByteArray := by
    apply ByteArray.ext
    exact Array.toList_inj.mp h
  exact String.toByteArray_inj.mp hb

/-- Strings are told apart by their bytes. -/
@[simp]
theorem utf8_inj {s t : String} : utf8 s = utf8 t ↔ s = t :=
  ⟨utf8_injective, congrArg utf8⟩

/-! ## Hexadecimal digits -/

/-- The lower-case hexadecimal digit of `n`, for `n < 16`. -/
def hexDigit (n : Nat) : UInt8 :=
  if n < 10 then (48 + n).toUInt8 else (87 + n).toUInt8

/-- `n` in hexadecimal, lower case, on exactly `width` digits. -/
def hex : (width : Nat) → (n : Nat) → Bytes
  | 0, _ => []
  | k + 1, n => hex k (n / 16) ++ [hexDigit (n % 16)]

/-! ## Labels -/

/-- `text` under a label: `label: text`.  An empty label leaves no mark. -/
def labelled (label text : Bytes) : Bytes :=
  if label.isEmpty then text else label ++ utf8 ": " ++ text

end Taglet
