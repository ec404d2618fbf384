import Taglet.Bytes

/-!
# Taglet.Text.Numeral

Reading integers from text.  Two forms are in use:

* a *plain* numeral, `Numeral.decimal`: an optional sign and decimal digits;
* a *literal*, `Numeral.literal`: an optional sign, then `0x`, `0o` or `0b`
  (in either case), a leading `0` for octal, or decimal digits.  Underscores
  may separate digits, and may follow the base.

Digits are read from the left and reading stops at the first one that takes
the value past 64 bits, so a numeral that is both too long and badly formed
further on is out of range.
-/

namespace Taglet.Numeral

/-- Why a text is not an integer of 64 bits. -/
inductive Error where
  | malformed
  | outOfRange
deriving Repr, DecidableEq

/-- The wording of the two errors. -/
def Error.text : Error → String
  | .malformed => "invalid syntax"
  | .outOfRange => "value out of range"

/-! ## Digits -/

/-- The value of a byte as a digit: `0`-`9`, then letters of either case. -/
def digit? (b : UInt8) : Option Nat :=
  if '0'.toUInt8 ≤ b ∧ b ≤ '9'.toUInt8 then some (b.toNat - 48)
  else if 'a'.toUInt8 ≤ b ∧ b ≤ 'z'.toUInt8 then some (b.toNat - 87)
  else if 'A'.toUInt8 ≤ b ∧ b ≤ 'Z'.toUInt8 then some (b.toNat - 55)
  else none

/-- Is the byte an underscore, which may separate digits of a literal? -/
def isUnderscore (b : UInt8) : Bool :=
  b == '_'.toUInt8

/-- The digits of `text` in the given base, after digits worth `value`.
Underscores are passed over where they may separate digits. -/
def magnitude (base : Nat) (separators : Bool) : (value : Nat) → (text : Bytes) → Except Error Nat
  | value, [] => .ok value
  | value, b :: text =>
    if separators && isUnderscore b then
      magnitude base separators value text
    else
      match digit? b with
      | none => .error .malformed
      | some d =>
        if base ≤ d then .error .malformed
        else if 0x10000000000000000 ≤ value * base + d then .error .outOfRange
        else magnitude base separators (value * base + d) text

/-! ## Bases -/

/-- The base that a letter after a leading zero announces. -/
def baseOfLetter? (b : UInt8) : Option Nat :=
  if b = 'x'.toUInt8 ∨ b = 'X'.toUInt8 then some 16
  else if b = 'o'.toUInt8 ∨ b = 'O'.toUInt8 then some 8
  else if b = 'b'.toUInt8 ∨ b = 'B'.toUInt8 then some 2
  else none

/-- The base of an unsigned literal and the digits that follow its marker.
A base letter needs something after it; otherwise a leading zero alone
announces octal. -/
def baseAndDigits : Bytes → Nat × Bytes
  | z :: text =>
    if z = '0'.toUInt8 then
      match text with
      | letter :: d :: digits =>
        match baseOfLetter? letter with
        | some base => (base, d :: digits)
        | none => (8, text)
      | _ => (8, text)
    else (10, z :: text)
  | [] => (10, [])

/-! ## Underscores -/

/-- What stands before a byte of a literal, as far as underscores care. -/
inductive Before where
  | start
  | digit
  | underscore
  | other
deriving DecidableEq

/-- Does every underscore of `text` stand after a digit (or base marker) and
before a digit? -/
def separatorsOk (hexadecimal : Bool) : (before : Before) → (text : Bytes) → Bool
  | before, [] => before != .underscore
  | before, b :: text =>
    match digit? b with
    | some d =>
      if d < 10 ∨ (hexadecimal ∧ d < 16) then separatorsOk hexadecimal .digit text
      else before != .underscore && separatorsOk hexadecimal .other text
    | none =>
      if isUnderscore b then
        before == .digit && separatorsOk hexadecimal .underscore text
      else before != .underscore && separatorsOk hexadecimal .other text

/-- Are the underscores of an unsigned literal well placed?  A base marker
counts as a digit. -/
def underscoresOk : Bytes → Bool
  | z :: letter :: text =>
    match if z = '0'.toUInt8 then baseOfLetter? letter else none with
    | some base => separatorsOk (base == 16) .digit text
    | none => separatorsOk false .start (z :: letter :: text)
  | text => separatorsOk false .start text

/-! ## Unsigned and signed numerals -/

/-- An unsigned literal below `2 ^ 64`. -/
def unsignedLiteral (text : Bytes) : Except Error Nat :=
  if text.isEmpty then .error .malformed
  else
    let (base, digits) := baseAndDigits text
    match magnitude base true 0 digits with
    | .error e => .error e
    | .ok n =>
      if text.any isUnderscore && !underscoresOk text then .error .malformed
      else .ok n

/-- Unsigned digits in a fixed base, below `2 ^ 64`. -/
def unsigned (base : Nat) (text : Bytes) : Except Error Nat :=
  if text.isEmpty then .error .malformed else magnitude base false 0 text

/-- Split an optional sign off the front of a numeral. -/
def sign : Bytes → Bool × Bytes
  | b :: text =>
    if b = '-'.toUInt8 then (true, text)
    else if b = '+'.toUInt8 then (false, text)
    else (false, b :: text)
  | [] => (false, [])

/-- The signed word of a magnitude, if it fits in 64 bits. -/
def signed (negative : Bool) (n : Nat) : Except Error Int64 :=
  if negative then
    if n ≤ 0x8000000000000000 then .ok (Int64.ofInt (-n)) else .error .outOfRange
  else
    if n < 0x8000000000000000 then .ok (Int64.ofInt n) else .error .outOfRange

/-- A signed literal: the base is read off the text. -/
def literal (text : Bytes) : Except Error Int64 :=
  match sign text with
  | (negative, digits) => unsignedLiteral digits >>= signed negative

/-- Signed digits in a fixed base. -/
def inBase (base : Nat) (text : Bytes) : Except Error Int64 :=
  match sign text with
  | (negative, digits) => unsigned base digits >>= signed negative

/-- A signed decimal numeral. -/
def decimal (text : Bytes) : Except Error Int64 :=
  inBase 10 text

end Taglet.Numeral
