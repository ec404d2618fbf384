import Taglet.Bytes

/-!
# Taglet.Text.Utf8

The first character of a byte text, and the bytes of one character.  Only
the shortest encodings of Unicode scalar values are characters; at any other
byte there is none.
-/

namespace Taglet.Utf8

/-- Is the byte one that continues a character? -/
def isContinuation (b : UInt8) : Bool :=
  0x80 ≤ b && b < 0xC0

/-- The character with code point `n`, unless a shorter encoding exists
(`n < least`) or `n` is no scalar value. -/
def scalar? (least n : Nat) : Option Char :=
  if least ≤ n ∧ n.isValidChar then some (Char.ofNat n) else none

/-- The character at the front of a text and how many bytes it takes. -/
def first? : Bytes → Option (Char × Nat)
  | [] => none
  | a :: rest =>
    if a < 0x80 then some (Char.ofNat a.toNat, 1)
    else if 0xC0 ≤ a ∧ a < 0xE0 then
      match rest with
      | b :: _ =>
        if isContinuation b then
          (scalar? 0x80 (a.toNat % 32 * 64 + b.toNat % 64)).map (·, 2)
        else none
      | _ => none
    else if 0xE0 ≤ a ∧ a < 0xF0 then
      match rest with
      | b :: c :: _ =>
        if isContinuation b && isContinuation c then
          (scalar? 0x800 (a.toNat % 16 * 4096 + b.toNat % 64 * 64 + c.toNat % 64)).map (·, 3)
        else none
      | _ => none
    else if 0xF0 ≤ a ∧ a < 0xF8 then
      match rest with
      | b :: c :: d :: _ =>
        if isContinuation b && isContinuation c && isContinuation d then
          (scalar? 0x10000
            (a.toNat % 8 * 262144 + b.toNat % 64 * 4096 + c.toNat % 64 * 64 + d.toNat % 64)).map
            (·, 4)
        else none
      | _ => none
    else none

/-- The bytes of one character. -/
def ofChar (c : Char) : Bytes :=
  String.utf8EncodeChar c

end Taglet.Utf8
