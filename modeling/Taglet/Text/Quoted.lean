import Taglet.Text.Printable
import Taglet.Text.Utf8

/-!
# Taglet.Text.Quoted

Double-quoted text.  `encode` writes any bytes between quotes: printable
characters stand as they are, the quote and the backslash are escaped, and
everything else becomes an escape sequence.  `decode?` reads what stands
between two quotes back; it also accepts octal escapes, and refuses a raw
line break and any escape it does not know.
-/

namespace Taglet.Quoted

/-! ## Writing -/

/-- The letter that escapes a control character, if it has one. -/
def escapeLetter? (c : Char) : Option Char :=
  if c = '\x07' then some 'a'
  else if c = '\x08' then some 'b'
  else if c = '\x0c' then some 'f'
  else if c = '\n' then some 'n'
  else if c = '\r' then some 'r'
  else if c = '\t' then some 't'
  else if c = '\x0b' then some 'v'
  else none

/-- One character as it stands inside quotes. -/
def encodeChar (c : Char) : Bytes :=
  if c = '"' ∨ c = '\\' then '\\'.toUInt8 :: Utf8.ofChar c
  else if Printable.isPrintable c then Utf8.ofChar c
  else
    match escapeLetter? c with
    | some l => ['\\'.toUInt8, l.toUInt8]
    | none =>
      if c.toNat < 0x80 then utf8 "\\x" ++ hex 2 c.toNat
      else if c.toNat < 0x10000 then utf8 "\\u" ++ hex 4 c.toNat
      else utf8 "\\U" ++ hex 8 c.toNat

/-- A byte that begins no character, as it stands inside quotes. -/
def encodeByte (b : UInt8) : Bytes :=
  utf8 "\\x" ++ hex 2 b.toNat

/-- The inside of a quoted text.  `skip` bytes belong to a character that is
written already. -/
def encodeFrom : (skip : Nat) → Bytes → Bytes
  | _, [] => []
  | k + 1, _ :: rest => encodeFrom k rest
  | 0, b :: rest =>
    match Utf8.first? (b :: rest) with
    | some (c, width) => encodeChar c ++ encodeFrom (width - 1) rest
    | none => encodeByte b ++ encodeFrom 0 rest

/-- A byte text in double quotes. -/
def encode (text : Bytes) : Bytes :=
  '"'.toUInt8 :: encodeFrom 0 text ++ ['"'.toUInt8]

/-- A string in double quotes. -/
def ofString (s : String) : Bytes :=
  encode (utf8 s)

/-! ## Reading -/

/-- The value of a hexadecimal digit of either case. -/
def hexValue? (b : UInt8) : Option Nat :=
  if '0'.toUInt8 ≤ b ∧ b ≤ '9'.toUInt8 then some (b.toNat - 48)
  else if 'a'.toUInt8 ≤ b ∧ b ≤ 'f'.toUInt8 then some (b.toNat - 87)
  else if 'A'.toUInt8 ≤ b ∧ b ≤ 'F'.toUInt8 then some (b.toNat - 55)
  else none

/-- The value of an octal digit. -/
def octalValue? (b : UInt8) : Option Nat :=
  if '0'.toUInt8 ≤ b ∧ b ≤ '7'.toUInt8 then some (b.toNat - 48) else none

/-- The value of exactly `count` digits at the front of a text. -/
def digits? (value? : UInt8 → Option Nat) (base : Nat) :
    (count : Nat) → (acc : Nat) → Bytes → Option Nat
  | 0, acc, _ => some acc
  | _ + 1, _, [] => none
  | k + 1, acc, b :: rest =>
    match value? b with
    | some d => digits? value? base k (acc * base + d) rest
    | none => none

/-- A byte given by an escape: its bytes and how long the escape is. -/
def byteEscape (width : Nat) (n : Nat) : Option (Bytes × Nat) :=
  if n < 256 then some ([n.toUInt8], width) else none

/-- A character given by an escape: its bytes and how long the escape is. -/
def charEscape (width : Nat) (n : Nat) : Option (Bytes × Nat) :=
  if n.isValidChar then some (Utf8.ofChar (Char.ofNat n), width) else none

/-- The bytes that an escape stands for, and its length with the backslash.
The text begins after the backslash. -/
def escape? : Bytes → Option (Bytes × Nat)
  | [] => none
  | e :: rest =>
    if e = 'a'.toUInt8 then some ([7], 2)
    else if e = 'b'.toUInt8 then some ([8], 2)
    else if e = 'f'.toUInt8 then some ([12], 2)
    else if e = 'n'.toUInt8 then some ([10], 2)
    else if e = 'r'.toUInt8 then some ([13], 2)
    else if e = 't'.toUInt8 then some ([9], 2)
    else if e = 'v'.toUInt8 then some ([11], 2)
    else if e = '\\'.toUInt8 ∨ e = '"'.toUInt8 then some ([e], 2)
    else if e = 'x'.toUInt8 then digits? hexValue? 16 2 0 rest >>= byteEscape 4
    else if e = 'u'.toUInt8 then digits? hexValue? 16 4 0 rest >>= charEscape 6
    else if e = 'U'.toUInt8 then digits? hexValue? 16 8 0 rest >>= charEscape 10
    else digits? octalValue? 8 3 0 (e :: rest) >>= byteEscape 4

/-- The bytes that the front of a quoted text stands for, and how many bytes
of the text say so.  A byte that begins no character is read as the
replacement character. -/
def unit? : Bytes → Option (Bytes × Nat)
  | [] => none
  | b :: rest =>
    if b = '\n'.toUInt8 ∨ b = '"'.toUInt8 then none
    else if b = '\\'.toUInt8 then escape? rest
    else
      match Utf8.first? (b :: rest) with
      | some (c, width) => some (Utf8.ofChar c, width)
      | none => some (Utf8.ofChar '�', 1)

/-- Read the inside of a quoted text.  `skip` bytes are read already. -/
def decodeFrom : (skip : Nat) → Bytes → Option Bytes
  | _, [] => some []
  | k + 1, _ :: rest => decodeFrom k rest
  | 0, b :: rest =>
    match unit? (b :: rest) with
    | none => none
    | some (bytes, width) => (decodeFrom (width - 1) rest).map (bytes ++ ·)

/-- The bytes that stand for the inside of a quoted text. -/
def decode? (inside : Bytes) : Option Bytes :=
  decodeFrom 0 inside

end Taglet.Quoted
