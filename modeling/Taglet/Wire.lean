import Taglet.Bytes

/-!
# Taglet.Wire

The binary form of logged values: a head byte with a major type and a length
or value, the latter in the head itself below 24 and otherwise in 1, 2, 4 or
8 bytes, most significant first.
-/

namespace Taglet.Wire

/-- `n` in `count` bytes, most significant first. -/
def bigEndian : (count : Nat) → (n : Nat) → Bytes
  | 0, _ => []
  | k + 1, n => bigEndian k (n / 256) ++ [(n % 256).toUInt8]

/-- The head of an item: its major type and its length or value. -/
def head (major n : Nat) : Bytes :=
  let byte (low : Nat) : UInt8 := (major * 32 + low).toUInt8
  if n < 24 then [byte n]
  else if n < 0x100 then byte 24 :: bigEndian 1 n
  else if n < 0x10000 then byte 25 :: bigEndian 2 n
  else if n < 0x100000000 then byte 26 :: bigEndian 4 n
  else byte 27 :: bigEndian 8 n

/-- A natural number. -/
def nat (n : Nat) : Bytes :=
  head 0 n

/-- A text with its length in front. -/
def string (text : Bytes) : Bytes :=
  head 3 text.length ++ text

/-- A map of `entries` keys; keys and values follow. -/
def map (entries : Nat) : Bytes :=
  head 5 entries

/-- A list of unknown length: its items between the two marks. -/
def list (items : List Bytes) : Bytes :=
  0x9F :: items.flatten ++ [0xFF]

/-- The absent value. -/
def absent : Bytes :=
  [0xF6]

end Taglet.Wire
