import Taglet.Bytes
import Taglet.Yaml.Scalar

/-!
# Taglet.Yaml.Token

The tokens of a document, and the readers of those that have a form of their
own: names of anchors, tags and directives.
-/

namespace Taglet.Yaml

/-- What a token is.  Marks that indentation stands for are tokens too. -/
inductive TokenKind where
  | streamStart
  /-- The version a document is written for. -/
  | version (major minor : Nat)
  /-- What a handle stands for in tags. -/
  | handle (name : String) (stands : Bytes)
  | docStart
  | docEnd
  | streamEnd
  /-- What follows cannot be divided into tokens. -/
  | broken
  | blockSeq
  | blockMap
  | blockEnd
  | flowSeq
  | flowSeqEnd
  | flowMap
  | flowMapEnd
  | flowEntry
  | blockEntry
  | key
  | value
  | reference (name : String)
  | anchor (name : String)
  | tag (handle : String) (suffix : Bytes)
  | scalar (plain : Bool) (text : String)
deriving Repr, DecidableEq

/-- A token and the line it starts on, counted from zero. -/
structure Token where
  kind : TokenKind
  line : Nat
deriving Repr, DecidableEq

/-! ## Anchors -/

/-- The name of an anchor or alias, after its indicator. -/
def anchorName (c : Cursor) : Except Malformed (String × Cursor) := do
  let (name, c) ← c.span isNameChar
  let ends := atGap c.rest || (c.peek?.any fun x => x ∈ "?:,]\x7d%@\x60".toList)
  if name.isEmpty || !ends then .error .malformed else return (String.ofList name, c)

/-! ## Tags -/

/-- May the character stand in a tag as it is? -/
def isTagChar (c : Char) : Bool :=
  isNameChar c || c ∈ ";/?:@&=+$,.!~*'()[]".toList

/-- The length of the character that starts with a byte. -/
def charLength? (b : Nat) : Option Nat :=
  if b < 0x80 then some 1
  else if 0xc0 ≤ b && b < 0xe0 then some 2
  else if 0xe0 ≤ b && b < 0xf0 then some 3
  else if 0xf0 ≤ b && b < 0xf8 then some 4
  else none

/-- Where in an escape of a tag a reader is.  So many bytes of a character
are left, unless its first byte is still to come. -/
inductive TagEscape where
  | none
  /-- After the sign. -/
  | high (left : Option Nat)
  | low (left : Option Nat) (digit : Nat)
  /-- Another byte has to follow. -/
  | more (left : Nat)

/-- How many bytes of a character are left from a byte of it on. -/
def bytesLeft? (left : Option Nat) (byte : Nat) : Option Nat :=
  match left with
  | none => charLength? byte
  | some n => if 0x80 ≤ byte && byte < 0xc0 then some n else none

/-- Read the characters of a tag, with bytes in hexadecimal after a sign.
The bytes are collected last first. -/
def tagTextFrom : TagEscape → List Char → View → Bytes → Except Malformed (Bytes × Cursor)
  | .none, [], v, text => do return (text.reverse, ⟨[], ← v.need 1 []⟩)
  | .none, c :: cs, v, text => do
    let v ← v.need 1 (c :: cs)
    if c = '%' then tagTextFrom (.high none) cs ((← v.need 3 (c :: cs)).pass c) text
    else if isTagChar c then tagTextFrom .none cs (v.pass c) (c.toUInt8 :: text)
    else return (text.reverse, ⟨c :: cs, v⟩)
  | .more left, c :: cs, v, text => do
    let v ← v.need 3 (c :: cs)
    if c = '%' then tagTextFrom (.high (some left)) cs (v.pass c) text else .error .malformed
  | .high left, c :: cs, v, text =>
    match hexValue? c with
    | some d => tagTextFrom (.low left d) cs (v.pass c) text
    | none => .error .malformed
  | .low left digit, c :: cs, v, text =>
    match hexValue? c with
    | none => .error .malformed
    | some d =>
      let byte := digit * 16 + d
      match bytesLeft? left byte with
      | none => .error .malformed
      | some (n + 2) => tagTextFrom (.more (n + 1)) cs (v.pass c) (byte.toUInt8 :: text)
      | some _ => tagTextFrom .none cs (v.pass c) (byte.toUInt8 :: text)
  | _, [], _, _ => .error .malformed

/-- The bytes of a tag from a place on. -/
def tagText (c : Cursor) : Except Malformed (Bytes × Cursor) :=
  tagTextFrom .none c.rest c.view []

/-- The handle at the start of a tag: an exclamation mark, a name and, if it
is a handle indeed, another mark. -/
def tagHandle (c : Cursor) : Except Malformed (String × Cursor) := do
  let c ← c.need 1
  if c.peek? ≠ some '!' then .error .malformed
  else
    let (name, c) ← c.next.span isNameChar
    if c.peek? = some '!' then return (String.ofList ('!' :: name ++ ['!']), c.next)
    else return (String.ofList ('!' :: name), c)

/-- Is it a handle with a mark on both sides? -/
def isClosedHandle (h : String) : Bool :=
  h.length > 1 && h.endsWith "!"

/-- Read a tag: in brackets, with a handle, or with a mark alone in front. -/
def tagToken (c : Cursor) : Except Malformed (TokenKind × Cursor) := do
  let c ← c.need 2
  let (kind, c) ←
    if c.next.peek? = some '<' then
      let (text, c) ← tagText (c.skip 2)
      if text.isEmpty || c.peek? ≠ some '>' then .error .malformed
      else .ok (TokenKind.tag "" text, c.next)
    else
      let (h, c) ← tagHandle c
      let (text, c) ← tagText c
      if isClosedHandle h then
        if text.isEmpty then .error .malformed else .ok (TokenKind.tag h text, c)
      else
        let suffix := utf8 (String.ofList (h.toList.drop 1)) ++ text
        if suffix.isEmpty then .ok (TokenKind.tag "" (utf8 "!"), c)
        else .ok (TokenKind.tag "!" suffix, c)
  let c ← c.need 1
  if atGap c.rest then return (kind, c) else .error .malformed

/-! ## Directives -/

/-- The number of digits that a part of a version may have. -/
def versionDigits : Nat := 2

/-- A part of a version. -/
def versionNumber (c : Cursor) : Except Malformed (Nat × Cursor) := do
  let (digits, c) ← c.span Char.isDigit
  if digits.isEmpty || digits.length > versionDigits then .error .malformed
  else return (digits.foldl (fun n d => n * 10 + (d.toNat - '0'.toNat)) 0, c)

/-- Read a directive after its sign. -/
def directive (c : Cursor) : Except Malformed (TokenKind × Cursor) := do
  let (name, c) ← c.span isNameChar
  if !atGap c.rest then .error .malformed
  let blanks ← c.skipWhile isBlank
  let (kind, c) ←
    if name = "YAML".toList then
      let (major, c) ← versionNumber blanks
      if c.peek? ≠ some '.' then .error .malformed
      let (minor, c) ← versionNumber c.next
      pure (TokenKind.version major minor, c)
    else if name = "TAG".toList then
      let (h, c) ← tagHandle blanks
      if h ≠ "!" && !isClosedHandle h then .error .malformed
      let c ← c.need 1
      if !(c.peek?.any isBlank) then .error .malformed
      let (text, c) ← tagText (← c.skipWhile isBlank)
      if text.isEmpty || !atGap c.rest then .error .malformed
      pure (TokenKind.handle h text, c)
    else .error .malformed
  return (kind, ← restOfLine c)

end Taglet.Yaml
