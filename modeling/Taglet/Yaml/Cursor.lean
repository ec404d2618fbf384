/-!
# Taglet.Yaml.Cursor

The characters of a document and how they come into view.

A document is fetched in pieces of a fixed number of bytes, each not before a
character of it is called for (`View.need`).  A piece with a character that
may not stand in a document cannot be fetched, so such a character does harm
only where reading gets near it.

A line break is one character here, however it is written (`joinBreaks`): a
carriage return stands for itself and the line feed after it, and one without
a line feed after it has become a line feed.
-/

namespace Taglet.Yaml

/-- A document is not well formed.  Which rule it breaks is not kept. -/
inductive Malformed where
  | malformed
deriving Repr, DecidableEq

/-! ## Characters -/

/-- May the character stand in a document? -/
def isAllowed (c : Char) : Bool :=
  let n := c.toNat
  n = 0x09 || n = 0x0a || n = 0x0d || (0x20 ≤ n && n ≤ 0x7e) || n = 0x85 ||
    (0xa0 ≤ n && n ≤ 0xd7ff) || (0xe000 ≤ n && n ≤ 0xfffd) || 0x10000 ≤ n

/-- The mark that may stand in front of a text to tell its byte order. -/
def byteOrderMark : Char := '\ufeff'

/-- Join carriage returns with the line feeds after them.  What is done is
kept last first. -/
def joinBreaksOnto (done : List Char) : List Char → List Char
  | [] => done.reverse
  | '\r' :: '\n' :: cs => joinBreaksOnto ('\r' :: done) cs
  | '\r' :: cs => joinBreaksOnto ('\n' :: done) cs
  | c :: cs => joinBreaksOnto (c :: done) cs

/-- A text with each of its line breaks as one character. -/
def joinBreaks (cs : List Char) : List Char :=
  joinBreaksOnto [] cs

/-- Is it a line break? -/
def isBreak (c : Char) : Bool :=
  c = '\n' || c = '\r' || c = '\u0085' || c = '\u2028' || c = '\u2029'

/-- The number of characters a line break is written with. -/
def breakWidth (c : Char) : Nat :=
  if c = '\r' then 2 else 1

/-- What a line break is in the text of a scalar: a line feed, unless it is
one of the two separators, which unlike a line feed are never folded. -/
def breakText (c : Char) : Char :=
  if c = '\u2028' || c = '\u2029' then c else '\n'

/-- Is it white space within a line? -/
def isBlank (c : Char) : Bool :=
  c = ' ' || c = '\t'

/-- May it stand in the name of an anchor or of a tag handle? -/
def isNameChar (c : Char) : Bool :=
  c.isAlphanum || c = '_' || c = '-'

/-- Does white space, a line break or the end come next? -/
def atGap : List Char → Bool
  | [] => true
  | c :: _ => isBlank c || isBreak c

/-- Does a line break or the end come next? -/
def atLineEnd : List Char → Bool
  | [] => true
  | c :: _ => isBreak c

/-! ## Pieces -/

/-- The number of bytes in a piece. -/
def pieceSize : Nat := 512

/-- Divide a text into pieces, and tell whether all of it can be fetched.
The piece at hand has `count` characters and room for so many bytes; a
character that does not fit starts the next one.  The pieces are given by
their numbers of characters, up to the first that cannot be fetched. -/
def divide : (room count : Nat) → List Char → List Nat × Bool
  | _, count, [] => ([count], true)
  | room, count, c :: cs =>
    if c.utf8Size ≤ room then
      if isAllowed c then divide (room - c.utf8Size) (count + 1) cs else ([], false)
    else if isAllowed c then
      let (pieces, sound) := divide (pieceSize - c.utf8Size) 1 cs
      (count :: pieces, sound)
    else ([count], false)

/-- Fetch pieces until `n` characters are in view.  The end of a sound
document comes into view as one character more. -/
def fetch (sound : Bool) (n : Nat) : (inView : Nat) → List Nat → Except Malformed (Nat × List Nat)
  | inView, [] => if sound then .ok (inView + 1, []) else .error .malformed
  | inView, p :: ps =>
    if inView + p < n then fetch sound n (inView + p) ps else .ok (inView + p, ps)

/-! ## Places and views -/

/-- A place in a document: its line and column, and how many characters stand
before it. -/
structure Place where
  line : Nat := 0
  col : Nat := 0
  index : Nat := 0
deriving Repr, DecidableEq

/-- What is known at a place. -/
structure View where
  place : Place := {}
  /-- How many line breaks were passed since the last visible character. -/
  breaks : Nat := 0
  /-- How many characters are in view. -/
  inView : Nat := 0
  /-- The pieces to be fetched. -/
  pieces : List Nat := []
  /-- Can all of the document be fetched? -/
  sound : Bool := true
  /-- Did a byte order mark come next when a piece was called for last? -/
  marked : Bool := false
deriving Repr, DecidableEq

namespace View

/-- Have `n` of the characters `cs` that come next in view. -/
def need (n : Nat) (cs : List Char) (v : View) : Except Malformed View :=
  if n ≤ v.inView then .ok v
  else do
    let (inView, pieces) ← fetch v.sound n v.inView v.pieces
    return { v with inView, pieces, marked := cs.head? = some byteOrderMark }

/-- Pass over a character within a line. -/
def pass (c : Char) (v : View) : View :=
  { v with
    place := ⟨v.place.line, v.place.col + 1, v.place.index + 1⟩
    breaks := if isBlank c then v.breaks else 0
    inView := v.inView - 1 }

/-- Pass over a line break. -/
def passBreak (c : Char) (v : View) : View :=
  { v with
    place := ⟨v.place.line + 1, 0, v.place.index + breakWidth c⟩
    breaks := v.breaks + 1
    inView := v.inView - breakWidth c }

end View

/-- Do three of the character, and then a gap, come next at the start of a
line? -/
def startsMark (mark : Char) (p : Place) : List Char → Bool
  | a :: b :: c :: cs => p.col = 0 && a = mark && b = mark && c = mark && atGap cs
  | _ => false

/-- Does one of the marks between documents come next? -/
def startsBoundary (p : Place) (cs : List Char) : Bool :=
  startsMark '-' p cs || startsMark '.' p cs

/-! ## Cursors -/

/-- The characters that are left, and what is known of them. -/
structure Cursor where
  rest : List Char
  view : View
deriving Repr, DecidableEq

namespace Cursor

/-- The place of the next character. -/
def place (c : Cursor) : Place :=
  c.view.place

/-- Have `n` characters in view. -/
def need (n : Nat) (c : Cursor) : Except Malformed Cursor := do
  return { c with view := ← c.view.need n c.rest }

/-- The next character, if there is one. -/
def peek? (c : Cursor) : Option Char :=
  c.rest.head?

/-- Pass over the next character, which is no line break. -/
def next (c : Cursor) : Cursor :=
  match c.rest with
  | [] => c
  | x :: xs => ⟨xs, c.view.pass x⟩

/-- Pass over the next `n` characters, none of which is a line break. -/
def skip : Nat → Cursor → Cursor
  | 0, c => c
  | n + 1, c => skip n c.next

/-- Pass over a line break, if one comes next. -/
def nextLine (c : Cursor) : Except Malformed Cursor :=
  match c.rest with
  | [] => .ok c
  | x :: xs => do
    if isBreak x then return ⟨xs, (← c.view.need 2 c.rest).passBreak x⟩ else return c

/-- Split off the longest run of characters with a property, which no line
break has. -/
def span (has : Char → Bool) (c : Cursor) : Except Malformed (List Char × Cursor) :=
  go c.rest c.view []
where
  /-- The run so far stands in `run`, last character first. -/
  go : List Char → View → List Char → Except Malformed (List Char × Cursor)
    | [], v, run => do return (run.reverse, ⟨[], ← v.need 1 []⟩)
    | x :: xs, v, run => do
      let v ← v.need 1 (x :: xs)
      if has x then go xs (v.pass x) (x :: run) else return (run.reverse, ⟨x :: xs, v⟩)

/-- Pass over a run of characters with a property, which no line break
has. -/
def skipWhile (has : Char → Bool) (c : Cursor) : Except Malformed Cursor := do
  return (← c.span has).2

end Cursor

end Taglet.Yaml
