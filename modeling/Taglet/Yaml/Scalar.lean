import Taglet.Yaml.Fold

/-!
# Taglet.Yaml.Scalar

The texts of scalars: plain, in single or double quotes, and in blocks.  Each
reader goes through the characters one at a time and stops behind the scalar.
-/

namespace Taglet.Yaml

/-- A scalar that was read, and where reading goes on. -/
structure Scanned where
  text : String
  after : Cursor
  /-- Was a line break passed since the last character of the text? -/
  freshLine : Bool := false

/-- The string of characters that were collected last first. -/
def collected (text : List Char) : String :=
  String.ofList text.reverse

/-! ## Plain scalars -/

/-- Does the character end a plain scalar, given what follows it? -/
def endsPlain (inFlow : Bool) (c : Char) (cs : List Char) : Bool :=
  (c = ':' && atGap cs) || (inFlow && (c = ',' || c = '?' || c = '[' || c = ']' ||
    c = '\x7b' || c = '\x7d'))

/-- Read a plain scalar.  Its lines are indented by `indent` at least, except
in flow collections. -/
def plainFrom (inFlow : Bool) (indent : Int) :
    List Char → View → List Char → Fold → Except Malformed Scanned
  | [], v, text, gap => do
    let v ← if gap ≠ .none && (inFlow || decide (indent ≤ v.place.col)) then v.need 4 [] else .ok v
    return ⟨collected text, ⟨[], v⟩, gap.isLines⟩
  | c :: cs, v, text, gap => do
    if isBlank c then
      if gap.isLines && decide (v.place.col < indent) && c = '\t' then .error .malformed
      else plainFrom inFlow indent cs (← (v.pass c).need 1 cs) text (gap.blank c)
    else if isBreak c then
      let v ← v.need 2 (c :: cs)
      plainFrom inFlow indent cs (← (v.passBreak c).need 1 cs) text (gap.lineBreak c)
    else if gap ≠ .none && !inFlow && decide (v.place.col < indent) then
      return ⟨collected text, ⟨c :: cs, v⟩, gap.isLines⟩
    else
      let v ← if gap ≠ .none then v.need 4 (c :: cs) else .ok v
      let stops := gap ≠ .none && (startsBoundary v.place (c :: cs) || c = '#')
      if stops || endsPlain inFlow c cs then
        return ⟨collected text, ⟨c :: cs, v⟩, gap.isLines⟩
      else plainFrom inFlow indent cs (← (v.pass c).need 2 cs) (c :: gap.join text) .none

/-! ## Quoted scalars -/

/-- Read the rest of a scalar in single quotes, in which two quotes stand for
one; `quote` tells that the last character was the first of two. -/
def singleFrom : (quote : Bool) → List Char → View → List Char → Fold → Except Malformed Scanned
  | _, [], _, _, _ => .error .malformed
  | true, c :: cs, v, text, gap => do
    singleFrom false cs (← (v.pass c).need 2 cs) ('\'' :: gap.join text) .none
  | false, c :: cs, v, text, gap => do
    if isBlank c then singleFrom false cs (← (v.pass c).need 1 cs) text (gap.blank c)
    else if isBreak c then
      let v ← v.need 2 (c :: cs)
      singleFrom false cs (← (v.passBreak c).need 1 cs) text (gap.lineBreak c)
    else
      let v ← if gap ≠ .none then v.need 4 (c :: cs) else .ok v
      if startsBoundary v.place (c :: cs) then .error .malformed
      else if c = '\'' then
        if cs.head? = some '\'' then singleFrom true cs (v.pass c) (gap.join text) .none
        else return { text := collected (gap.join text), after := ⟨cs, v.pass c⟩ }
      else singleFrom false cs (← (v.pass c).need 2 cs) (c :: gap.join text) .none

/-- What an escape of one character stands for. -/
def simpleEscape? (c : Char) : Option Char :=
  match c with
  | '0' => some '\x00'
  | 'a' => some '\x07'
  | 'b' => some '\x08'
  | 't' => some '\t'
  | '\t' => some '\t'
  | 'n' => some '\n'
  | 'v' => some '\x0b'
  | 'f' => some '\x0c'
  | 'r' => some '\r'
  | 'e' => some '\x1b'
  | ' ' => some ' '
  | '"' => some '"'
  | '\'' => some '\''
  | '\\' => some '\\'
  | 'N' => some '\u0085'
  | '_' => some '\u00a0'
  | 'L' => some '\u2028'
  | 'P' => some '\u2029'
  | _ => none

/-- The number of digits of an escape by number. -/
def hexEscape? (c : Char) : Option Nat :=
  match c with
  | 'x' => some 2
  | 'u' => some 4
  | 'U' => some 8
  | _ => none

/-- The value of a hexadecimal digit. -/
def hexValue? (c : Char) : Option Nat :=
  if '0' ≤ c && c ≤ '9' then some (c.toNat - '0'.toNat)
  else if 'a' ≤ c && c ≤ 'f' then some (c.toNat - 'a'.toNat + 10)
  else if 'A' ≤ c && c ≤ 'F' then some (c.toNat - 'A'.toNat + 10)
  else none

/-- The character of a number that stands for one. -/
def charOfNat? (n : Nat) : Option Char :=
  if h : n.isValidChar then some ⟨n.toUInt32, by
    have hn : n < UInt32.size := by
      rcases h with h | h
      · exact Nat.lt_trans h (by decide)
      · exact Nat.lt_trans h.2 (by decide)
    simpa [UInt32.isValidChar, Nat.toUInt32, UInt32.toNat_ofNat_of_lt' hn] using h⟩
  else none

/-- Where in an escape a reader is. -/
inductive Escape where
  | none
  /-- After the backslash. -/
  | begun
  /-- So many digits are left of a number. -/
  | digits (left : Nat) (value : Nat)
  /-- After a line break that was escaped. -/
  | line
deriving Repr, DecidableEq

/-- Read the rest of a scalar in double quotes. -/
def doubleFrom : Escape → List Char → View → List Char → Fold → Except Malformed Scanned
  | _, [], _, _, _ => .error .malformed
  | .begun, c :: cs, v, text, _ => do
    if isBreak c then doubleFrom .line cs (← (v.passBreak c).need 1 cs) text (.lines .none [])
    else
      match simpleEscape? c, hexEscape? c with
      | some e, _ => doubleFrom .none cs (← (v.pass c).need 2 cs) (e :: text) .none
      | none, some n => doubleFrom (.digits (n - 1) 0) cs (← (v.pass c).need n cs) text .none
      | none, none => .error .malformed
  | .digits left value, c :: cs, v, text, _ => do
    match hexValue? c with
    | none => .error .malformed
    | some d =>
      match left with
      | left + 1 => doubleFrom (.digits left (value * 16 + d)) cs (v.pass c) text .none
      | 0 =>
        match charOfNat? (value * 16 + d) with
        | none => .error .malformed
        | some e => doubleFrom .none cs (← (v.pass c).need 2 cs) (e :: text) .none
  | escape, c :: cs, v, text, gap => do
    if isBlank c then doubleFrom .none cs (← (v.pass c).need 1 cs) text (gap.blank c)
    else if isBreak c then
      let v ← v.need 2 (c :: cs)
      doubleFrom .none cs (← (v.passBreak c).need 1 cs) text (gap.lineBreak c)
    else if escape = .line && c = '"' then
      return { text := collected text, after := ⟨cs, v.pass c⟩ }
    else
      let v ← if gap ≠ .none then v.need 4 (c :: cs) else .ok v
      if startsBoundary v.place (c :: cs) then .error .malformed
      else if c = '"' then return { text := collected (gap.join text), after := ⟨cs, v.pass c⟩ }
      else if c = '\\' then
        let v ← if cs.head?.any isBreak then v.need 3 (c :: cs) else .ok v
        doubleFrom .begun cs (v.pass c) (gap.join text) .none
      else doubleFrom .none cs (← (v.pass c).need 2 cs) (c :: gap.join text) .none

/-! ## Block scalars -/

/-- What becomes of the line breaks at the end of a block scalar. -/
inductive Chomping where
  | strip
  | clip
  | keep
deriving Repr, DecidableEq

/-- How a block scalar is written. -/
structure BlockStyle where
  /-- Are line breaks kept as they are? -/
  literal : Bool
  chomping : Chomping := .clip
  /-- The indentation beyond that of the surroundings, if it is given. -/
  extra : Option Nat := none

/-- The chomping that a sign asks for. -/
def chompingOf? (c : Char) : Option Chomping :=
  if c = '+' then some .keep else if c = '-' then some .strip else none

/-- Read the header of a block scalar after its indicator: a sign and a digit
in either order. -/
def blockHeader (literal : Bool) (c : Cursor) : Except Malformed (BlockStyle × Cursor) := do
  let digit (c : Cursor) : Except Malformed (Option Nat × Cursor) := do
    let c ← c.need 1
    match c.peek? with
    | some d =>
      if d = '0' then .error .malformed
      else if d.isDigit then return (some (d.toNat - '0'.toNat), c.next)
      else return (none, c)
    | none => return (none, c)
  let c ← c.need 1
  match c.peek?.bind chompingOf? with
  | some chomping =>
    let (extra, c) ← digit c.next
    return ({ literal, chomping, extra }, c)
  | none =>
    let (extra, c) ← digit c
    let c ← c.need 1
    match extra, c.peek?.bind chompingOf? with
    | some _, some chomping => return ({ literal, chomping, extra }, c.next)
    | _, _ => return ({ literal, extra }, c)

/-- Pass over the rest of a line that holds nothing but white space and a
comment. -/
def restOfLine (c : Cursor) : Except Malformed Cursor := do
  let c ← c.skipWhile isBlank
  let c ← if c.peek? = some '#' then c.skipWhile (fun x => !isBreak x) else .ok c
  if atLineEnd c.rest then c.nextLine else .error .malformed

/-- A block scalar under construction. -/
structure Block where
  text : List Char := []
  /-- The break of the last line. -/
  lead : List Char := []
  /-- The breaks of the empty lines after it, last first. -/
  trail : List Char := []
  /-- Did the last line start with a blank? -/
  indented : Bool := false

namespace Block

/-- Go on to a line that starts with the character `c`. -/
def startLine (literal : Bool) (c : Char) (b : Block) : Block :=
  let folds := !literal && !b.indented && !isBlank c && b.lead = ['\n']
  let text := if folds then (if b.trail.isEmpty then ' ' :: b.text else b.text)
    else b.lead ++ b.text
  { text := b.trail ++ text, indented := isBlank c }

/-- The text in the end. -/
def finish (chomping : Chomping) (b : Block) : String :=
  match chomping with
  | .strip => collected b.text
  | .clip => collected (b.lead ++ b.text)
  | .keep => collected (b.trail ++ (b.lead ++ b.text))

end Block

/-- Where in a block scalar a reader is. -/
inductive BlockAt where
  /-- In front of a line; the deepest indentation so far is kept until the
  scalar's own is known. -/
  | margin (deepest : Nat)
  | line

/-- Read the lines of a block scalar, whose indentation is `indent` if it is
known and otherwise that of its first line, but `least` at least. -/
def blockFrom (style : BlockStyle) (least : Nat) :
    BlockAt → (indent : Option Nat) → List Char → View → Block → Except Malformed Scanned
  | .margin _, _, [], v, b => do
    return ⟨b.finish style.chomping, ⟨[], ← v.need 1 []⟩, true⟩
  | .line, _, [], v, b => do
    return ⟨b.finish style.chomping, ⟨[], ← v.need 2 []⟩, true⟩
  | .margin deepest, indent, c :: cs, v, b => do
    let v ← v.need 1 (c :: cs)
    let inside := match indent with
      | none => true
      | some n => decide (v.place.col < n)
    if inside && c = ' ' then
      blockFrom style least (.margin (max deepest (v.place.col + 1))) indent cs (v.pass c) b
    else if inside && c = '\t' then .error .malformed
    else if isBreak c then
      let v ← v.need 2 (c :: cs)
      blockFrom style least (.margin deepest) indent cs (v.passBreak c)
        { b with trail := breakText c :: b.trail }
    else
      let n := indent.getD (max deepest least)
      if v.place.col = n then
        let b := b.startLine style.literal c
        blockFrom style least .line (some n) cs (← (v.pass c).need 1 cs)
          { b with text := c :: b.text }
      else return ⟨b.finish style.chomping, ⟨c :: cs, v⟩, true⟩
  | .line, indent, c :: cs, v, b => do
    if isBreak c then
      let v ← v.need 2 (c :: cs)
      blockFrom style least (.margin 0) indent cs (v.passBreak c) { b with lead := [breakText c] }
    else
      blockFrom style least .line indent cs (← (v.pass c).need 1 cs) { b with text := c :: b.text }

/-- Read a block scalar after its indicator, in surroundings of a given
indentation. -/
def blockScalar (literal : Bool) (indent : Int) (c : Cursor) : Except Malformed Scanned := do
  let (style, c) ← blockHeader literal c
  let c ← restOfLine c
  let known := style.extra.map fun n => (max indent 0).toNat + n
  blockFrom style (max (indent + 1) 1).toNat (.margin 0) known c.rest c.view {}

end Taglet.Yaml
