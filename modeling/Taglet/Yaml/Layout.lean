import Std.Data.HashMap
import Taglet.Yaml.Space
import Taglet.Yaml.Token

/-!
# Taglet.Yaml.Layout

Dividing a document into tokens.

Collections are written with brackets or by indentation.  Indentation is made
explicit here: a deeper column opens a collection and a shallower one closes
those it falls short of.  That a scalar or collection is a key is only seen at
the colon after it, so each place where a key may start is remembered as a
`Candidate`, and the tokens that announce it are put in front of it then.

Tokens are given out in order, while later ones are still being read.  One is
given out when two more have been read and it is not awaited as the start of a
key.  A document that cannot be divided is refused only if one of the tokens
that is asked for cannot be given out.
-/

namespace Taglet.Yaml

/-- A place where a key may have started: the number of its first token. -/
structure Candidate where
  token : Nat
  place : Place := {}
  /-- Can nothing but a key stand there? -/
  required : Bool := false
  /-- Could it still become a key? -/
  live : Bool := false
deriving Repr

/-- The state of dividing a document into tokens. -/
structure Layout where
  cursor : Cursor
  tokens : Array Token := #[]
  /-- How many of the tokens were given out. -/
  given : Nat := 0
  /-- The column of the innermost collection written by indentation. -/
  indent : Int := -1
  /-- The columns of those around it. -/
  outerIndents : List Int := []
  /-- May a key start here? -/
  keyAllowed : Bool := true
  /-- The last candidate within each pair of brackets that is open, and one
  for the outside.  Brackets begin with one that has their own number. -/
  candidates : Array Candidate := #[{ token := 0 }]
  /-- The tokens that are awaited, and within how many brackets. -/
  awaited : Std.HashMap Nat Nat := {}

/-- Collections nest no deeper than this. -/
def maxNesting : Nat := 10000

/-- How many characters after its start a key may reach. -/
def keyReach : Nat := 1024

/-- How many tokens are read beyond the one that is given out. -/
def lookahead : Nat := 2

namespace Layout

/-- Are there open brackets? -/
def inFlow (s : Layout) : Bool :=
  s.candidates.size > 1

/-- The current place. -/
def place (s : Layout) : Place :=
  s.cursor.place

/-- Add a token that starts on a line. -/
def pushAt (kind : TokenKind) (line : Nat) (s : Layout) : Layout :=
  { s with tokens := s.tokens.push ⟨kind, line⟩ }

/-- Add a token that starts on the current line. -/
def push (kind : TokenKind) (s : Layout) : Layout :=
  s.pushAt kind s.place.line

/-- Put a token in front of the one with the number `i`, or last if that one
was given out. -/
def insert (i : Nat) (kind : TokenKind) (line : Nat) (s : Layout) : Layout :=
  if s.given ≤ i then { s with tokens := s.tokens.insertIdxIfInBounds i ⟨kind, line⟩ }
  else s.pushAt kind line

/-- Pass over characters. -/
def advance (n : Nat) (s : Layout) : Layout :=
  { s with cursor := s.cursor.skip n }

/-! ## Indentation -/

/-- The place where a collection at the column `indent` ends, if it ends at a
place at the latest: where the first of the runs of comments right before it
starts that stand at the column. -/
def endOf (indent : Int) : List Note → (stop : Nat) → Place → Place
  | [], _, p => p
  | n :: notes, stop, p =>
    if n.stop < stop then p
    else endOf indent notes n.since (if (n.start.col : Int) = indent then n.start else p)

/-- Close the collections that lie deeper than a column, the innermost of
which ends at the place `p` at the latest; `outer` are the columns of those
around it. -/
def closeFrom (column : Int) (notes : List Note) (outer : List Int) (p : Place) (s : Layout) :
    Layout :=
  match outer with
  | [] => s
  | o :: os =>
    if s.indent > column then
      let p := endOf s.indent notes p.index p
      closeFrom column notes os p
        { s.pushAt .blockEnd p.line with indent := o, outerIndents := os }
    else s

/-- Close the collections that lie deeper than a column, the innermost of
which ends at a place at the latest.  Brackets leave them open. -/
def closeTo (column : Int) (latest : Place) (notes : List Note) (s : Layout) : Layout :=
  if s.inFlow then s
  else s.closeFrom column notes s.outerIndents { latest with index := latest.index - 1 }

/-- Open a collection at a column that lies deeper than the innermost one, by
a token in front of the one with the number `i`. -/
def openAt (column : Nat) (i : Nat) (kind : TokenKind) (line : Nat) (s : Layout) :
    Except Malformed Layout :=
  if s.inFlow || decide ((column : Int) ≤ s.indent) then .ok s
  else if s.outerIndents.length ≥ maxNesting then .error .malformed
  else .ok { s.insert i kind line with
    outerIndents := s.indent :: s.outerIndents
    indent := column }

/-- Open a collection at the current column. -/
def openHere (kind : TokenKind) (s : Layout) : Except Malformed Layout :=
  s.openAt s.place.col s.tokens.size kind s.place.line

/-! ## Keys -/

/-- The candidate within the innermost brackets. -/
def candidate (s : Layout) : Candidate :=
  s.candidates.back?.getD { token := 0 }

/-- Be done with the candidate, which is `k`. -/
def release (k : Candidate) (s : Layout) : Layout :=
  { s with
    candidates := s.candidates.setIfInBounds (s.candidates.size - 1) { k with live := false }
    awaited := s.awaited.erase k.token }

/-- Give up the candidate. -/
def dropKey (s : Layout) : Except Malformed Layout :=
  let k := s.candidate
  if !k.live then .ok s
  else if k.required then .error .malformed
  else .ok (s.release k)

/-- Remember the current place as a candidate if a key may start here. -/
def saveKey (s : Layout) : Except Malformed Layout := do
  if s.keyAllowed then
    let required := !s.inFlow && decide (s.indent = s.place.col)
    let s ← s.dropKey
    let depth := s.candidates.size - 1
    let k : Candidate := { token := s.tokens.size, place := s.place, required, live := true }
    return { s with
      candidates := s.candidates.setIfInBounds depth k
      awaited := s.awaited.insert k.token depth }
  else return s

/-- Is a place too far for a candidate to be a key that reaches it?  A key
stands on one line and is not too long. -/
def Candidate.isPast (k : Candidate) (p : Place) : Bool :=
  k.place.line < p.line || k.place.index + keyReach < p.index

/-- Could the candidate within so many brackets be a key that reaches the
current place?  If not it is given up. -/
def isKey (depth : Nat) (s : Layout) : Except Malformed (Bool × Layout) :=
  match s.candidates[depth]? with
  | none => .ok (false, s)
  | some k =>
    if !k.live then .ok (false, s)
    else if !Candidate.isPast k s.place then .ok (true, s)
    else if k.required then .error .malformed
    else .ok (false, { s with
      candidates := s.candidates.setIfInBounds depth { k with live := false } })

/-! ## Tokens -/

/-- A token of one character that may start a key: an opening bracket. -/
def openBracket (kind : TokenKind) (s : Layout) : Except Malformed Layout := do
  let s ← s.saveKey
  if s.candidates.size > maxNesting then .error .malformed
  else
    let k : Candidate := { token := s.tokens.size, place := s.place }
    let s := s.push kind
    return { s with candidates := s.candidates.push k, keyAllowed := true }.advance 1

/-- A closing bracket.  Brackets in which no key may have started are not
awaited any more. -/
def closeBracket (kind : TokenKind) (s : Layout) : Except Malformed Layout := do
  let s ← s.dropKey
  let s := if s.inFlow then
      { s with
        awaited := s.awaited.erase s.candidate.token
        candidates := s.candidates.pop }
    else s
  return { s.push kind with keyAllowed := false }.advance 1

/-- A comma within brackets. -/
def comma (s : Layout) : Except Malformed Layout := do
  let s ← s.dropKey
  return { s.push .flowEntry with keyAllowed := true }.advance 1

/-- The dash of a sequence entry. -/
def dash (s : Layout) : Except Malformed Layout := do
  if !s.inFlow && !s.keyAllowed then .error .malformed
  let s ← s.openHere .blockSeq
  let s ← s.dropKey
  return { s.push .blockEntry with keyAllowed := true }.advance 1

/-- The question mark of a key. -/
def question (s : Layout) : Except Malformed Layout := do
  if !s.inFlow && !s.keyAllowed then .error .malformed
  let s ← s.openHere .blockMap
  let s ← s.dropKey
  return { s.push .key with keyAllowed := !s.inFlow }.advance 1

/-- The colon of a value: it makes a key of the candidate. -/
def colon (s : Layout) : Except Malformed Layout := do
  let (isKey, s) ← s.isKey (s.candidates.size - 1)
  if isKey then
    let k := s.candidate
    let s := s.insert k.token .key k.place.line
    let s ← s.openAt k.place.col k.token .blockMap k.place.line
    return { (s.release k).push .value with keyAllowed := false }.advance 1
  else
    if !s.inFlow && !s.keyAllowed then .error .malformed
    let s ← s.openHere .blockMap
    return { s.push .value with keyAllowed := !s.inFlow }.advance 1

/-- An alias or anchor. -/
def named (kind : String → TokenKind) (s : Layout) : Except Malformed Layout := do
  let s ← s.saveKey
  let (name, after) ← anchorName s.cursor.next
  return { s.push (kind name) with cursor := after, keyAllowed := false }

/-- A tag. -/
def tag (s : Layout) : Except Malformed Layout := do
  let s ← s.saveKey
  let (kind, after) ← tagToken s.cursor
  return { s.push kind with cursor := after, keyAllowed := false }

/-- A scalar in quotes. -/
def quoted (double : Bool) (s : Layout) : Except Malformed Layout := do
  let s ← s.saveKey
  let c ← s.cursor.next.need 4
  let r ← if double then doubleFrom .none c.rest c.view [] .none
    else singleFrom false c.rest c.view [] .none
  return { s.push (.scalar false r.text) with cursor := r.after, keyAllowed := false }

/-- A block scalar. -/
def block (literal : Bool) (s : Layout) : Except Malformed Layout := do
  let s ← s.dropKey
  let r ← blockScalar literal s.indent s.cursor.next
  return { s.push (.scalar false r.text) with cursor := r.after, keyAllowed := true }

/-- A plain scalar. -/
def plain (s : Layout) : Except Malformed Layout := do
  let s ← s.saveKey
  let c ← s.cursor.need 4
  let r ← plainFrom s.inFlow (s.indent + 1) c.rest c.view [] .none
  return { s.push (.scalar true r.text) with cursor := r.after, keyAllowed := r.freshLine }

/-- A mark between documents, or a directive: everything open is closed. -/
def boundary (notes : List Note) (s : Layout) : Except Malformed Layout := do
  let s := s.closeTo (-1) s.place notes
  let s ← s.dropKey
  return { s with keyAllowed := false }

/-- The end of the document text. -/
def finish (notes : List Note) (s : Layout) : Except Malformed Layout := do
  let p := s.place
  let p := if p.col = 0 then p else ⟨p.line + 1, 0, p.index⟩
  let s := { s with cursor := { s.cursor with view := { s.cursor.view with place := p } } }
  return (← s.boundary notes).push .streamEnd

/-- May a plain scalar start with the character, given what follows it? -/
def startsPlain (inFlow : Bool) (c : Char) (cs : List Char) : Bool :=
  if c = '-' then !(cs.head?.any isBlank)
  else if c = '?' || c = ':' then !inFlow && !atGap cs
  else !(isBlank c || c ∈ ",[]\x7b\x7d#&*!|>'\"%@\x60".toList)

/-- Read the token that starts with the character `c`, and the comment behind
it. -/
def tokenAt (s : Layout) (c : Char) (cs : List Char) : Except Malformed Layout := do
  if c = '-' && atGap cs then s.dash
  else
    let s ←
      if c = '[' then s.openBracket .flowSeq
      else if c = '\x7b' then s.openBracket .flowMap
      else if c = ']' then s.closeBracket .flowSeqEnd
      else if c = '\x7d' then s.closeBracket .flowMapEnd
      else if c = ',' then s.comma
      else if c = '?' && (s.inFlow || atGap cs) then s.question
      else if c = ':' && (s.inFlow || atGap cs) then s.colon
      else if c = '*' then s.named .reference
      else if c = '&' then s.named .anchor
      else if c = '!' then s.tag
      else if c = '|' && !s.inFlow then s.block true
      else if c = '>' && !s.inFlow then s.block false
      else if c = '\'' then s.quoted false
      else if c = '"' then s.quoted true
      else if startsPlain s.inFlow c cs then s.plain
      else .error .malformed
    return { s with cursor := ← lineComment s.cursor }

/-- Read the next token, and those that indentation stands for before it. -/
def next (s : Layout) : Except Malformed Layout := do
  let c ← s.cursor.need 1
  let around : Around := {
    inFlow := s.inFlow, margin := s.indent.toNat, since := c.place
    afterValue := s.tokens.back?.any (·.kind = .value) }
  let r ← spaceFrom around .start s.keyAllowed [] c.rest c.view
  let s := { s with keyAllowed := r.keyAllowed }.closeTo r.after.place.col c.place r.notes
  let s := { s with cursor := ← r.after.need 4 }
  match s.cursor.rest with
  | [] => s.finish r.notes
  | c :: cs =>
    if c = '%' && s.place.col = 0 then
      let s ← s.boundary r.notes
      let (kind, after) ← directive s.cursor.next
      return { s.push kind with cursor := after }
    else if startsMark '-' s.place (c :: cs) then
      return ((← s.boundary r.notes).push .docStart).advance 3
    else if startsMark '.' s.place (c :: cs) then
      return ((← s.boundary r.notes).push .docEnd).advance 3
    else s.tokenAt c cs

/-! ## Giving out tokens -/

/-- Is the next token to be given out awaited? -/
def isAwaited (s : Layout) : Except Malformed (Bool × Layout) :=
  match s.awaited[s.given]? with
  | none => .ok (false, s)
  | some depth => s.isKey depth

/-- Give out a token or read one. -/
def step (s : Layout) : Except Malformed (Option Token × Layout) := do
  if s.given + lookahead < s.tokens.size then
    let (awaited, s) ← s.isAwaited
    if awaited then return (none, ← s.next)
    else return (s.tokens[s.given]?, { s with given := s.given + 1 })
  else return (none, ← s.next)

/-- The tokens that are given out in `fuel` steps, after those of `out`, the
last first.  If the document cannot be divided any further, that is the last
one. -/
def run : (fuel : Nat) → (out : List Token) → Layout → List Token
  | 0, out, _ => (⟨.broken, 0⟩ :: out).reverse
  | fuel + 1, out, s =>
    match s.step with
    | .error _ => (⟨.broken, 0⟩ :: out).reverse
    | .ok (none, s) => run fuel out s
    | .ok (some t, s) =>
      if t.kind = .streamEnd then (t :: out).reverse else run fuel (t :: out) s

end Layout

/-- The tokens of a document.  Reading one takes a character at least, or it
is the end, and brings along no more than the beginning of a collection with
its key and, later, the end of it; so there are enough steps. -/
def tokens (c : Cursor) : List Token :=
  match c.need 1 with
  | .error _ => [⟨.broken, 0⟩]
  | .ok c => Layout.run (8 * c.rest.length + 32) []
      { cursor := c, tokens := #[⟨.streamStart, 0⟩] }

end Taglet.Yaml
