import Taglet.Yaml.Cursor

/-!
# Taglet.Yaml.Space

White space and comments between tokens.

After a comment the next one is looked for a limited number of characters
ahead, and what stands between the two is passed over whatever it is made of.
Elsewhere tabs may not stand where a key may start.

Comments are dropped, but not without a trace: where a run of them starts may
be taken for the place where a collection ends, so the runs are kept as
`Note`s.
-/

namespace Taglet.Yaml

/-- A run of comments. -/
structure Note where
  start : Place
  /-- The index that the run was looked for from. -/
  since : Nat
  /-- The index it ends at. -/
  stop : Nat
deriving Repr, DecidableEq

/-- Where white space stands. -/
structure Around where
  inFlow : Bool
  /-- The column of the collection around it. -/
  margin : Nat
  /-- Does it follow the colon of a value? -/
  afterValue : Bool
  /-- Where it starts. -/
  since : Place

/-- The run of comments at hand and those before it. -/
structure Comments where
  /-- The runs that are complete, last first. -/
  notes : List Note
  /-- The index that the run at hand was looked for from. -/
  since : Nat
  /-- Where the run at hand starts, once it has. -/
  start : Option Place
  /-- The line on which a run still belongs to what stands before it. -/
  footLine : Option Nat
  /-- Was there no empty line yet? -/
  dense : Bool
  /-- Was the last line empty? -/
  afterEmpty : Bool := false

namespace Comments

/-- Complete the run at hand. -/
def close (stop : Nat) (s : Comments) : Comments :=
  match s.start with
  | none => s
  | some start =>
    { s with notes := ⟨start, s.since, stop⟩ :: s.notes, since := stop, start := none }

/-- Does the run at hand belong to what stands before it? -/
def isFoot (a : Around) (s : Comments) : Bool :=
  s.start.any fun p => (some p.line = s.footLine && !a.afterValue) || decide (p.col < a.margin)

/-- Meet an empty line, or the end of a document. -/
def pause (a : Around) (index : Nat) (s : Comments) : Comments :=
  if !s.afterEmpty && s.dense && s.isFoot a then s.close index else s

/-- Meet a line break. -/
def lineBreak (a : Around) (index : Nat) (s : Comments) : Comments :=
  { s.pause a index with dense := false, afterEmpty := true }

/-- Meet a visible character.  A run ends where the indentation falls short
of the surroundings, unless it always did so. -/
def visible (a : Around) (p : Place) (s : Comments) : Comments :=
  if s.start.any fun q => decide (p.col < a.margin) && p.col ≠ q.col then s.close p.index else s

/-- Start a comment. -/
def comment (p : Place) (s : Comments) : Comments :=
  { s with start := s.start.or (some p), afterEmpty := false }

end Comments

/-- So many characters are looked at to find a comment. -/
def commentReach : Nat := 512

/-- What looking for a comment came to. -/
structure Sight where
  found : Bool
  /-- How many characters were looked at. -/
  offset : Nat
  comments : Comments
  view : View

/-- Look for a comment from `offset` characters ahead on, where the place is
`p`, with only white space before it. -/
def sight (a : Around) (here : List Char) :
    List Char → (offset : Nat) → Place → Comments → View → Except Malformed Sight
  | cs, offset, p, s, v => do
    if offset ≥ commentReach then return ⟨false, offset, s, v⟩
    let v ← v.need (offset + 1) here
    match cs with
    | [] => return ⟨false, offset, s.pause a p.index, v⟩
    | c :: cs =>
      if isBlank c then sight a here cs (offset + 1) ⟨p.line, p.col + 1, p.index + 1⟩ s v
      else if isBreak c then
        let s := s.lineBreak a p.index
        if c = '\n' then sight a here cs (offset + 1) ⟨p.line + 1, 0, p.index + 1⟩ s v
        else if offset + 1 ≥ commentReach then return ⟨false, offset + 1, s, v⟩
        else
          let v ← v.need (offset + 2) here
          let p := ⟨p.line + 1, 0, p.index + 1⟩
          if c = '\r' then sight a here cs (offset + 2) ⟨p.line + 1, 0, p.index + 1⟩ s v
          else return ⟨false, offset + 1, s.visible a p, v⟩
      else if a.inFlow && (c = ']' || c = '\x7d') then
        return ⟨false, offset, s.close p.index, v⟩
      else
        let s := s.visible a p
        if c = '#' then return ⟨true, offset, s.comment p, v⟩ else return ⟨false, offset, s, v⟩

/-- Look for a comment behind the line break or the end that comes next. -/
def sightBehind (a : Around) (cs : List Char) (s : Comments) (v : View) :
    Except Malformed Sight := do
  let p : Place := ⟨v.place.line, 0, v.place.index + 1⟩
  match cs with
  | [] => sight a cs [] 1 p s v
  | c :: rest =>
    if c = '\n' then sight a cs rest 1 p s v
    else
      let v ← v.need 2 cs
      if c = '\r' then
        sight a cs rest 2 ⟨p.line + 1, 0, p.index + 1⟩ (s.lineBreak a p.index) v
      else return ⟨false, 1, s.visible a p, v⟩

/-- What a reader of white space is in. -/
inductive Spacing where
  /-- At the start of a line, or where the white space starts. -/
  | start
  | blanks
  | comment (s : Comments)
  /-- Between two comments. -/
  | between (s : Comments)

/-- White space that was passed over. -/
structure Spaced where
  /-- May a key start behind it? -/
  keyAllowed : Bool
  notes : List Note
  after : Cursor

/-- Pass over white space and comments.  A new line outside of brackets
allows a key to start.  If a byte order mark came next when a piece was
called for last, a character is passed over at the start of each line. -/
def spaceFrom (a : Around) :
    Spacing → (keyAllowed : Bool) → List Note → List Char → View → Except Malformed Spaced
  | .start, keyAllowed, notes, [], v => do
    let v ← v.need 1 []
    let v := if v.place.col = 0 && v.marked then v.pass byteOrderMark else v
    return ⟨keyAllowed, notes, ⟨[], ← v.need 1 []⟩⟩
  | .blanks, keyAllowed, notes, [], v => do return ⟨keyAllowed, notes, ⟨[], ← v.need 1 []⟩⟩
  | .comment s, keyAllowed, _, [], v => do
    let r ← sightBehind a [] s (← v.need 1 [])
    return ⟨keyAllowed, (r.comments.close (r.view.place.index + r.offset - 1)).notes, ⟨[], r.view⟩⟩
  | .between s, keyAllowed, _, [], v => .ok ⟨keyAllowed, s.notes, ⟨[], v⟩⟩
  | .comment s, keyAllowed, notes, c :: cs, v => do
    let v ← v.need 1 (c :: cs)
    if isBreak c then
      let r ← sightBehind a (c :: cs) s v
      let v ← r.view.need 2 (c :: cs)
      if r.found then spaceFrom a (.between r.comments) keyAllowed notes cs (v.passBreak c)
      else
        let notes := (r.comments.close (v.place.index + r.offset - 1)).notes
        spaceFrom a .start (keyAllowed || !a.inFlow) notes cs (v.passBreak c)
    else spaceFrom a (.comment s) keyAllowed notes cs (v.pass c)
  | .between s, keyAllowed, notes, c :: cs, v => do
    let v ← v.need 1 (c :: cs)
    if isBreak c then
      let v ← v.need 2 (c :: cs)
      spaceFrom a (.between s) keyAllowed notes cs (v.passBreak c)
    else
      spaceFrom a (if c = '#' then .comment s else .between s) keyAllowed notes cs (v.pass c)
  | spacing, keyAllowed, notes, c :: cs, v => do
    let v ← v.need 1 (c :: cs)
    let atStart := match spacing with
      | .start => true
      | _ => false
    if atStart && v.place.col = 0 && v.marked then
      if c = '\r' then
        let v ← (v.pass c).need 1 ('\n' :: cs)
        let v ← v.need 2 ('\n' :: cs)
        spaceFrom a .start (keyAllowed || !a.inFlow) notes cs (v.passBreak '\n')
      else spaceFrom a .blanks keyAllowed notes cs (v.pass c)
    else if c = ' ' || (c = '\t' && (a.inFlow || !keyAllowed)) then
      spaceFrom a .blanks keyAllowed notes cs (v.pass c)
    else if isBreak c then
      let v ← v.need 2 (c :: cs)
      spaceFrom a .start (keyAllowed || !a.inFlow) notes cs (v.passBreak c)
    else if c = '#' then
      let p := v.place
      let content := if v.breaks = 0 && p.col > 1 then 1 else 0
      let s : Comments := {
        notes, since := a.since.index, start := some p, dense := v.breaks ≤ 1
        footLine := if a.since.line > 0 then some (p.line + 1 + content - v.breaks) else none }
      spaceFrom a (.comment s) keyAllowed notes cs (v.pass c)
    else return ⟨keyAllowed, notes, ⟨c :: cs, v⟩⟩

/-- Is there a comment ahead on the same line? -/
def hashAhead (here : List Char) :
    List Char → (offset : Nat) → View → Except Malformed (Bool × View)
  | cs, offset, v => do
    if offset ≥ commentReach then return (false, v)
    let v ← v.need (offset + 1) here
    match cs with
    | [] => return (false, v)
    | c :: cs => if isBlank c then hashAhead here cs (offset + 1) v else return (c = '#', v)

/-- Pass over a comment behind a token, if there is one on the line of the
token. -/
def lineComment (c : Cursor) : Except Malformed Cursor := do
  if c.view.breaks > 0 then return c
  let (found, view) ← hashAhead c.rest c.rest 0 c.view
  let c := { c with view }
  if found then c.skipWhile (fun x => !isBreak x) else return c

end Taglet.Yaml
