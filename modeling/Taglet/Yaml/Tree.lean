import Taglet.Yaml.Layout
import Taglet.Yaml.Node

/-!
# Taglet.Yaml.Tree

The node that a list of tokens stands for.

Readers take tokens off the front of a list and give the rest back.  Every
reader looks at the first token it does not take, so a document whose tokens
break off is refused wherever it does.  The recursion is bounded by `fuel`,
of which twice the number of tokens is enough: a reader takes a token or hands
over to one that does.
-/

namespace Taglet.Yaml

/-- The tokens that are left, and the anchors met so far. -/
structure Rest where
  tokens : List Token
  anchors : List String := []

/-- What the handles of tags stand for. -/
abbrev Handles := List (String × Bytes)

/-- The text that tags of the standard start with. -/
def standardTag : Bytes := utf8 "tag:yaml.org,2002:"

/-- The handles that every document has. -/
def standardHandles : Handles := [("!", utf8 "!"), ("!!", standardTag)]

/-- What stands in front of a node, and the line the node starts on. -/
structure Properties where
  line : Nat
  anchor : Option String := none
  tag : Option Bytes := none

namespace Rest

/-- The line of the next token, counted from one. -/
def line (r : Rest) : Nat :=
  match r.tokens with
  | t :: _ => t.line + 1
  | [] => 0

/-- The kind of the next token. -/
def kind? (r : Rest) : Option TokenKind :=
  r.tokens.head?.map (·.kind)

/-- The rest without the next token. -/
def next (r : Rest) : Rest :=
  { r with tokens := r.tokens.tail }

end Rest

/-- The tag that a handle and a suffix make. -/
def tagOf (handles : Handles) (handle : String) (suffix : Bytes) : Except Malformed Bytes :=
  if handle = "" then .ok suffix
  else
    match handles.lookup handle with
    | some stands => .ok (stands ++ suffix)
    | none => .error .malformed

/-- Read the properties of a node: an anchor and a tag in either order. -/
def properties (handles : Handles) (r : Rest) : Except Malformed (Properties × Rest) :=
  match r.kind? with
  | some (.anchor a) =>
    match r.next.kind? with
    | some (.tag h s) => do
      let tag ← tagOf handles h s
      return (⟨r.line, some a, some tag⟩, r.next.next)
    | _ => .ok (⟨r.line, some a, none⟩, r.next)
  | some (.tag h s) => do
    let tag ← tagOf handles h s
    match r.next.kind? with
    | some (.anchor a) => return (⟨r.line, some a, some tag⟩, r.next.next)
    | _ => return (⟨r.line, none, some tag⟩, r.next)
  | _ => .ok (⟨r.line, none, none⟩, r)

/-- What a scalar with an explicit tag, if any, is. -/
def scalarTag (tag : Option Bytes) (plain : Bool) (text : String) : Tag :=
  let untagged := if plain then Tag.ofPlain text else .other
  match tag with
  | none => untagged
  | some t =>
    if t = utf8 "!" then untagged
    else if standardTag.isPrefixOf t then Tag.ofName (t.drop standardTag.length)
    else if (utf8 "!!").isPrefixOf t then Tag.ofName (t.drop 2)
    else .other

/-- A node that is left out. -/
def emptyNode (line : Nat) : Node :=
  .scalar line .null ""

/-- Does the block node before the next token end there, being left out? -/
def endsBlockValue (r : Rest) : Bool :=
  r.kind? = some .key || r.kind? = some .value || r.kind? = some .blockEnd

/-- Does the sequence entry before the next token end there? -/
def endsEntry (indentless : Bool) (r : Rest) : Bool :=
  r.kind? = some .blockEntry || r.kind? = some .blockEnd ||
    (indentless && (r.kind? = some .key || r.kind? = some .value))

/-- Does the flow node before the next token end there? -/
def endsFlow (close : TokenKind) (r : Rest) : Bool :=
  r.kind? = some .flowEntry || r.kind? = some close

mutual

/-- Read a node.  Outside of brackets it may be written by indentation, and
after a key a sequence may be indented no deeper than the key. -/
def node (handles : Handles) (block indentless : Bool) :
    (fuel : Nat) → Rest → Except Malformed (Node × Rest)
  | 0, _ => .error .malformed
  | fuel + 1, r =>
    match r.kind? with
    | some (.reference name) =>
      if name ∈ r.anchors then .ok (.reference r.line name, r.next) else .error .malformed
    | _ => do
      let (props, r) ← properties handles r
      let r := { r with anchors := props.anchor.toList ++ r.anchors }
      let sequence (x : List Node × Rest) : Node × Rest := (.sequence props.line x.1, x.2)
      let mapping (x : List (Node × Node) × Rest) : Node × Rest := (.mapping props.line x.1, x.2)
      let bare := props.anchor.isNone && props.tag.all (·.isEmpty)
      let leftOut : Except Malformed (Node × Rest) :=
        if bare then .error .malformed
        else .ok (.scalar props.line (scalarTag props.tag true "") "", r)
      match r.kind? with
      | some (.scalar plain text) =>
        return (.scalar props.line (scalarTag props.tag plain text) text, r.next)
      | some .flowSeq => return sequence (← flowItems handles fuel true [] r.next)
      | some .flowMap => return mapping (← flowEntries handles fuel true [] r.next)
      | some .blockEntry =>
        if indentless then return sequence (← blockItems handles true fuel [] r) else leftOut
      | some .blockSeq =>
        if block then return sequence (← blockItems handles false fuel [] r.next) else leftOut
      | some .blockMap =>
        if block then return mapping (← blockEntries handles fuel [] r.next) else leftOut
      | _ => leftOut

/-- Read the entries of a sequence written by indentation. -/
def blockItems (handles : Handles) (indentless : Bool) :
    (fuel : Nat) → List Node → Rest → Except Malformed (List Node × Rest)
  | 0, _, _ => .error .malformed
  | fuel + 1, items, r =>
    match r.kind? with
    | some .blockEntry =>
      if endsEntry indentless r.next then
        blockItems handles indentless fuel (emptyNode r.line :: items) r.next
      else do
        let (x, r) ← node handles true false fuel r.next
        blockItems handles indentless fuel (x :: items) r
    | some .blockEnd => .ok (items.reverse, if indentless then r else r.next)
    | _ => if indentless then .ok (items.reverse, r) else .error .malformed

/-- Read the entries of a mapping written by indentation. -/
def blockEntries (handles : Handles) :
    (fuel : Nat) → List (Node × Node) → Rest → Except Malformed (List (Node × Node) × Rest)
  | 0, _, _ => .error .malformed
  | fuel + 1, entries, r =>
    match r.kind? with
    | some .key => do
      let (k, r) ←
        if endsBlockValue r.next then .ok (emptyNode r.line, r.next)
        else node handles true true fuel r.next
      let (v, r) ←
        if r.kind? = some .value then
          if endsBlockValue r.next then .ok (emptyNode r.line, r.next)
          else node handles true true fuel r.next
        else .ok (emptyNode r.line, r)
      blockEntries handles fuel ((k, v) :: entries) r
    | some .blockEnd => .ok (entries.reverse, r.next)
    | _ => .error .malformed

/-- Read the items of a sequence in brackets.  An item may be a single pair,
which is a mapping of its own. -/
def flowItems (handles : Handles) :
    (fuel : Nat) → (first : Bool) → List Node → Rest → Except Malformed (List Node × Rest)
  | 0, _, _, _ => .error .malformed
  | fuel + 1, first, items, r =>
    if r.kind? = some .flowSeqEnd then .ok (items.reverse, r.next)
    else if !first && r.kind? ≠ some .flowEntry then .error .malformed
    else
      let r := if first then r else r.next
      match r.kind? with
      | some .flowSeqEnd => .ok (items.reverse, r.next)
      | some .key => do
        let line := r.line
        let r := r.next
        let (k, r) ←
          if r.kind? = some .value || endsFlow .flowSeqEnd r then .ok (emptyNode r.line, r.next)
          else node handles false false fuel r
        let (v, r) ←
          if r.kind? = some .value then
            if endsFlow .flowSeqEnd r.next then .ok (emptyNode r.line, r.next)
            else node handles false false fuel r.next
          else .ok (emptyNode r.line, r)
        flowItems handles fuel false (.mapping line [(k, v)] :: items) r
      | _ => do
        let (x, r) ← node handles false false fuel r
        flowItems handles fuel false (x :: items) r

/-- Read the entries of a mapping in braces. -/
def flowEntries (handles : Handles) :
    (fuel : Nat) → (first : Bool) → List (Node × Node) → Rest →
      Except Malformed (List (Node × Node) × Rest)
  | 0, _, _, _ => .error .malformed
  | fuel + 1, first, entries, r =>
    if r.kind? = some .flowMapEnd then .ok (entries.reverse, r.next)
    else if !first && r.kind? ≠ some .flowEntry then .error .malformed
    else
      let r := if first then r else r.next
      match r.kind? with
      | some .flowMapEnd => .ok (entries.reverse, r.next)
      | some .key => do
        let r := r.next
        let (k, r) ←
          if r.kind? = some .value || endsFlow .flowMapEnd r then .ok (emptyNode r.line, r)
          else node handles false false fuel r
        let (v, r) ←
          if r.kind? = some .value then
            if endsFlow .flowMapEnd r.next then .ok (emptyNode r.next.line, r.next)
            else node handles false false fuel r.next
          else .ok (emptyNode r.line, r)
        flowEntries handles fuel false ((k, v) :: entries) r
      | _ => do
        let (k, r) ← node handles false false fuel r
        flowEntries handles fuel false ((k, emptyNode r.line) :: entries) r

end

end Taglet.Yaml
