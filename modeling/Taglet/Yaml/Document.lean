import Taglet.Yaml.Tree

/-!
# Taglet.Yaml.Document

Reading a text.  Only its first document counts; what follows it is not looked
at beyond the next tokens.  A text may hold no document at all.
-/

namespace Taglet.Yaml

/-- The version that a document may ask for. -/
def supportedVersion : Nat × Nat := (1, 1)

/-- Read the directives in front of a document.  The handles they define come
before those that every document has. -/
def directives : (versioned : Bool) → Handles → List Token → Except Malformed (Handles × List Token)
  | _, _, [] => .error .malformed
  | versioned, handles, t :: ts =>
    match t.kind with
    | .version major minor =>
      if versioned || (major, minor) ≠ supportedVersion then .error .malformed
      else directives true handles ts
    | .handle name stands =>
      if (handles.lookup name).isSome then .error .malformed
      else directives versioned (handles ++ [(name, stands)]) ts
    | .docStart => .ok (handles ++ standardHandles, ts)
    | _ => .error .malformed

/-- Does the token end a document that has no node? -/
def endsDocument (kind : Option TokenKind) : Bool :=
  match kind with
  | some (.version _ _) => true
  | some (.handle _ _) => true
  | some .docStart => true
  | some .docEnd => true
  | some .streamEnd => true
  | _ => false

/-- Read the node of a document up to its end. -/
def root (handles : Handles) (explicit : Bool) (ts : List Token) : Except Malformed Node := do
  let r : Rest := { tokens := ts }
  if explicit && endsDocument r.kind? then return emptyNode r.line
  let (n, r) ← node handles true false (2 * ts.length + 2) r
  if r.kind? = some .broken then .error .malformed else return n

/-- The node of the first document of a list of tokens. -/
def firstDocument (ts : List Token) : Except Malformed (Option Node) :=
  match ({ tokens := ts } : Rest).kind? with
  | some .broken => .error .malformed
  | some .streamEnd => .ok none
  | some (.version _ _) => explicit
  | some (.handle _ _) => explicit
  | some .docStart => explicit
  | _ => do return some (← root standardHandles false ts)
where
  /-- A document behind a mark. -/
  explicit : Except Malformed (Option Node) := do
    let (handles, ts) ← directives false [] ts
    return some (← root handles true ts)

/-- The node of the first document of a text, if there is one.  A byte order
mark in front belongs to the first piece, but not to the text. -/
def read (text : String) : Except Malformed (Option Node) :=
  let (cs, room) := match text.toList with
    | c :: cs =>
      if c = byteOrderMark then (cs, pieceSize - c.utf8Size) else (c :: cs, pieceSize)
    | [] => ([], pieceSize)
  let (pieces, sound) := divide room 0 cs
  let cs := if sound then cs else cs.take (pieces.foldl (· + ·) 0)
  match tokens { rest := joinBreaks cs, view := { pieces, sound } } with
  | ⟨.streamStart, _⟩ :: ts => firstDocument ts
  | _ => .error .malformed

end Taglet.Yaml
