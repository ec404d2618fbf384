import Taglet.Text.Numeral

/-!
# Taglet.Yaml.Node

The tree that a document stands for, and what a scalar without an explicit tag
is taken for.
-/

namespace Taglet.Yaml

/-- What a scalar is, as far as programs care. -/
inductive Tag where
  | null
  | bool
  | int
  | other
deriving Repr, DecidableEq

/-- A node of a document and the line it starts on.  An alias is kept as the
name it refers to. -/
inductive Node where
  | scalar (line : Nat) (tag : Tag) (text : String)
  | sequence (line : Nat) (items : List Node)
  | mapping (line : Nat) (entries : List (Node × Node))
  | reference (line : Nat) (name : String)
deriving Repr, BEq, Inhabited

namespace Node

/-- The line a node starts on. -/
def line : Node → Nat
  | scalar line _ _ => line
  | sequence line _ => line
  | mapping line _ => line
  | reference line _ => line

/-- The text of a scalar and the name of an alias; collections have none. -/
def text : Node → String
  | scalar _ _ text => text
  | reference _ name => name
  | _ => ""

/-- Is it a scalar without a value? -/
def isNull : Node → Bool
  | scalar _ .null _ => true
  | _ => false

/-- The name of a node's kind. -/
def kindText : Node → String
  | scalar _ _ _ => "scalar"
  | sequence _ _ => "sequence"
  | mapping _ _ => "mapping"
  | reference _ _ => "alias"

end Node

/-! ## Tags of scalars -/

/-- What the tag of the standard with a name stands for. -/
def Tag.ofName (name : Bytes) : Tag :=
  if name = utf8 "null" then .null
  else if name = utf8 "bool" then .bool
  else if name = utf8 "int" then .int
  else .other

/-- The texts without a value. -/
def nullTexts : List String := ["", "~", "null", "Null", "NULL"]

/-- The texts of the true truth value. -/
def trueTexts : List String := ["true", "True", "TRUE"]

/-- The texts of the false truth value. -/
def falseTexts : List String := ["false", "False", "FALSE"]

/-- The truth value of a text, if it is one of its spellings. -/
def boolOf? (text : String) : Option Bool :=
  if text ∈ trueTexts then some true
  else if text ∈ falseTexts then some false
  else none

/-- Is the text an integer?  Underscores do not count, and a base may be
written in front of a sign. -/
def isIntText (text : String) : Bool :=
  let start := text.toList.head?
  if start.any fun c => c.isDigit || c = '+' || c = '-' then
    let cs := text.toList.filter (· ≠ '_')
    let whole := utf8 (String.ofList cs)
    let based (base : Nat) (cs : List Char) : Bool :=
      (Numeral.inBase base (utf8 (String.ofList cs))).toBool
    (Numeral.literal whole).toBool || (Numeral.unsignedLiteral whole).toBool ||
      match cs with
      | '0' :: 'b' :: rest => based 2 rest
      | '0' :: 'o' :: rest => based 8 rest
      | '-' :: '0' :: 'b' :: rest => based 2 ('-' :: rest)
      | '-' :: '0' :: 'o' :: rest => based 8 ('-' :: rest)
      | _ => false
  else false

/-- What a plain scalar without an explicit tag is. -/
def Tag.ofPlain (text : String) : Tag :=
  if text ∈ nullTexts then .null
  else if (boolOf? text).isSome then .bool
  else if isIntText text then .int
  else .other

end Taglet.Yaml
