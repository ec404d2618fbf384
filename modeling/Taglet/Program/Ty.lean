/-!
# Taglet.Program.Ty

The static types of the language.  The set is closed: `None`, `bool` and
`int`.  A program built by hand may carry a code outside of it, and such
codes are kept apart from one another.
-/

namespace Taglet

/-- A static type. -/
inductive Ty where
  | none
  | bool
  | int
  /-- A code that stands for no type. -/
  | invalid (code : Int)
deriving Repr, DecidableEq, Inhabited

namespace Ty

/-- The type with a given code. -/
def ofCode (code : Int) : Ty :=
  if code = 0 then none else if code = 1 then bool else if code = 2 then int else invalid code

/-- The code of a type. -/
def code : Ty → Int
  | none => 0
  | bool => 1
  | int => 2
  | invalid c => c

/-- The name of a type in messages. -/
def text : Ty → String
  | none => "<None>"
  | bool => "bool"
  | int => "int"
  | invalid _ => "<invalid>"

/-- The type that an annotation names.  No annotation means `None`. -/
def ofText? (s : String) : Option Ty :=
  if s = "int" then some int
  else if s = "bool" then some bool
  else if s = "None" ∨ s = "<None>" ∨ s = "" then some none
  else Option.none

/-- A type as it is annotated in source text. -/
def annotation : Ty → String
  | none => "None"
  | t => t.text

end Ty

end Taglet
