/-!
# Taglet.Program.Operator

The operators of the language: five of arithmetic, two of equality, four of
order, identity, and the two unary ones.  Which of them an expression may
carry is for the checker to say, so a code outside of the set is kept too.
-/

namespace Taglet

/-- An operator. -/
inductive Operator where
  | plus
  | minus
  | times
  | div
  | mod
  | eq
  | ne
  | le
  | ge
  | lt
  | gt
  | is
  | neg
  | not
  /-- A code that stands for no operator. -/
  | invalid (code : Int)
deriving Repr, DecidableEq

namespace Operator

/-- The operators of two operands, in the order of their codes. -/
def binaries : List Operator :=
  [plus, minus, times, div, mod, eq, ne, le, ge, lt, gt, is]

/-- All operators, in the order of their codes. -/
def all : List Operator :=
  binaries ++ [neg, not]

/-- The operator with a given code. -/
def ofCode (code : Int) : Operator :=
  match code with
  | .ofNat n => all.getD n (invalid code)
  | .negSucc _ => invalid code

/-- The code of an operator. -/
def code : Operator → Int
  | plus => 0
  | minus => 1
  | times => 2
  | div => 3
  | mod => 4
  | eq => 5
  | ne => 6
  | le => 7
  | ge => 8
  | lt => 9
  | gt => 10
  | is => 11
  | neg => 12
  | not => 13
  | invalid c => c

/-- The spelling of an operator. -/
def text : Operator → String
  | plus => "+"
  | minus => "-"
  | times => "*"
  | div => "//"
  | mod => "%"
  | eq => "=="
  | ne => "!="
  | le => "<="
  | ge => ">="
  | lt => "<"
  | gt => ">"
  | is => "is"
  | neg => "-"
  | not => "not"
  | invalid _ => "<invalid op>"

/-- The operator of two operands spelled `s`. -/
def binary? (s : String) : Option Operator :=
  binaries.find? fun op => op.text = s

/-- The operator of one operand spelled `s`. -/
def unary? (s : String) : Option Operator :=
  if s = "-" then some neg else if s = "not" then some not else none

/-- Does the operator compute an integer from integers? -/
def isArith : Operator → Bool
  | plus | minus | times | div | mod => true
  | _ => false

/-- Does the operator compare integers by order? -/
def isOrder : Operator → Bool
  | le | ge | lt | gt => true
  | _ => false

/-- Does the operator take one operand? -/
def isUnary : Operator → Bool
  | neg | not => true
  | _ => false

/-- Does the operator compare operands of one type for equality? -/
def isEquality : Operator → Bool
  | eq | ne => true
  | _ => false

/-- Does the operator take two operands? -/
def isBinary : Operator → Bool
  | neg | not | invalid _ => false
  | _ => true

end Operator

end Taglet
