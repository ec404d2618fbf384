import Taglet.Program.Basic
import Taglet.Scope.Basic
import Taglet.Text.Decimal

/-!
# Taglet.Typing.Violation

What can be wrong with a program.  A `Violation` is one broken rule; it is
reported under one of seven kinds, with a subject and, for mismatches, what
was expected and what was found (`Report`).
-/

namespace Taglet

/-! ## Reports -/

/-- The kinds of violations. -/
inductive ViolationKind where
  | unboundName
  | duplicateDeclaration
  | typeMismatch
  | arityMismatch
  | unsupportedOperator
  | unsupportedConstruct
  | integerOverflow
  /-- A code that stands for no kind. -/
  | other (code : Int)
deriving Repr, DecidableEq

namespace ViolationKind

/-- The kind with a given code. -/
def ofCode (code : Int) : ViolationKind :=
  match code with
  | 1 => unboundName
  | 2 => duplicateDeclaration
  | 3 => typeMismatch
  | 4 => arityMismatch
  | 5 => unsupportedOperator
  | 6 => unsupportedConstruct
  | 7 => integerOverflow
  | c => other c

/-- The name of a kind. -/
def text : ViolationKind → Bytes
  | unboundName => utf8 "unbound name"
  | duplicateDeclaration => utf8 "duplicate declaration"
  | typeMismatch => utf8 "type mismatch"
  | arityMismatch => utf8 "arity mismatch"
  | unsupportedOperator => utf8 "unsupported operator"
  | unsupportedConstruct => utf8 "unsupported construct"
  | integerOverflow => utf8 "integer overflow"
  | other c => utf8 "kind(" ++ Decimal.ofInt c ++ utf8 ")"

end ViolationKind

/-- A violation as it is reported. -/
structure Report where
  kind : ViolationKind
  subject : Bytes
  expected : Bytes := []
  actual : Bytes := []
deriving Repr, DecidableEq

/-- The wording of a report; what is empty is left out. -/
def Report.message (r : Report) : Bytes :=
  r.kind.text ++
    (if r.subject.isEmpty then [] else utf8 ": " ++ r.subject) ++
    (if r.expected.isEmpty && r.actual.isEmpty then []
     else utf8 ": expected " ++ r.expected ++ utf8 ", got " ++ r.actual)

/-! ## Violations -/

/-- Where two types fail to agree. -/
inductive MismatchAt where
  | assignment (name : String)
  | declaration (name : String)
  | ifCondition
  | whileCondition
  | branches
  | block
  | mustReturn (func : String)
  | result (func : String)
  | operand (op : Operator)
  | leftOperand (op : Operator)
  | rightOperand (op : Operator)
  | argument (index : Nat) (callee : String)
deriving Repr, DecidableEq

/-- The wording of the place of a mismatch. -/
def MismatchAt.text : MismatchAt → Bytes
  | .assignment name => utf8 "assignment to " ++ utf8 name
  | .declaration name => utf8 "declaration of " ++ utf8 name
  | .ifCondition => utf8 "if condition"
  | .whileCondition => utf8 "while condition"
  | .branches => utf8 "return types of if branches"
  | .block => utf8 "inconsistent return types in block"
  | .mustReturn func => utf8 "function " ++ utf8 func ++ utf8 " must end with return"
  | .result func => utf8 "return type of function " ++ utf8 func
  | .operand op => utf8 "operator " ++ utf8 op.text
  | .leftOperand op => utf8 "left operand of " ++ utf8 op.text
  | .rightOperand op => utf8 "right operand of " ++ utf8 op.text
  | .argument i callee => utf8 "argument " ++ Decimal.ofNat i ++ utf8 " of " ++ utf8 callee

/-- A broken rule of the language. -/
inductive Violation where
  | unbound (name : String)
  | usedBeforeDeclaration (name : String)
  | unknownIntrinsic (name : String)
  | unknownFunction (name : String)
  | duplicate (name : String)
  | redefinesIntrinsic (name : String)
  | mismatch (at_ : MismatchAt) (expected actual : Ty)
  | arity (callee : String) (expected actual : Nat)
  | unaryOperator (op : Operator)
  | binaryOperator (op : Operator)
  | missingStatement
  | missingExpression
  | declarationInBlock (name : String)
  | nestedDefinition (name : String)
  | returnAtTop
  | callInInitializer (name : String)
  | literalOutOfRange (value : Int64)
deriving Repr, DecidableEq

/-- How a violation is reported. -/
def Violation.report : Violation → Report
  | .unbound name => { kind := .unboundName, subject := utf8 name }
  | .usedBeforeDeclaration name =>
    { kind := .unboundName, subject := utf8 name ++ utf8 " used before its declaration" }
  | .unknownIntrinsic name => { kind := .unboundName, subject := utf8 "intrinsic " ++ utf8 name }
  | .unknownFunction name => { kind := .unboundName, subject := utf8 "function " ++ utf8 name }
  | .duplicate name => { kind := .duplicateDeclaration, subject := utf8 name }
  | .redefinesIntrinsic name =>
    { kind := .duplicateDeclaration
      subject := utf8 "function " ++ utf8 name ++ utf8 " redefines intrinsic" }
  | .mismatch place expected actual =>
    { kind := .typeMismatch, subject := place.text
      expected := utf8 expected.text, actual := utf8 actual.text }
  | .arity callee expected actual =>
    { kind := .arityMismatch, subject := utf8 "call to " ++ utf8 callee
      expected := Decimal.ofNat expected ++ utf8 " arguments", actual := Decimal.ofNat actual }
  | .unaryOperator op => { kind := .unsupportedOperator, subject := utf8 "unary " ++ utf8 op.text }
  | .binaryOperator op =>
    { kind := .unsupportedOperator, subject := utf8 "binary " ++ utf8 op.text }
  | .missingStatement => { kind := .unsupportedConstruct, subject := utf8 "statement <nil>" }
  | .missingExpression => { kind := .unsupportedConstruct, subject := utf8 "expression <nil>" }
  | .declarationInBlock name =>
    { kind := .unsupportedConstruct
      subject := utf8 "declaration of " ++ utf8 name ++ utf8 " inside a block" }
  | .nestedDefinition name =>
    { kind := .unsupportedConstruct, subject := utf8 "nested definition of " ++ utf8 name }
  | .returnAtTop => { kind := .unsupportedConstruct, subject := utf8 "return outside function" }
  | .callInInitializer name =>
    { kind := .unsupportedConstruct
      subject := utf8 "call to " ++ utf8 name ++ utf8 " in global initializer" }
  | .literalOutOfRange n =>
    { kind := .integerOverflow, subject := utf8 "literal " ++ Decimal.ofWord n }

/-- Why a program is not accepted. -/
inductive CheckError where
  | violation (v : Violation)
  /-- A scope refused a name for a reason other than a duplicate. -/
  | scope (e : ScopeError)
deriving Repr, DecidableEq

/-- The wording of a checking error. -/
def CheckError.message : CheckError → Bytes
  | .violation v => v.report.message
  | .scope e => e.message

/-- The checking error that a scope error amounts to. -/
def CheckError.ofScope : ScopeError → CheckError
  | .duplicate name => .violation (.duplicate name)
  | e => .scope e

end Taglet
