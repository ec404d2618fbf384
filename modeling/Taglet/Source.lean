import Taglet.Failure
import Taglet.Program.Basic
import Taglet.Text.Buffer
import Taglet.Text.Builder
import Taglet.Text.Decimal

/-!
# Taglet.Source

Programs as source text: one statement to a line, blocks indented by four
spaces, operands in parentheses when they are operations themselves, and an
empty line before a definition that is not the first statement.

Each function here gives the text of one piece of syntax; a larger text is
their concatenation.  Texts that nest are builders (`Taglet.Text.Builder`).
Only a missing node has no text.  The same text can be put at the end of a
buffer (`Program.appendSource`), which each piece of syntax hands to the next.
-/

namespace Taglet.Source

/-! ## Failures -/

/-- Where in a program a node is missing. -/
inductive Place where
  | stmt (index : Nat)
  | expr
  | ret
  | assign (name : String)
  | decl (name : String)
  | definition (name : String)
  | body
  | cond
  | thenBlock
  | elseBlock
  | loopBody
  | operand
  | left
  | right
  | argument (callee : String) (index : Nat)
deriving Repr, DecidableEq

/-- The wording of a place. -/
def Place.text : Place → Bytes
  | .stmt i => utf8 "stmt " ++ Decimal.ofNat i
  | .expr => utf8 "expr"
  | .ret => utf8 "return"
  | .assign name => utf8 "assign " ++ utf8 name
  | .decl name => utf8 "decl " ++ utf8 name
  | .definition name => utf8 "def " ++ utf8 name
  | .body => utf8 "body"
  | .cond => utf8 "cond"
  | .thenBlock => utf8 "then block"
  | .elseBlock => utf8 "else block"
  | .loopBody => utf8 "while body"
  | .operand => utf8 "arg"
  | .left => utf8 "left"
  | .right => utf8 "right"
  | .argument callee i => utf8 callee ++ utf8 ": arg " ++ Decimal.ofNat i

/-- What is missing. -/
inductive Cause where
  | missingStatement
  | missingExpression
deriving Repr, DecidableEq

/-- The wording of a cause. -/
def Cause.text : Cause → Bytes
  | .missingStatement => utf8 "unsupported stmt: <nil>"
  | .missingExpression => utf8 "unsupported expr: <nil>"

/-- A failure to write a program. -/
abbrev Error := Failure Place Cause

/-- The wording of a failure. -/
def Error.message (e : Error) : Bytes :=
  Failure.message Place.text Cause.text e

/-! ## Expressions -/

/-- The blanks in front of a line at depth `d`. -/
def indent (d : Nat) : Bytes :=
  List.replicate (4 * d) 32

/-- Is the expression an operation, which stands in parentheses as an operand? -/
def isOperation : Expr → Bool
  | .unary _ _ | .binary _ _ _ => true
  | _ => false

/-- An operand: its text, in parentheses if it is an operation. -/
def operand (x : Expr) (text : Builder) : Builder :=
  if isOperation x then utf8 "(" ++ text ++ utf8 ")" else text

/-- The text between the operator and the operand of a unary operation. -/
def unaryGap (op : Operator) : Bytes :=
  if op = .not then utf8 " " else []

/-- The parts of an argument list, with commas between them. -/
def commas : List Builder → Builder
  | [] => ∅
  | [a] => a
  | a :: rest => a ++ utf8 ", " ++ commas rest

mutual

/-- The text of an expression. -/
def expr : Expr → Except Error Builder
  | .missing => fail .missingExpression
  | .none => .ok (utf8 "None")
  | .bool b => .ok (if b then utf8 "True" else utf8 "False")
  | .num n => .ok (Decimal.ofWord n)
  | .ident name => .ok (utf8 name)
  | .unary op arg => do
    let a ← inside .operand (expr arg)
    return utf8 op.text ++ unaryGap op ++ operand arg a
  | .binary op left right => do
    let l ← inside .left (expr left)
    let r ← inside .right (expr right)
    return operand left l ++ utf8 " " ++ utf8 op.text ++ utf8 " " ++ operand right r
  | .intrinsic1 name arg => do
    let a ← inside (.argument name 0) (expr arg)
    return utf8 name ++ utf8 "(" ++ a ++ utf8 ")"
  | .intrinsic2 name left right => do
    let l ← inside (.argument name 0) (expr left)
    let r ← inside (.argument name 1) (expr right)
    return utf8 name ++ utf8 "(" ++ l ++ utf8 ", " ++ r ++ utf8 ")"
  | .call name args => do
    let texts ← arguments name 0 args
    return utf8 name ++ utf8 "(" ++ commas texts ++ utf8 ")"

/-- The texts of the arguments of a call, after `index` others. -/
def arguments (callee : String) : (index : Nat) → List Expr → Except Error (List Builder)
  | _, [] => .ok []
  | i, a :: rest => do
    let text ← inside (.argument callee i) (expr a)
    let texts ← arguments callee (i + 1) rest
    return text :: texts

end

/-! ## Statements -/

/-- A declaration at depth `d`. -/
def declaration (d : Nat) (x : Decl) : Except Error Builder := do
  let value ← expr x.value
  return indent d ++ utf8 x.name ++ utf8 ": " ++ utf8 x.ty.annotation ++ utf8 " = " ++ value ++
    utf8 "\n"

/-- The leading declarations of a function. -/
def declarations (d : Nat) : List Decl → Except Error Builder
  | [] => .ok ∅
  | x :: rest => do
    let text ← inside (.decl x.name) (declaration d x)
    let texts ← declarations d rest
    return text ++ texts

/-- The first line of a definition. -/
def signature (d : Nat) (name : String) (params : List Param) (ret : Ty) : Builder :=
  indent d ++ utf8 "def " ++ utf8 name ++ utf8 "(" ++
    commas (params.map fun p => utf8 p.name ++ utf8 ": " ++ utf8 p.ty.annotation) ++ utf8 ")" ++
    (if ret = .none then [] else utf8 " -> " ++ utf8 ret.annotation) ++ utf8 ":\n"

/-- A block at depth `d` from the text of its statements; an empty block is
written as `pass`. -/
def block (d : Nat) (body : List Stmt) (text : Except Error Builder) : Except Error Builder :=
  if body.isEmpty then .ok (indent d ++ utf8 "pass\n") else text

mutual

/-- A statement at depth `d`. -/
def stmt (d : Nat) : Stmt → Except Error Builder
  | .missing => fail .missingStatement
  | .pass => .ok (indent d ++ utf8 "pass\n")
  | .expr value => do
    let text ← inside .expr (expr value)
    return indent d ++ text ++ utf8 "\n"
  | .ret .none => .ok (indent d ++ utf8 "return\n")
  | .ret value => do
    let text ← inside .ret (expr value)
    return indent d ++ utf8 "return " ++ text ++ utf8 "\n"
  | .assign name value => do
    let text ← inside (.assign name) (expr value)
    return indent d ++ utf8 name ++ utf8 " = " ++ text ++ utf8 "\n"
  | .decl x => inside (.decl x.name) (declaration d x)
  | .define name params ret decls body => inside (.definition name) do
    if decls.isEmpty && body.isEmpty then
      return signature d name params ret ++ indent (d + 1) ++ utf8 "pass\n"
    else
      let ds ← declarations (d + 1) decls
      let b ← inside .body (block (d + 1) body (stmts (d + 1) body))
      return signature d name params ret ++ ds ++ b
  | .branch cond thn els => do
    let c ← inside .cond (expr cond)
    let t ← inside .thenBlock (block (d + 1) thn (stmts (d + 1) thn))
    let text ← inside .elseBlock (block (d + 1) els (stmts (d + 1) els))
    let e : Builder := if els.isEmpty then ∅ else indent d ++ utf8 "else:\n" ++ text
    return indent d ++ utf8 "if " ++ c ++ utf8 ":\n" ++ t ++ e
  | .loop cond body => do
    let c ← inside .cond (expr cond)
    let b ← inside .loopBody (block (d + 1) body (stmts (d + 1) body))
    return indent d ++ utf8 "while " ++ c ++ utf8 ":\n" ++ b

/-- Statements one after the other. -/
def stmts (d : Nat) : List Stmt → Except Error Builder
  | [] => .ok ∅
  | s :: rest => do
    let text ← stmt d s
    let texts ← stmts d rest
    return text ++ texts

end

/-! ## Programs -/

/-- Is the statement a definition? -/
def isDefinition : Stmt → Bool
  | .define _ _ _ _ _ => true
  | _ => false

/-- The top-level statements, after `index` others. -/
def topLevel : (index : Nat) → Program → Except Error Builder
  | _, [] => .ok ∅
  | i, s :: rest => do
    let text ← inside (.stmt i) (stmt 0 s)
    let texts ← topLevel (i + 1) rest
    return (if isDefinition s && i != 0 then utf8 "\n" else []) ++ text ++ texts

/-! ## Lines at the end of a buffer -/

/-- As many blanks as are written at once. -/
def spaces : Bytes := List.replicate 64 32

/-- Write so many blanks. -/
def appendSpaces (b : Buffer) (n : Nat) : Buffer :=
  if 0 < n then
    let k := min n spaces.length
    appendSpaces (b ++ spaces.take k) (n - k)
  else b
termination_by n
decreasing_by
  simp only [spaces, List.length_replicate] at *
  omega

/-- Write a text that starts a line at depth `d`. -/
def appendLine (d : Nat) (text : Bytes) (b : Buffer) : Buffer :=
  appendSpaces b (d * 4) ++ text

/-! ## Expressions at the end of a buffer -/

/-- Write an operand by `text`, in parentheses if it is an operation. -/
def appendOperand (x : Expr) (text : Buffer → Except Error Buffer) (b : Buffer) :
    Except Error Buffer :=
  if isOperation x then do
    let b ← text (b ++ utf8 "(")
    return b ++ utf8 ")"
  else text b

/-- Write a comma, unless this is the first part of a list. -/
def appendComma (index : Nat) (b : Buffer) : Buffer :=
  if index = 0 then b else b ++ utf8 ", "

mutual

/-- Write an expression. -/
def appendExpr : Expr → Buffer → Except Error Buffer
  | .missing, _ => fail .missingExpression
  | .none, b => .ok (b ++ utf8 "None")
  | .bool v, b => .ok (if v then b ++ utf8 "True" else b ++ utf8 "False")
  | .num n, b => .ok (b ++ Decimal.ofWord n)
  | .ident name, b => .ok (b ++ utf8 name)
  | .unary op arg, b =>
    inside .operand (appendOperand arg (appendExpr arg) (b ++ utf8 op.text ++ unaryGap op))
  | .binary op left right, b => do
    let b ← inside .left (appendOperand left (appendExpr left) b)
    let b := b ++ utf8 " " ++ utf8 op.text ++ utf8 " "
    inside .right (appendOperand right (appendExpr right) b)
  | .intrinsic1 name arg, b => do
    let b ← inside (.argument name 0) (appendExpr arg (b ++ utf8 name ++ utf8 "("))
    return b ++ utf8 ")"
  | .intrinsic2 name left right, b => do
    let b ← inside (.argument name 0) (appendExpr left (b ++ utf8 name ++ utf8 "("))
    let b ← inside (.argument name 1) (appendExpr right (b ++ utf8 ", "))
    return b ++ utf8 ")"
  | .call name args, b => do
    let b ← appendArguments name 0 args (b ++ utf8 name ++ utf8 "(")
    return b ++ utf8 ")"

/-- Write the arguments of a call, after `index` others. -/
def appendArguments (callee : String) :
    (index : Nat) → List Expr → Buffer → Except Error Buffer
  | _, [], b => .ok b
  | i, a :: rest, b => do
    let b ← inside (.argument callee i) (appendExpr a (appendComma i b))
    appendArguments callee (i + 1) rest b

end

/-! ## Statements at the end of a buffer -/

/-- Write a declaration at depth `d`. -/
def appendDeclaration (d : Nat) (x : Decl) (b : Buffer) : Except Error Buffer := do
  let b ← appendExpr x.value
    (appendLine d (utf8 x.name ++ utf8 ": " ++ utf8 x.ty.annotation ++ utf8 " = ") b)
  return b ++ utf8 "\n"

/-- Write the leading declarations of a function. -/
def appendDeclarations (d : Nat) : List Decl → Buffer → Except Error Buffer
  | [], b => .ok b
  | x :: rest, b => do
    let b ← inside (.decl x.name) (appendDeclaration d x b)
    appendDeclarations d rest b

/-- Write the parameters of a function, after `index` others. -/
def appendParams : (index : Nat) → List Param → Buffer → Buffer
  | _, [], b => b
  | i, p :: rest, b =>
    appendParams (i + 1) rest
      (appendLine 0 (utf8 p.name ++ utf8 ": " ++ utf8 p.ty.annotation) (appendComma i b))

/-- Write the first line of a definition. -/
def appendSignature (d : Nat) (name : String) (params : List Param) (ret : Ty) (b : Buffer) :
    Buffer :=
  let b := appendLine d (utf8 "def " ++ utf8 name ++ utf8 "(") b
  let b := appendParams 0 params b ++ utf8 ")"
  let b := if ret = .none then b else appendLine 0 (utf8 " -> " ++ utf8 ret.annotation) b
  b ++ utf8 ":\n"

/-- Write a block at depth `d`, whose statements `text` writes. -/
def appendBlock (d : Nat) (body : List Stmt) (text : Buffer → Except Error Buffer) (b : Buffer) :
    Except Error Buffer :=
  if body.isEmpty then .ok (appendLine d (utf8 "pass\n") b) else text b

mutual

/-- Write a statement at depth `d`. -/
def appendStmt (d : Nat) : Stmt → Buffer → Except Error Buffer
  | .missing, _ => fail .missingStatement
  | .pass, b => .ok (appendLine d (utf8 "pass\n") b)
  | .expr value, b => do
    let b ← inside .expr (appendExpr value (appendLine d [] b))
    return b ++ utf8 "\n"
  | .ret .none, b => .ok (appendLine d (utf8 "return") b ++ utf8 "\n")
  | .ret value, b => do
    let b ← inside .ret (appendExpr value (appendLine d (utf8 "return") b ++ utf8 " "))
    return b ++ utf8 "\n"
  | .assign name value, b => do
    let b ← inside (.assign name) (appendExpr value (appendLine d (utf8 name ++ utf8 " = ") b))
    return b ++ utf8 "\n"
  | .decl x, b => inside (.decl x.name) (appendDeclaration d x b)
  | .define name params ret decls body, b => inside (.definition name) do
    let b := appendSignature d name params ret b
    if decls.isEmpty && body.isEmpty then return appendLine (d + 1) (utf8 "pass\n") b
    else
      let b ← appendDeclarations (d + 1) decls b
      inside .body (appendBlock (d + 1) body (appendStmts (d + 1) body) b)
  | .branch cond thn els, b => do
    let b ← inside .cond (appendExpr cond (appendLine d (utf8 "if ") b))
    let b ← inside .thenBlock
      (appendBlock (d + 1) thn (appendStmts (d + 1) thn) (b ++ utf8 ":\n"))
    if els.isEmpty then return b
    else
      inside .elseBlock
        (appendBlock (d + 1) els (appendStmts (d + 1) els) (appendLine d (utf8 "else:\n") b))
  | .loop cond body, b => do
    let b ← inside .cond (appendExpr cond (appendLine d (utf8 "while ") b))
    inside .loopBody (appendBlock (d + 1) body (appendStmts (d + 1) body) (b ++ utf8 ":\n"))

/-- Write statements one after the other. -/
def appendStmts (d : Nat) : List Stmt → Buffer → Except Error Buffer
  | [], b => .ok b
  | s :: rest, b => do
    let b ← appendStmt d s b
    appendStmts d rest b

end

/-- Write the top-level statements, after `index` others. -/
def appendTopLevel : (index : Nat) → Program → Buffer → Except Error Buffer
  | _, [], b => .ok b
  | i, s :: rest, b => do
    let b := if isDefinition s && i != 0 then b ++ utf8 "\n" else b
    let b ← inside (.stmt i) (appendStmt 0 s b)
    appendTopLevel (i + 1) rest b

end Taglet.Source

namespace Taglet

/-- The source text of a program. -/
def Program.source (p : Program) : Except Source.Error Bytes := do
  let text ← Source.topLevel 0 p
  return text.toList

/-- Put the source text of a program after what a buffer holds. -/
def Program.appendSource (buffer : Bytes) (p : Program) : Except Source.Error Bytes := do
  let b ← Source.appendTopLevel 0 p buffer.toArray
  return b.toList

end Taglet
