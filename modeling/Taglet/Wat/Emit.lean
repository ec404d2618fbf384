import Taglet.Failure
import Taglet.Program.Basic
import Taglet.Scope.Basic
import Taglet.Tagged
import Taglet.Text.Buffer
import Taglet.Text.Builder
import Taglet.Text.Quoted

/-!
# Taglet.Wat.Emit

WebAssembly text for a program.

The module imports its memory and the intrinsic procedures, defines one
function per top-level definition and exports an entry function that
initializes the globals and then runs the remaining statements.  Values are
tagged words (`Taglet.Tagged`): arithmetic shifts the tag out and back in,
comparisons work on the words as they are.

Each function here gives the text of one piece of syntax, and a larger text
is their concatenation.  Texts that nest are builders (`Taglet.Text.Builder`);
their bytes are listed once, for the whole module.

The same text can be put at the end of a buffer (`appendProgram`): the buffer is
handed from one piece of syntax to the next, and each writes its own bytes, up to
the first that has none.
-/

namespace Taglet.Wat.Emit

/-! ## Names that an emitted module is linked against -/

/-- The module that memory is imported from. -/
def memoryModule : String := "js"

/-- The name that memory is imported under. -/
def memoryName : String := "memory"

/-- The module that intrinsic procedures are imported from. -/
def hostModule : String := "imports"

/-- The name that the entry function is exported under. -/
def entryName : String := "_start"

/-- The local of the entry function that keeps the last value. -/
def scratch : String := "scratch"

/-! ## Failures -/

/-- Where in a program emitting failed. -/
inductive Place where
  | function (name : String)
  | entry
  | param
  | initializer (name : String)
  | declaration
  | ifCond
  | whileCond
  | store (name : String)
  | argument (callee : String) (index : Nat)
deriving Repr, DecidableEq

/-- The wording of a place. -/
def Place.text : Place → Bytes
  | .function name => utf8 "func " ++ utf8 name
  | .entry => utf8 "entry"
  | .param => utf8 "param"
  | .initializer name => utf8 "decl " ++ utf8 name
  | .declaration => utf8 "decl"
  | .ifCond => utf8 "if cond"
  | .whileCond => utf8 "while cond"
  | .store name => utf8 name
  | .argument callee i => utf8 callee ++ utf8 ": arg " ++ Decimal.ofNat i

/-- Why a piece of a program has no text. -/
inductive Cause where
  | unbound (name : String)
  | scope (e : ScopeError)
  | nestedDefinition
  | missingStatement
  | missingExpression
  | operator (op : Operator)
deriving Repr, DecidableEq

/-- The wording of a cause. -/
def Cause.text : Cause → Bytes
  | .unbound name => utf8 "unbound name: " ++ utf8 name
  | .scope e => e.message
  | .nestedDefinition => utf8 "unsupported stmt: *ast.Define"
  | .missingStatement => utf8 "unsupported stmt: <nil>"
  | .missingExpression => utf8 "unsupported expr: <nil>"
  | .operator op => utf8 "unsupported operator: " ++ utf8 op.text

/-- A failure to emit a program. -/
abbrev Error := Failure Place Cause

/-- The wording of a failure. -/
def Error.message (e : Error) : Bytes :=
  Failure.message Place.text Cause.text e

/-! ## Words, names and lines -/

/-- The tabs in front of a line at depth `d`. -/
def indent (d : Nat) : Bytes :=
  List.replicate d 9

/-- An instruction that gives a constant word. -/
def const (w : Word) : Bytes :=
  utf8 "(i64.const " ++ Decimal.ofWord w ++ utf8 ")"

/-- The instruction that gives the address of a global, a machine integer. -/
def address (b : Binding) : Bytes :=
  utf8 "(i32.const " ++ Decimal.ofWord (Int64.ofInt b.addr) ++ utf8 ")"

/-- The instruction that reads a variable. -/
def read (b : Binding) (name : String) : Bytes :=
  if b.isLocal then utf8 "(local.get $" ++ utf8 name ++ utf8 ")"
  else utf8 "(i64.load " ++ address b ++ utf8 ")"

/-- What stands before a value in the instruction that assigns it. -/
def writeOpen (b : Binding) (name : String) : Bytes :=
  if b.isLocal then utf8 "(local.set $" ++ utf8 name ++ utf8 " "
  else utf8 "(i64.store " ++ address b ++ utf8 " "

/-- What stands after a value in the instruction that assigns it.  The name
of a global is kept in a comment. -/
def writeClose (b : Binding) (name : String) : Bytes :=
  if b.isLocal then utf8 ")\n" else utf8 ") ;; " ++ utf8 name ++ utf8 "\n"

/-! ## Expressions -/

/-- The instruction of an arithmetic operator. -/
def arithmetic? : Operator → Option String
  | .plus => some "i64.add"
  | .minus => some "i64.sub"
  | .times => some "i64.mul"
  | .div => some "i64.div_s"
  | .mod => some "i64.rem_s"
  | _ => none

/-- The instruction of an operator that compares words. -/
def comparison? : Operator → Option String
  | .eq => some "i64.eq"
  | .ne => some "i64.ne"
  | .le => some "i64.le_s"
  | .ge => some "i64.ge_s"
  | .lt => some "i64.lt_s"
  | .gt => some "i64.gt_s"
  | .is => some "i64.eq"
  | _ => none

/-- A unary operation: `-n` is `2 - n` on tagged integers, and `not b` is
`6 - b` on tagged truth values. -/
def unary (op : Operator) (arg : Builder) : Builder :=
  utf8 "(i64.sub " ++ const (if op = .not then 6 else 2) ++ utf8 " " ++ arg ++ utf8 ")"

/-- The integer of a tagged word. -/
def untag (x : Builder) : Builder :=
  utf8 "(i64.shr_s " ++ x ++ utf8 " (i64.const 1))"

/-- An arithmetic operation: on integers, with the result tagged again. -/
def arithmetic (instr : String) (l r : Builder) : Builder :=
  utf8 "(i64.or (i64.shl (" ++ utf8 instr ++ utf8 " " ++ untag l ++ utf8 " " ++ untag r ++
    utf8 ") (i64.const 1)) (i64.const 1))"

/-- A comparison: on words, with the result as a tagged truth value. -/
def comparison (instr : String) (l r : Builder) : Builder :=
  utf8 "(i64.add " ++ const (Tagged.ofBool false) ++ utf8 " (i64.shl (i64.extend_i32_u (" ++
    utf8 instr ++ utf8 " " ++ l ++ utf8 " " ++ r ++ utf8 ")) (i64.const 1)))"

/-- A binary operation, from the texts of its operands. -/
def binary (op : Operator) (left right : Except Error Builder) : Except Error Builder :=
  match arithmetic? op with
  | some instr => return arithmetic instr (← left) (← right)
  | none =>
    match comparison? op with
    | some instr => return comparison instr (← left) (← right)
    | none => fail (.operator op)

/-- A call, from the texts of its arguments. -/
def call (callee : String) (args : List Builder) : Builder :=
  utf8 "(call $" ++ utf8 callee ++ Builder.concat (args.map (utf8 " " ++ ·)) ++ utf8 ")"

mutual

/-- The instruction that gives the value of an expression. -/
def expr (env : Env) : Expr → Except Error Builder
  | .missing => fail .missingExpression
  | .none => .ok (const Tagged.none)
  | .bool b => .ok (const (Tagged.ofBool b))
  | .num n => .ok (const (Tagged.encode n))
  | .ident name =>
    match env.lookup? name with
    | none => fail (.unbound name)
    | some b => .ok (read b name)
  | .unary op arg => return unary op (← expr env arg)
  | .binary op left right => binary op (expr env left) (expr env right)
  | .intrinsic1 name arg => do
    let a ← inside (.argument name 0) (expr env arg)
    return call name [a]
  | .intrinsic2 name left right => do
    let l ← inside (.argument name 0) (expr env left)
    let r ← inside (.argument name 1) (expr env right)
    return call name [l, r]
  | .call name args => return call name (← arguments env name 0 args)

/-- The arguments of a call, after `index` others. -/
def arguments (env : Env) (callee : String) :
    (index : Nat) → List Expr → Except Error (List Builder)
  | _, [] => .ok []
  | i, a :: rest => do
    let text ← inside (.argument callee i) (expr env a)
    let texts ← arguments env callee (i + 1) rest
    return text :: texts

end

/-! ## Statements -/

/-- Assign the value of an expression to a variable. -/
def store (d : Nat) (env : Env) (name : String) (value : Expr) : Except Error Builder :=
  match env.lookup? name with
  | none => fail (.unbound name)
  | some b => do
    let text ← inside (.store name) (expr env value)
    return indent d ++ writeOpen b name ++ text ++ writeClose b name

/-- Evaluate an expression for its effect.  The entry function keeps its
value, a function drops it. -/
def evaluate (d : Nat) (env : Env) (value : Expr) : Except Error Builder := do
  let text ← expr env value
  let before := if env.isTop then utf8 "(local.set $" ++ utf8 scratch ++ utf8 " " else utf8 "(drop "
  return indent d ++ before ++ text ++ utf8 ")\n"

mutual

/-- The lines of a statement at depth `d`. -/
def stmt (d : Nat) (env : Env) : Stmt → Except Error Builder
  | .missing => fail .missingStatement
  | .pass => .ok (indent d ++ utf8 "(nop)\n")
  | .decl x => store d env x.name x.value
  | .assign name value => store d env name value
  | .expr value => evaluate d env value
  | .ret value => do
    let text ← expr env value
    return indent d ++ utf8 "(return " ++ text ++ utf8 ")\n"
  | .branch cond thn els => do
    let c ← inside .ifCond (expr env cond)
    let t ← block (d + 2) env thn
    let e ← block (d + 2) env els
    return indent d ++ utf8 "(if (i64.eq " ++ const (Tagged.ofBool true) ++ utf8 " " ++ c ++
      utf8 ")\n" ++
      indent (d + 1) ++ utf8 "(then\n" ++ t ++ indent (d + 1) ++ utf8 ")\n" ++
      indent (d + 1) ++ utf8 "(else\n" ++ e ++ indent (d + 1) ++ utf8 ")\n" ++
      indent d ++ utf8 ")\n"
  | .loop cond body => do
    let c ← inside .whileCond (expr env cond)
    let b ← block (d + 2) env body
    return indent d ++ utf8 "(block\n" ++ indent (d + 1) ++ utf8 "(loop\n" ++
      indent (d + 2) ++ utf8 "(br_if 1 (i64.eq " ++ const (Tagged.ofBool false) ++ utf8 " " ++ c ++
      utf8 "))\n" ++ b ++
      indent (d + 2) ++ utf8 "(br 0)\n" ++ indent (d + 1) ++ utf8 ")\n" ++ indent d ++ utf8 ")\n"
  | .define _ _ _ _ _ => fail .nestedDefinition

/-- The lines of statements one after the other. -/
def block (d : Nat) (env : Env) : List Stmt → Except Error Builder
  | [] => .ok ∅
  | s :: rest => do
    let text ← stmt d env s
    let texts ← block d env rest
    return text ++ texts

end

/-! ## Functions -/

/-- Declare a local of a function. -/
def declareLocal (place : Place) (name : String) (ty : Ty) (env : Env) : Except Error Env :=
  match env.declareLocal name ty with
  | .ok (env, _) => .ok env
  | .error e => inside place (fail (.scope e))

/-- Declare the parameters of a function. -/
def bindParams : List Param → Env → Except Error Env
  | [], env => .ok env
  | p :: rest, env => do
    let env ← declareLocal .param p.name p.ty env
    bindParams rest env

/-- Initialize the leading declarations of a function, each in the scope of
the ones before it. -/
def initializers : List Decl → Env → Except Error (Env × Builder)
  | [], env => .ok (env, ∅)
  | x :: rest, env => do
    let value ← inside (.initializer x.name) (expr env x.value)
    let env ← declareLocal .declaration x.name x.ty env
    let (env, texts) ← initializers rest env
    return (env, indent 2 ++ utf8 "(local.set $" ++ utf8 x.name ++ utf8 " " ++ value ++
      utf8 ")\n" ++ texts)

/-- A function.  Falling off its end gives `None`. -/
def function (env : Env) (name : String) (params : List Param) (decls : List Decl)
    (body : List Stmt) : Except Error Builder := do
  let scope ← bindParams params (env.nest name)
  let (scope, inits) ← initializers decls scope
  let b ← block 2 scope body
  return indent 1 ++ utf8 "(func $" ++ utf8 name ++
    (params.map fun p => utf8 " (param $" ++ utf8 p.name ++ utf8 " i64)").flatten ++
    utf8 " (result i64)\n" ++
    (decls.map fun x => indent 2 ++ utf8 "(local $" ++ utf8 x.name ++ utf8 " i64)\n").flatten ++
    inits ++ b ++
    indent 2 ++ const Tagged.none ++ utf8 "\n" ++ indent 1 ++ utf8 ")\n"

/-- The functions of a program. -/
def functions (env : Env) : Program → Except Error Builder
  | [] => .ok ∅
  | .define name params _ decls body :: rest => do
    let text ← inside (.function name) (function env name params decls body)
    let texts ← functions env rest
    return text ++ texts
  | _ :: rest => functions env rest

/-! ## The entry function -/

/-- Initialize the globals of a program. -/
def globals (env : Env) : Program → Except Error Builder
  | [] => .ok ∅
  | .decl x :: rest => do
    let text ← store 2 env x.name x.value
    let texts ← globals env rest
    return text ++ texts
  | _ :: rest => globals env rest

/-- Is the statement one that the entry function runs after the globals are
initialized? -/
def isAction : Stmt → Bool
  | .define _ _ _ _ _ | .decl _ => false
  | _ => true

/-- Does the program have a result, the value of its last statement? -/
def hasResult (p : Program) : Bool :=
  match p.getLast? with
  | some (.expr _) => true
  | _ => false

/-- The entry function. -/
def entry (env : Env) (p : Program) : Except Error Builder := do
  let inits ← globals env p
  let actions ← block 2 env (p.filter isAction)
  return indent 1 ++ utf8 "(func (export " ++ Quoted.ofString entryName ++ utf8 ")" ++
    (if hasResult p then utf8 " (result i64)" else []) ++ utf8 "\n" ++
    indent 2 ++ utf8 "(local $" ++ utf8 scratch ++ utf8 " i64)\n" ++ inits ++ actions ++
    (if hasResult p then
      indent 2 ++ untag (utf8 "(local.get $" ++ utf8 scratch ++ utf8 ")") ++ utf8 "\n"
     else ∅) ++
    indent 1 ++ utf8 ")\n"

/-! ## Modules -/

/-- The import of memory.  The number of its pages is a machine integer. -/
def memory (pages : Nat) : Bytes :=
  indent 1 ++ utf8 "(import " ++ Quoted.ofString memoryModule ++ utf8 " " ++
    Quoted.ofString memoryName ++ utf8 " (memory " ++ Decimal.ofWord (Int64.ofNat pages) ++
    utf8 "))\n"

/-- The import of an intrinsic procedure of so many arguments. -/
def intrinsic (arity : Nat) (name : String) : Bytes :=
  indent 1 ++ utf8 "(func $" ++ utf8 name ++ utf8 " (import " ++ Quoted.ofString hostModule ++
    utf8 " " ++ Quoted.ofString name ++ utf8 ")" ++
    (List.replicate arity (utf8 " (param i64)")).flatten ++ utf8 " (result i64))\n"

/-- The text of a whole module. -/
def program (env : Env) (p : Program) : Except Error Bytes := do
  let fs ← functions env p
  let e ← inside .entry (entry env p)
  let text : Builder := utf8 "(module\n" ++ memory env.pages ++
    (intrinsics1.map (intrinsic 1)).flatten ++ (intrinsics2.map (intrinsic 2)).flatten ++
    fs ++ e ++ utf8 ")\n"
  return text.toList

/-! ## Lines at the end of a buffer -/

/-- As many tabs as are written at once. -/
def tabs : Bytes := List.replicate 32 9

/-- Write the tabs of depth `d`. -/
def appendTabs (b : Buffer) (d : Nat) : Buffer :=
  if tabs.length < d then appendTabs (b ++ tabs) (d - tabs.length) else b ++ tabs.take d
termination_by d
decreasing_by
  simp only [tabs, List.length_replicate] at *
  omega

/-- Write a text that starts a line at depth `d`. -/
def appendLine (d : Nat) (text : Bytes) (b : Buffer) : Buffer :=
  appendTabs b d ++ text

/-! ## Expressions at the end of a buffer -/

/-- Write the integer of a tagged word, which `x` writes. -/
def appendUntag (x : Buffer → Except Error Buffer) (b : Buffer) : Except Error Buffer := do
  let b ← x (b ++ utf8 "(i64.shr_s ")
  return b ++ utf8 " (i64.const 1))"

/-- Write a binary operation, whose operands `left` and `right` write. -/
def appendBinary (op : Operator) (left right : Buffer → Except Error Buffer) (b : Buffer) :
    Except Error Buffer :=
  match arithmetic? op with
  | some instr => do
    let b ← appendUntag left (b ++ utf8 "(i64.or (i64.shl (" ++ utf8 instr ++ utf8 " ")
    let b ← appendUntag right (b ++ utf8 " ")
    return b ++ utf8 ") (i64.const 1)) (i64.const 1))"
  | none =>
    match comparison? op with
    | some instr => do
      let b ← left (b ++ utf8 "(i64.add " ++ const (Tagged.ofBool false) ++
        utf8 " (i64.shl (i64.extend_i32_u (" ++ utf8 instr ++ utf8 " ")
      let b ← right (b ++ utf8 " ")
      return b ++ utf8 ")) (i64.const 1)))"
    | none => fail (.operator op)

mutual

/-- Write the instruction that gives the value of an expression. -/
def appendExpr (env : Env) : Expr → Buffer → Except Error Buffer
  | .missing, _ => fail .missingExpression
  | .none, b => .ok (b ++ const Tagged.none)
  | .bool v, b => .ok (b ++ const (Tagged.ofBool v))
  | .num n, b => .ok (b ++ const (Tagged.encode n))
  | .ident name, b =>
    match env.lookup? name with
    | none => fail (.unbound name)
    | some x => .ok (b ++ read x name)
  | .unary op arg, b => do
    let b ← appendExpr env arg
      (b ++ utf8 "(i64.sub " ++ const (if op = .not then 6 else 2) ++ utf8 " ")
    return b ++ utf8 ")"
  | .binary op left right, b => appendBinary op (appendExpr env left) (appendExpr env right) b
  | .intrinsic1 name arg, b => do
    let b := b ++ utf8 "(call $" ++ utf8 name
    let b ← inside (.argument name 0) (appendExpr env arg (b ++ utf8 " "))
    return b ++ utf8 ")"
  | .intrinsic2 name left right, b => do
    let b := b ++ utf8 "(call $" ++ utf8 name
    let b ← inside (.argument name 0) (appendExpr env left (b ++ utf8 " "))
    let b ← inside (.argument name 1) (appendExpr env right (b ++ utf8 " "))
    return b ++ utf8 ")"
  | .call name args, b => do
    let b ← appendArguments env name 0 args (b ++ utf8 "(call $" ++ utf8 name)
    return b ++ utf8 ")"

/-- Write the arguments of a call, after `index` others. -/
def appendArguments (env : Env) (callee : String) :
    (index : Nat) → List Expr → Buffer → Except Error Buffer
  | _, [], b => .ok b
  | i, a :: rest, b => do
    let b ← inside (.argument callee i) (appendExpr env a (b ++ utf8 " "))
    appendArguments env callee (i + 1) rest b

end

/-! ## Statements at the end of a buffer -/

/-- Write the assignment of an expression's value to a variable. -/
def appendStore (d : Nat) (env : Env) (name : String) (value : Expr) (b : Buffer) :
    Except Error Buffer :=
  match env.lookup? name with
  | none => fail (.unbound name)
  | some x => do
    let b ← inside (.store name) (appendExpr env value (appendLine d (writeOpen x name) b))
    return b ++ writeClose x name

/-- Write the evaluation of an expression for its effect. -/
def appendEvaluate (d : Nat) (env : Env) (value : Expr) (b : Buffer) : Except Error Buffer := do
  let before := if env.isTop then utf8 "(local.set $" ++ utf8 scratch ++ utf8 " " else utf8 "(drop "
  let b ← appendExpr env value (appendLine d before b)
  return b ++ utf8 ")\n"

mutual

/-- Write the lines of a statement at depth `d`. -/
def appendStmt (d : Nat) (env : Env) : Stmt → Buffer → Except Error Buffer
  | .missing, _ => fail .missingStatement
  | .pass, b => .ok (appendLine d (utf8 "(nop)\n") b)
  | .decl x, b => appendStore d env x.name x.value b
  | .assign name value, b => appendStore d env name value b
  | .expr value, b => appendEvaluate d env value b
  | .ret value, b => do
    let b ← appendExpr env value (appendLine d (utf8 "(return ") b)
    return b ++ utf8 ")\n"
  | .branch cond thn els, b => do
    let b := appendLine d (utf8 "(if (i64.eq " ++ const (Tagged.ofBool true) ++ utf8 " ") b
    let b ← inside .ifCond (appendExpr env cond b)
    let b := appendLine (d + 1) (utf8 "(then\n") (b ++ utf8 ")\n")
    let b ← appendBlock (d + 2) env thn b
    let b := appendLine (d + 1) (utf8 "(else\n") (appendLine (d + 1) (utf8 ")\n") b)
    let b ← appendBlock (d + 2) env els b
    return appendLine d (utf8 ")\n") (appendLine (d + 1) (utf8 ")\n") b)
  | .loop cond body, b => do
    let b := appendLine (d + 1) (utf8 "(loop\n") (appendLine d (utf8 "(block\n") b)
    let b := appendLine (d + 2)
      (utf8 "(br_if 1 (i64.eq " ++ const (Tagged.ofBool false) ++ utf8 " ") b
    let b ← inside .whileCond (appendExpr env cond b)
    let b ← appendBlock (d + 2) env body (b ++ utf8 "))\n")
    let b := appendLine (d + 1) (utf8 ")\n") (appendLine (d + 2) (utf8 "(br 0)\n") b)
    return appendLine d (utf8 ")\n") b
  | .define _ _ _ _ _, _ => fail .nestedDefinition

/-- Write the lines of statements one after the other. -/
def appendBlock (d : Nat) (env : Env) : List Stmt → Buffer → Except Error Buffer
  | [], b => .ok b
  | s :: rest, b => do
    let b ← appendStmt d env s b
    appendBlock d env rest b

end

/-! ## Functions at the end of a buffer -/

/-- Write the parameters of a function, and declare them. -/
def appendParams : List Param → Env → Buffer → Except Error (Env × Buffer)
  | [], env, b => .ok (env, b)
  | p :: rest, env, b => do
    let env ← declareLocal .param p.name p.ty env
    appendParams rest env (b ++ utf8 " (param $" ++ utf8 p.name ++ utf8 " i64)")

/-- Write the initializers of the leading declarations of a function, each in
the scope of the ones before it. -/
def appendInitializers : List Decl → Env → Buffer → Except Error (Env × Buffer)
  | [], env, b => .ok (env, b)
  | x :: rest, env, b => do
    let b := appendLine 2 (utf8 "(local.set $" ++ utf8 x.name ++ utf8 " ") b
    let b ← inside (.initializer x.name) (appendExpr env x.value b)
    let env ← declareLocal .declaration x.name x.ty env
    appendInitializers rest env (b ++ utf8 ")\n")

/-- Write the local of a declaration. -/
def appendLocal (b : Buffer) (x : Decl) : Buffer :=
  appendLine 2 (utf8 "(local $" ++ utf8 x.name ++ utf8 " i64)\n") b

/-- Write a function. -/
def appendFunction (env : Env) (name : String) (params : List Param) (decls : List Decl)
    (body : List Stmt) (b : Buffer) : Except Error Buffer := do
  let b := appendLine 1 (utf8 "(func $" ++ utf8 name) b
  let (scope, b) ← appendParams params (env.nest name) b
  let b := decls.foldl appendLocal (b ++ utf8 " (result i64)\n")
  let (scope, b) ← appendInitializers decls scope b
  let b ← appendBlock 2 scope body b
  return appendLine 1 (utf8 ")\n") (appendLine 2 (const Tagged.none ++ utf8 "\n") b)

/-- Write the functions of a program. -/
def appendFunctions (env : Env) : Program → Buffer → Except Error Buffer
  | [], b => .ok b
  | .define name params _ decls body :: rest, b => do
    let b ← inside (.function name) (appendFunction env name params decls body b)
    appendFunctions env rest b
  | _ :: rest, b => appendFunctions env rest b

/-! ## Modules at the end of a buffer -/

/-- Write the initialization of the globals of a program. -/
def appendGlobals (env : Env) : Program → Buffer → Except Error Buffer
  | [], b => .ok b
  | .decl x :: rest, b => do
    let b ← appendStore 2 env x.name x.value b
    appendGlobals env rest b
  | _ :: rest, b => appendGlobals env rest b

/-- Write the entry function. -/
def appendEntry (env : Env) (p : Program) (b : Buffer) : Except Error Buffer := do
  let b := appendLine 1 (utf8 "(func (export " ++ Quoted.ofString entryName ++ utf8 ")") b
  let b := if hasResult p then b ++ utf8 " (result i64)" else b
  let b := appendLine 2 (utf8 "(local $" ++ utf8 scratch ++ utf8 " i64)\n") (b ++ utf8 "\n")
  let b ← appendGlobals env p b
  let b ← appendBlock 2 env (p.filter isAction) b
  let b := if hasResult p then
      appendLine 2 (utf8 "(i64.shr_s " ++ utf8 "(local.get $" ++ utf8 scratch ++ utf8 ")" ++
        utf8 " (i64.const 1))" ++ utf8 "\n") b
    else b
  return appendLine 1 (utf8 ")\n") b

/-- Write the import of memory. -/
def appendMemory (pages : Nat) (b : Buffer) : Buffer :=
  appendLine 1 (utf8 "(import " ++ Quoted.ofString memoryModule ++ utf8 " " ++
    Quoted.ofString memoryName ++ utf8 " (memory " ++ Decimal.ofWord (Int64.ofNat pages) ++
    utf8 "))\n") b

/-- Write the import of an intrinsic procedure of so many arguments. -/
def appendIntrinsic (arity : Nat) (b : Buffer) (name : String) : Buffer :=
  appendLine 1 (utf8 "(func $" ++ utf8 name ++ utf8 " (import " ++ Quoted.ofString hostModule ++
    utf8 " " ++ Quoted.ofString name ++ utf8 ")" ++
    (List.replicate arity (utf8 " (param i64)")).flatten ++ utf8 " (result i64))\n") b

/-- Put the text of a module after what a buffer holds. -/
def appendProgram (buffer : Bytes) (env : Env) (p : Program) : Except Error Bytes := do
  let b := appendMemory env.pages (buffer.toArray ++ utf8 "(module\n")
  let b := intrinsics2.foldl (appendIntrinsic 2) (intrinsics1.foldl (appendIntrinsic 1) b)
  let b ← appendFunctions env p b
  let b ← inside .entry (appendEntry env p b)
  return (b ++ utf8 ")\n").toList

end Taglet.Wat.Emit
