import Taglet.Failure
import Taglet.Program.Basic
import Taglet.Text.Decimal
import Taglet.Text.Quoted
import Taglet.Yaml.Node

/-!
# Taglet.Program.OfNode

Programs from trees of nodes.

A statement or expression is a mapping with a single key, which says what it
is, and its parts are fields of the value; of a field that is given twice the
last counts.  Literals and names may stand as bare scalars.  The functions here
follow the tree, so each reads a part of what it was given.
-/

namespace Taglet.OfNode

open Yaml

/-! ## Failures -/

/-- Where in a tree reading failed. -/
inductive Place where
  | stmt (index : Nat)
  | expr
  | ret
  | decl
  | assign
  | assignName
  | assignValue (name : String)
  | branch
  | branchCond
  | branchThen
  | branchElse
  | loop
  | loopCond
  | loopBody
  | define
  | defineName
  | defineRet (name : String)
  | defineParam (name : String) (index : Nat)
  | defineParamType (name param : String)
  | defineDecl (name : String) (index : Nat)
  | defineBody (name : String)
  | declName
  | declType (name : String)
  | declValue (name : String)
  /-- A form of expression by its key. -/
  | form (key : String)
  | formName (key : String)
  | unaryArg (op : Operator)
  | binaryLeft (op : Operator)
  | binaryRight (op : Operator)
  | intrinsicArg (name : String)
  | intrinsicLeft (name : String)
  | intrinsicRight (name : String)
  | intrinsicCall (name : String) (index : Nat)
  | call (name : String) (index : Nat)
deriving Repr, DecidableEq

/-- The wording of a place. -/
def Place.text : Place → Bytes
  | stmt i => utf8 "stmt " ++ Decimal.ofNat i
  | expr => utf8 "expr"
  | ret => utf8 "return"
  | decl => utf8 "decl"
  | assign => utf8 "assign"
  | assignName => utf8 "assign name"
  | assignValue name => utf8 "assign " ++ utf8 name
  | branch => utf8 "if"
  | branchCond => utf8 "if cond"
  | branchThen => utf8 "if then"
  | branchElse => utf8 "if else"
  | loop => utf8 "while"
  | loopCond => utf8 "while cond"
  | loopBody => utf8 "while body"
  | define => utf8 "define"
  | defineName => utf8 "define name"
  | defineRet name => utf8 "define " ++ utf8 name ++ utf8 ": ret"
  | defineParam name i => utf8 "define " ++ utf8 name ++ utf8 ": param " ++ Decimal.ofNat i
  | defineParamType name param => utf8 "define " ++ utf8 name ++ utf8 ": param " ++ utf8 param
  | defineDecl name i => utf8 "define " ++ utf8 name ++ utf8 ": decl " ++ Decimal.ofNat i
  | defineBody name => utf8 "define " ++ utf8 name ++ utf8 ": body"
  | declName => utf8 "name"
  | declType name => utf8 name ++ utf8 ": type"
  | declValue name => utf8 name ++ utf8 ": value"
  | form key => utf8 key
  | formName key => utf8 key ++ utf8 " name"
  | unaryArg op => utf8 "unary " ++ utf8 op.text
  | binaryLeft op => utf8 "binary " ++ utf8 op.text ++ utf8 ": left"
  | binaryRight op => utf8 "binary " ++ utf8 op.text ++ utf8 ": right"
  | intrinsicArg name => utf8 name
  | intrinsicLeft name => utf8 name ++ utf8 ": left"
  | intrinsicRight name => utf8 name ++ utf8 ": right"
  | intrinsicCall name i => utf8 name ++ utf8 ": arg " ++ Decimal.ofNat i
  | call name i => utf8 "call " ++ utf8 name ++ utf8 ": arg " ++ Decimal.ofNat i

/-- Why a node cannot be read.  Lines are those of the nodes at fault. -/
inductive Cause where
  | notStatements (line : Nat) (kind : String)
  | notStatement (line : Nat) (key : String)
  | notExpression (line : Nat) (key : String)
  | noExpression
  | notSingleKey (line : Nat) (kind : String)
  | notMapping (line : Nat) (kind : String)
  | notScalar (line : Nat) (kind : String)
  | field (line : Nat) (name : String)
  | noIdentifier
  | badIdentifier (line : Nat) (text : String)
  | badType (line : Nat) (text : String)
  | badUnary (line : Nat) (text : String)
  | badBinary (line : Nat) (text : String)
  | badBool (line : Nat)
  | badInt (line : Nat) (text : String) (e : Numeral.Error)
  | paramsNotSequence (line : Nat) (name : String)
  | declsNotSequence (line : Nat) (name : String)
  | argsNotSequence (line : Nat) (name : String)
  | arity (name : String) (expected : Nat)
deriving Repr, DecidableEq

/-- A cause on a line. -/
def onLine (line : Nat) (text : Bytes) : Bytes :=
  utf8 "line " ++ Decimal.ofNat line ++ utf8 ": " ++ text

/-- The wording of a cause. -/
def Cause.text : Cause → Bytes
  | notStatements l kind => onLine l (utf8 "statement list expected, got " ++ utf8 kind)
  | notStatement l key => onLine l (utf8 "unsupported statement: " ++ utf8 key)
  | notExpression l key => onLine l (utf8 "unsupported expression: " ++ utf8 key)
  | noExpression => utf8 "expression expected"
  | notSingleKey l kind => onLine l (utf8 "single-key mapping expected, got " ++ utf8 kind)
  | notMapping l kind => onLine l (utf8 "mapping expected, got " ++ utf8 kind)
  | notScalar l kind => onLine l (utf8 "scalar expected, got " ++ utf8 kind)
  | field l name => onLine l (utf8 "unexpected field: " ++ utf8 name)
  | noIdentifier => utf8 "identifier expected"
  | badIdentifier l text => onLine l (utf8 "bad identifier: " ++ Quoted.ofString text)
  | badType l text => onLine l (utf8 "invalid type annotation: " ++ Quoted.ofString text)
  | badUnary l text => onLine l (utf8 "unsupported unary operator: " ++ Quoted.ofString text)
  | badBinary l text => onLine l (utf8 "unsupported binary operator: " ++ Quoted.ofString text)
  | badBool l => onLine l (utf8 "bool: not a truth value")
  | badInt l text e =>
    onLine l (utf8 "int: strconv.ParseInt: parsing " ++ Quoted.ofString text ++ utf8 ": " ++
      utf8 e.text)
  | paramsNotSequence l name =>
    onLine l (utf8 "define " ++ utf8 name ++ utf8 ": params: sequence expected")
  | declsNotSequence l name =>
    onLine l (utf8 "define " ++ utf8 name ++ utf8 ": decls: sequence expected")
  | argsNotSequence l name =>
    onLine l (utf8 "call " ++ utf8 name ++ utf8 ": args: sequence expected")
  | arity name expected =>
    utf8 name ++ utf8 ": expected " ++ Decimal.ofNat expected ++ utf8 " arguments"

/-- A failure to read a tree. -/
abbrev Error := Failure Place Cause

/-- The wording of a failure. -/
def Error.message (e : Error) : Bytes :=
  Failure.message Place.text Cause.text e

/-! ## Fields and scalars -/

/-- The fields of a mapping: its keys and their values. -/
abbrev Fields := List (Node × Node)

/-- Refuse a field whose key is not among those allowed. -/
def checkKeys (allowed : List String) : Fields → Except Error Unit
  | [] => .ok ()
  | (k, _) :: rest =>
    if k.text ∈ allowed then checkKeys allowed rest else fail (.field k.line k.text)

/-- The fields of a node, which has to be a mapping with no keys but those
allowed. -/
def fieldsOf (allowed : List String) : Node → Except Error Fields
  | .mapping _ fs => do
    checkKeys allowed fs
    return fs
  | n => fail (.notMapping n.line n.kindText)

/-- The value of a field; of several with one key the last counts. -/
def field? (key : String) : Fields → Option Node
  | [] => none
  | (k, v) :: rest =>
    match field? key rest with
    | some n => some n
    | none => if k.text = key then some v else none

/-- May the character stand in an identifier, at its start or further on? -/
def isIdentChar (start : Bool) (c : Char) : Bool :=
  c = '_' || ('a' ≤ c && c ≤ 'z') || ('A' ≤ c && c ≤ 'Z') || (!start && '0' ≤ c && c ≤ '9')

/-- Is the text an identifier? -/
def isIdentifier (text : String) : Bool :=
  match text.toList with
  | [] => false
  | c :: cs => isIdentChar true c && cs.all (isIdentChar false)

/-- The identifier that a scalar holds. -/
def identifier : Option Node → Except Error String
  | some (.scalar line _ text) =>
    if text = "" then fail .noIdentifier
    else if isIdentifier text then .ok text
    else fail (.badIdentifier line text)
  | _ => fail .noIdentifier

/-- The type that a node names; no type is named by none. -/
def typeOf : Option Node → Except Error Ty
  | none => .ok .none
  | some n =>
    if n.isNull then .ok .none
    else
      match Ty.ofText? n.text with
      | some t => .ok t
      | none => fail (.badType n.line n.text)

/-- The text of a field, empty if it is missing. -/
def textOf : Option Node → String
  | none => ""
  | some n => n.text

/-- The expression that a scalar stands for: a literal or a name. -/
def scalarExpr (line : Nat) (tag : Tag) (text : String) : Except Error Expr :=
  match tag with
  | .null => .ok .none
  | .bool =>
    match boolOf? text with
    | some b => .ok (.bool b)
    | none => fail (.badBool line)
  | .int =>
    match Numeral.literal (utf8 text) with
    | .ok n => .ok (.num n)
    | .error e => fail (.badInt line text e)
  | .other =>
    if text = "None" then .ok .none
    else if text = "True" then .ok (.bool true)
    else if text = "False" then .ok (.bool false)
    else do return .ident (← identifier (some (.scalar line tag text)))

/-! ## Expressions -/

/-- What a field that should hold a list is. -/
inductive Items (α : Type) where
  /-- It is missing or without a value. -/
  | absent
  /-- It is something else, on a line. -/
  | other (line : Nat)
  | items (count : Nat) (result : Except Error (List α))

/-- An expression that may not be missing. -/
def required : Option (Except Error Expr) → Except Error Expr
  | none => fail .noExpression
  | some x => x

/-- A form of expression. -/
inductive Form where
  | none
  | scalar
  | unary
  | binary
  | intrinsic1
  | intrinsic2
  | call
deriving Repr, DecidableEq

/-- The form of a key. -/
def Form.ofKey? (key : String) : Option Form :=
  match key with
  | "none" => some none
  | "num" => some scalar
  | "bool" => some scalar
  | "id" => some scalar
  | "unary" => some unary
  | "binary" => some binary
  | "builtin1" => some intrinsic1
  | "builtin2" => some intrinsic2
  | "call" => some call
  | _ => Option.none

/-- The intrinsic call of a name with its arguments. -/
def intrinsicCall (name : String) (arity : Nat) : List Expr → Except Error Expr
  | [x] => .ok (.intrinsic1 name x)
  | [x, y] => .ok (.intrinsic2 name x y)
  | _ => fail (.arity name arity)

/-- The call of a name.  Calls of intrinsic procedures are written like others
and need exactly their arguments; other calls may leave them out. -/
def callOf (name : String) (args : (Nat → Place) → Items Expr) : Except Error Expr :=
  match intrinsicArity? name with
  | some arity =>
    match args (.intrinsicCall name) with
    | .items count result =>
      if count = arity then do intrinsicCall name arity (← result) else fail (.arity name arity)
    | _ => fail (.arity name arity)
  | none =>
    match args (.call name) with
    | .absent => .ok (.call name [])
    | .other line => fail (.argsNotSequence line name)
    | .items _ result => do return .call name (← result)

mutual

/-- The expression of a node. -/
def exprOf : Node → Except Error Expr
  | .scalar line tag text => scalarExpr line tag text
  | .mapping line [(k, v)] => exprOfForm line k.text v
  | n => fail (.notSingleKey n.line n.kindText)

/-- The expression of a form: its key and the node of its parts. -/
def exprOfForm (line : Nat) (key : String) : Node → Except Error Expr
  | .mapping here fs =>
    match Form.ofKey? key with
    | none => fail (.notExpression line key)
    | some .none => .ok .none
    | some .scalar => inside (.form key) (fail (.notScalar here "mapping"))
    | some .unary => do
      inside (.form key) (checkKeys ["op", "arg"] fs)
      match Operator.unary? (textOf (field? "op" fs)) with
      | none => fail (.badUnary here (textOf (field? "op" fs)))
      | some op => return .unary op (← inside (.unaryArg op) (required (exprField? "arg" fs)))
    | some .binary => do
      inside (.form key) (checkKeys ["op", "left", "right"] fs)
      match Operator.binary? (textOf (field? "op" fs)) with
      | none => fail (.badBinary here (textOf (field? "op" fs)))
      | some op =>
        let left ← inside (.binaryLeft op) (required (exprField? "left" fs))
        return .binary op left (← inside (.binaryRight op) (required (exprField? "right" fs)))
    | some .intrinsic1 => do
      inside (.form key) (checkKeys ["name", "arg"] fs)
      let name ← inside (.formName key) (identifier (field? "name" fs))
      return .intrinsic1 name (← inside (.intrinsicArg name) (required (exprField? "arg" fs)))
    | some .intrinsic2 => do
      inside (.form key) (checkKeys ["name", "left", "right"] fs)
      let name ← inside (.formName key) (identifier (field? "name" fs))
      let left ← inside (.intrinsicLeft name) (required (exprField? "left" fs))
      let right ← inside (.intrinsicRight name) (required (exprField? "right" fs))
      return .intrinsic2 name left right
    | some .call => do
      inside (.form key) (checkKeys ["name", "args"] fs)
      let name ← inside (.formName key) (identifier (field? "name" fs))
      callOf name fun place => (exprItems? place "args" fs).getD .absent
  | n =>
    match Form.ofKey? key, n with
    | none, _ => fail (.notExpression line key)
    | some .none, _ => .ok .none
    | some .scalar, .scalar here tag text => inside (.form key) (scalarExpr here tag text)
    | some .scalar, n => inside (.form key) (fail (.notScalar n.line n.kindText))
    | some _, n => inside (.form key) (fail (.notMapping n.line n.kindText))

/-- The expression of a field. -/
def exprField? (key : String) : Fields → Option (Except Error Expr)
  | [] => none
  | (k, v) :: rest =>
    match exprField? key rest with
    | some x => some x
    | none => if k.text = key then some (exprOf v) else none

/-- The expressions of a field that holds a list. -/
def exprItems? (place : Nat → Place) (key : String) : Fields → Option (Items Expr)
  | [] => none
  | (k, v) :: rest =>
    match exprItems? place key rest with
    | some x => some x
    | none => if k.text = key then some (exprItemsOf place v) else none

/-- The expressions of a node that is a list. -/
def exprItemsOf (place : Nat → Place) : Node → Items Expr
  | .sequence _ xs => .items xs.length (exprsOf place 0 xs)
  | n => if n.isNull then .absent else .other n.line

/-- The expressions of nodes, which are numbered. -/
def exprsOf (place : Nat → Place) : Nat → List Node → Except Error (List Expr)
  | _, [] => .ok []
  | i, n :: rest => do
    let x ← inside (place i) (exprOf n)
    return x :: (← exprsOf place (i + 1) rest)

end

/-! ## Declarations and parameters -/

/-- The declaration of a node. -/
def declOf (n : Node) : Except Error Decl := do
  let fs ← fieldsOf ["name", "type", "value"] n
  let name ← inside .declName (identifier (field? "name" fs))
  let ty ← inside (.declType name) (typeOf (field? "type" fs))
  let value ← inside (.declValue name) (required (exprField? "value" fs))
  return { name, ty, value }

/-- The declarations of a function's nodes, which are numbered. -/
def declsOf (func : String) : Nat → List Node → Except Error (List Decl)
  | _, [] => .ok []
  | i, n :: rest => do
    let d ← inside (.defineDecl func i) (declOf n)
    return d :: (← declsOf func (i + 1) rest)

/-- The parameter of a node. -/
def paramOf (func : String) (i : Nat) (n : Node) : Except Error Param := do
  let (fs, name) ← inside (.defineParam func i) do
    let fs ← fieldsOf ["name", "type"] n
    return (fs, ← identifier (field? "name" fs))
  let ty ← inside (.defineParamType func name) (typeOf (field? "type" fs))
  return { name, ty }

/-- The parameters of a function's nodes, which are numbered. -/
def paramsOf (func : String) : Nat → List Node → Except Error (List Param)
  | _, [] => .ok []
  | i, n :: rest => do
    let p ← paramOf func i n
    return p :: (← paramsOf func (i + 1) rest)

/-- The items of a field that holds a list, or nothing. -/
def itemsOf (cause : Nat → Cause) : Option Node → Except Error (List Node)
  | none => .ok []
  | some (.sequence _ xs) => .ok xs
  | some n => if n.isNull then .ok [] else fail (cause n.line)

/-! ## Statements -/

/-- A form of statement. -/
inductive StmtForm where
  | pass
  | expr
  | ret
  | decl
  | assign
  | branch
  | loop
  | define
deriving Repr, DecidableEq

/-- The form of a key. -/
def StmtForm.ofKey? (key : String) : Option StmtForm :=
  match key with
  | "pass" => some pass
  | "expr" => some expr
  | "return" => some ret
  | "decl" => some decl
  | "assign" => some assign
  | "if" => some branch
  | "while" => some loop
  | "define" => some define
  | _ => none

/-- What a function's definition holds besides its body. -/
structure Head where
  name : String
  params : List Param
  ret : Ty
  decls : List Decl

/-- The definition of a function, except for its body. -/
def headOf (fs : Fields) : Except Error Head := do
  inside .define (checkKeys ["name", "params", "ret", "decls", "body"] fs)
  let name ← inside .defineName (identifier (field? "name" fs))
  let ret ← inside (.defineRet name) (typeOf (field? "ret" fs))
  let params ← paramsOf name 0 (← itemsOf (.paramsNotSequence · name) (field? "params" fs))
  let decls ← declsOf name 0 (← itemsOf (.declsNotSequence · name) (field? "decls" fs))
  return { name, params, ret, decls }

/-- The assignment with given fields. -/
def assignOf (fs : Fields) : Except Error Stmt := do
  inside .assign (checkKeys ["name", "value"] fs)
  let name ← inside .assignName (identifier (field? "name" fs))
  return .assign name (← inside (.assignValue name) (required (exprField? "value" fs)))

/-- The statement of a form whose parts are not fields, or should be but are
not. -/
def simpleStmt (line : Nat) (key : String) (n : Node) : Except Error Stmt :=
  let notMapping (place : Place) : Except Error Stmt :=
    inside place (fail (.notMapping n.line n.kindText))
  match StmtForm.ofKey? key with
  | none => fail (.notStatement line key)
  | some .pass => .ok .pass
  | some .expr => do return .expr (← inside .expr (exprOf n))
  | some .ret =>
    if n.isNull then .ok (.ret .none) else do return .ret (← inside .ret (exprOf n))
  | some .decl => do return .decl (← inside .decl (declOf n))
  | some .assign => notMapping .assign
  | some .branch => notMapping .branch
  | some .loop => notMapping .loop
  | some .define => notMapping .define

mutual

/-- The statement of a node. -/
def stmtOf : Node → Except Error Stmt
  | .scalar line _ text =>
    if text = "pass" then .ok .pass else fail (.notSingleKey line "scalar")
  | .mapping line [(k, v)] => stmtOfForm line k.text v
  | n => fail (.notSingleKey n.line n.kindText)

/-- The statement of a form: its key and the node of its parts. -/
def stmtOfForm (line : Nat) (key : String) : Node → Except Error Stmt
  | .mapping here fs =>
    match StmtForm.ofKey? key with
    | some .assign => assignOf fs
    | some .branch => do
      inside .branch (checkKeys ["cond", "then", "else"] fs)
      let cond ← inside .branchCond (required (exprField? "cond" fs))
      let thn ← inside .branchThen ((stmtsField? "then" fs).getD (.ok []))
      let els ← inside .branchElse ((stmtsField? "else" fs).getD (.ok []))
      return .branch cond thn els
    | some .loop => do
      inside .loop (checkKeys ["cond", "body"] fs)
      let cond ← inside .loopCond (required (exprField? "cond" fs))
      return .loop cond (← inside .loopBody ((stmtsField? "body" fs).getD (.ok [])))
    | some .define => do
      let h ← headOf fs
      let body ← inside (.defineBody h.name) ((stmtsField? "body" fs).getD (.ok []))
      return .define h.name h.params h.ret h.decls body
    | _ => simpleStmt line key (.mapping here fs)
  | n => simpleStmt line key n

/-- The statements of a field. -/
def stmtsField? (key : String) : Fields → Option (Except Error (List Stmt))
  | [] => none
  | (k, v) :: rest =>
    match stmtsField? key rest with
    | some x => some x
    | none => if k.text = key then some (stmtsOf v) else none

/-- The statements of a node that is a list, or without a value. -/
def stmtsOf : Node → Except Error (List Stmt)
  | .sequence _ xs => stmtListOf 0 xs
  | n => if n.isNull then .ok [] else fail (.notStatements n.line n.kindText)

/-- The statements of nodes, which are numbered. -/
def stmtListOf : Nat → List Node → Except Error (List Stmt)
  | _, [] => .ok []
  | i, n :: rest => do
    let s ← inside (.stmt i) (stmtOf n)
    return s :: (← stmtListOf (i + 1) rest)

end

end Taglet.OfNode
