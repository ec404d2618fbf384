import Taglet.SlotSet
import Taglet.Tagged
import Taglet.Typing.Violation

/-!
# Taglet.Typing.Check

The checker.  It first declares all top-level names, so that functions and
globals may be used before they are written, and then checks the statements
in order; the first violation is the answer.

An accepted expression has a type, and so has every expression inside of it:
`Typed` carries them all, in the order in which they are written.  The
initializer of a global may only use globals initialized before it, and may
not call defined functions.
-/

namespace Taglet

/-- What an accepted expression is known to be. -/
structure Typed where
  /-- The type of the expression. -/
  ty : Ty
  /-- The types of the expressions inside of it. -/
  inner : List Ty
deriving Repr, DecidableEq

/-- The type of an expression and those inside of it, from the outside in and
from left to right. -/
def Typed.all (t : Typed) : List Ty :=
  t.ty :: t.inner

/-- What an expression is checked against. -/
structure Context where
  env : Env
  /-- In the initializer of a global: the slots initialized so far. -/
  ready : Option SlotSet := none

/-- Reject with a violation. -/
def reject {α : Type} (v : Violation) : Except CheckError α :=
  .error (.violation v)

/-- Demand a type. -/
def expect (place : MismatchAt) (expected actual : Ty) : Except CheckError Unit :=
  if actual = expected then .ok () else reject (.mismatch place expected actual)

/-- Pass a scope error on. -/
def ofScope {α : Type} : Except ScopeError α → Except CheckError α
  | .ok a => .ok a
  | .error e => .error (.ofScope e)

/-! ## Expressions -/

/-- May a binding be read here? -/
def Context.isReadable (Γ : Context) (b : Binding) : Bool :=
  match Γ.ready with
  | none => true
  | some ready => b.isLocal || ready.contains b.slot

/-- The operand type of a unary operator, which is also its result type. -/
def Operator.unaryTy? : Operator → Option Ty
  | .neg => some .int
  | .not => some .bool
  | _ => none

/-- The result type of a binary operator on operands of given types. -/
def Operator.binaryTy (op : Operator) (left right : Ty) : Except CheckError Ty :=
  let operands (expected result : Ty) : Except CheckError Ty := do
    expect (.leftOperand op) expected left
    expect (.rightOperand op) expected right
    return result
  if op.isArith then operands .int .int
  else if op.isOrder then operands .int .bool
  else if op.isEquality then do
    expect (.operand op) left right
    return .bool
  else operands .none .bool

/-- Demand that a name is an intrinsic procedure of so many arguments. -/
def expectIntrinsic (name : String) (args : Nat) : Except CheckError Unit :=
  match intrinsicArity? name with
  | none => reject (.unknownIntrinsic name)
  | some arity => if arity = args then .ok () else reject (.arity name arity args)

mutual

/-- The types of an expression and of those inside of it. -/
def Expr.infer (Γ : Context) : Expr → Except CheckError Typed
  | .missing => reject .missingExpression
  | .none => .ok ⟨.none, []⟩
  | .bool _ => .ok ⟨.bool, []⟩
  | .num n => if Tagged.inRange n then .ok ⟨.int, []⟩ else reject (.literalOutOfRange n)
  | .ident name =>
    match Γ.env.lookup? name with
    | none => reject (.unbound name)
    | some b =>
      if Γ.isReadable b then .ok ⟨b.ty, []⟩ else reject (.usedBeforeDeclaration name)
  | .unary op arg =>
    match op.unaryTy? with
    | none => reject (.unaryOperator op)
    | some ty => do
      let t ← arg.infer Γ
      expect (.operand op) ty t.ty
      return ⟨ty, t.all⟩
  | .binary op left right =>
    if op.isBinary then do
      let l ← left.infer Γ
      let r ← right.infer Γ
      let ty ← op.binaryTy l.ty r.ty
      return ⟨ty, l.all ++ r.all⟩
    else reject (.binaryOperator op)
  | .intrinsic1 name arg => do
    expectIntrinsic name 1
    let t ← arg.infer Γ
    expect (.argument 0 name) .int t.ty
    return ⟨.int, t.all⟩
  | .intrinsic2 name left right => do
    expectIntrinsic name 2
    let l ← left.infer Γ
    expect (.argument 0 name) .int l.ty
    let r ← right.infer Γ
    expect (.argument 1 name) .int r.ty
    return ⟨.int, l.all ++ r.all⟩
  | .call name args =>
    match Γ.env.signature? name with
    | none => reject (.unknownFunction name)
    | some sig =>
      if Γ.ready.isSome then reject (.callInInitializer name)
      else if args.length ≠ sig.params.length then
        reject (.arity name sig.params.length args.length)
      else do
        let inner ← inferArgs Γ name 0 sig.params args
        return ⟨sig.ret, inner⟩

/-- The types in the arguments of a call, each demanded as its parameter has
it; `index` arguments stand before them. -/
def inferArgs (Γ : Context) (callee : String) :
    (index : Nat) → List Ty → List Expr → Except CheckError (List Ty)
  | i, ty :: params, arg :: args => do
    let t ← arg.infer Γ
    expect (.argument i callee) ty t.ty
    let rest ← inferArgs Γ callee (i + 1) params args
    return t.all ++ rest
  | _, _, _ => .ok []

end

/-! ## Statements in blocks -/

/-- What an accepted piece of a program is known to be. -/
structure Accepted where
  /-- The type of its return statements, if it has any. -/
  returns : Option Ty := none
  /-- The types of its expressions, in the order in which they are written. -/
  types : List Ty := []
deriving Repr, DecidableEq

/-- Check a condition. -/
def checkCond (Γ : Context) (place : MismatchAt) (cond : Expr) : Except CheckError (List Ty) := do
  let t ← cond.infer Γ
  expect place .bool t.ty
  return t.all

/-- The common type of two sets of return statements. -/
def joinReturns (place : MismatchAt) : Option Ty → Option Ty → Except CheckError (Option Ty)
  | some a, some b => if a = b then .ok (some b) else reject (.mismatch place a b)
  | some a, none => .ok (some a)
  | none, b => .ok b

mutual

/-- Check a statement below the top level. -/
def Stmt.check (env : Env) : Stmt → Except CheckError Accepted
  | .missing => reject .missingStatement
  | .pass => .ok {}
  | .expr value => do
    let t ← value.infer { env }
    return { types := t.all }
  | .ret value =>
    if env.isTop then reject .returnAtTop
    else do
      let t ← value.infer { env }
      return { returns := some t.ty, types := t.all }
  | .decl d => reject (.declarationInBlock d.name)
  | .assign name value =>
    match env.lookup? name with
    | none => reject (.unbound name)
    | some b => do
      let t ← value.infer { env }
      expect (.assignment name) b.ty t.ty
      return { types := t.all }
  | .branch cond thn els => do
    let c ← checkCond { env } .ifCondition cond
    let t ← checkBlock env none thn
    let e ← checkBlock env none els
    let returns ← joinReturns .branches t.returns e.returns
    return { returns, types := c ++ t.types ++ e.types }
  | .loop cond body => do
    let c ← checkCond { env } .whileCondition cond
    let b ← checkBlock env none body
    return { b with types := c ++ b.types }
  | .define name _ _ _ _ => reject (.nestedDefinition name)

/-- Check the statements of a block; `returns` is what earlier ones return. -/
def checkBlock (env : Env) : (returns : Option Ty) → List Stmt → Except CheckError Accepted
  | returns, [] => .ok { returns }
  | returns, s :: rest => do
    let a ← s.check env
    let returns ← joinReturns .block returns a.returns
    let b ← checkBlock env returns rest
    return { b with types := a.types ++ b.types }

end

/-! ## Functions -/

/-- Bind the parameters of a function. -/
def bindParams : List Param → Env → Except CheckError Env
  | [], env => .ok env
  | p :: params, env => do
    let (env, _) ← ofScope (env.declareLocal p.name p.ty)
    bindParams params env

/-- Check the leading declarations of a function, each in the scope of the
ones before it. -/
def checkDecls : List Decl → Env → Except CheckError (Env × List Ty)
  | [], env => .ok (env, [])
  | d :: decls, env =>
    if env.isBoundHere d.name then reject (.duplicate d.name)
    else do
      let t ← d.value.infer { env }
      expect (.declaration d.name) d.ty t.ty
      let (env, _) ← ofScope (env.declareLocal d.name d.ty)
      let (env, types) ← checkDecls decls env
      return (env, t.all ++ types)

/-- Is the last statement of a body a return statement? -/
def endsWithReturn (body : List Stmt) : Bool :=
  match body.getLast? with
  | some (.ret _) => true
  | _ => false

/-- Check a function definition at the top level. -/
def checkFunction (env : Env) (name : String) (params : List Param) (ret : Ty)
    (decls : List Decl) (body : List Stmt) : Except CheckError (List Ty) := do
  let scope ← bindParams params (env.nest name)
  let (scope, declTypes) ← checkDecls decls scope
  let b ← checkBlock scope none body
  if ret ≠ .none ∧ endsWithReturn body = false then
    reject (.mismatch (.mustReturn name) ret .none)
  else
    match b.returns with
    | none => return declTypes ++ b.types
    | some ty => do
      expect (.result name) ret ty
      return declTypes ++ b.types

/-! ## Programs -/

/-- Declare the name of a top-level statement. -/
def declareTop (env : Env) : Stmt → Env × Except CheckError Unit
  | .define name params ret _ _ =>
    if isIntrinsic name then (env, reject (.redefinesIntrinsic name))
    else
      match env.reserve name with
      | .error e => (env, .error (.ofScope e))
      | .ok reserved =>
        match reserved.defineFunc name ⟨params.map (·.ty), ret⟩ with
        | .error e => (reserved, .error (.ofScope e))
        | .ok defined => (defined, .ok ())
  | .decl d =>
    match env.declareGlobal d.name d.ty with
    | .error e => (env, .error (.ofScope e))
    | .ok (declared, _) => (declared, .ok ())
  | _ => (env, .ok ())

/-- Declare the names of all top-level statements, up to the first that
cannot be declared. -/
def declareAll (env : Env) : Program → Env × Except CheckError Unit
  | [] => (env, .ok ())
  | s :: rest =>
    match declareTop env s with
    | (env, .ok ()) => declareAll env rest
    | (env, .error e) => (env, .error e)

/-- Check a top-level statement, where the slots `ready` are initialized;
gives the slots initialized after it. -/
def checkTop (env : Env) (ready : SlotSet) : Stmt → Except CheckError (SlotSet × List Ty)
  | .decl d => do
    let t ← d.value.infer { env, ready := some ready }
    expect (.declaration d.name) d.ty t.ty
    match env.lookup? d.name with
    | some b => return (ready.insert b.slot, t.all)
    | none => return (ready, t.all)
  | .define name params ret decls body => do
    let types ← checkFunction env name params ret decls body
    return (ready, types)
  | s => do
    let a ← s.check env
    return (ready, a.types)

/-- Check the top-level statements in order. -/
def checkAll (env : Env) : (ready : SlotSet) → Program → Except CheckError (List Ty)
  | _, [] => .ok []
  | ready, s :: rest => do
    let (ready, types) ← checkTop env ready s
    let more ← checkAll env ready rest
    return types ++ more

/-- The outcome of checking a program. -/
structure Checked where
  /-- The declared names, as far as declaring them got. -/
  env : Env
  /-- The type of every expression in the order in which they are written, or
  the first violation. -/
  types : Except CheckError (List Ty)

/-- Check a program. -/
def Program.check (p : Program) : Checked :=
  match declareAll .empty p with
  | (env, .error e) => ⟨env, .error e⟩
  | (env, .ok ()) => ⟨env, checkAll env .empty p⟩

end Taglet
