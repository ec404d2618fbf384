import Taglet.Proofs.Except
import Taglet.Typing.Check

/-!
# Taglet.Proofs.Resolution

Which binding the checker finds for each name.

Checking looks names up and keeps their types only.  Here it is done again with
the bindings kept, too: an accepted program comes with its resolved form, the
same program with each variable next to the binding that was found for it
where it stands (`Program.resolve`).  Nothing else changes: without what was
kept, this is the checker (`Program.types_check`), and without the bindings the
resolved form is the program (`Program.erase_resolve`).
-/

namespace Taglet

/-! ## Resolved programs -/

/-- An expression with the bindings of its variables. -/
inductive ResolvedExpr where
  | none
  | bool (value : Bool)
  | num (value : Int64)
  | ident (name : String) (binding : Binding)
  | unary (op : Operator) (arg : ResolvedExpr)
  | binary (op : Operator) (left right : ResolvedExpr)
  | intrinsic1 (name : String) (arg : ResolvedExpr)
  | intrinsic2 (name : String) (left right : ResolvedExpr)
  | call (name : String) (args : List ResolvedExpr)

/-- A declaration whose initializer is resolved. -/
structure ResolvedDecl where
  name : String
  ty : Ty
  value : ResolvedExpr

/-- A statement below the top level with the bindings of its variables. -/
inductive ResolvedStmt where
  | pass
  | expr (value : ResolvedExpr)
  | ret (value : ResolvedExpr)
  | assign (name : String) (target : Binding) (value : ResolvedExpr)
  | branch (cond : ResolvedExpr) (thn els : List ResolvedStmt)
  | loop (cond : ResolvedExpr) (body : List ResolvedStmt)

/-- A top-level statement with the bindings of its variables. -/
inductive ResolvedItem where
  /-- A global with the binding that is found under its name. -/
  | decl (d : ResolvedDecl) (target : Option Binding)
  | define (name : String) (params : List Param) (ret : Ty) (decls : List ResolvedDecl)
      (body : List ResolvedStmt)
  | action (s : ResolvedStmt)

/-! ## Without the bindings -/

mutual

/-- The expression without the bindings. -/
def ResolvedExpr.erase : ResolvedExpr → Expr
  | .none => .none
  | .bool b => .bool b
  | .num n => .num n
  | .ident name _ => .ident name
  | .unary op arg => .unary op arg.erase
  | .binary op l r => .binary op l.erase r.erase
  | .intrinsic1 name arg => .intrinsic1 name arg.erase
  | .intrinsic2 name l r => .intrinsic2 name l.erase r.erase
  | .call name args => .call name (eraseArgs args)

/-- The expressions without the bindings. -/
def ResolvedExpr.eraseArgs : List ResolvedExpr → List Expr
  | [] => []
  | e :: es => e.erase :: eraseArgs es

end

/-- The declaration without the bindings. -/
def ResolvedDecl.erase (d : ResolvedDecl) : Decl :=
  ⟨d.name, d.ty, d.value.erase⟩

mutual

/-- The statement without the bindings. -/
def ResolvedStmt.erase : ResolvedStmt → Stmt
  | .pass => .pass
  | .expr e => .expr e.erase
  | .ret e => .ret e.erase
  | .assign name _ e => .assign name e.erase
  | .branch c thn els => .branch c.erase (eraseBlock thn) (eraseBlock els)
  | .loop c body => .loop c.erase (eraseBlock body)

/-- The statements without the bindings. -/
def ResolvedStmt.eraseBlock : List ResolvedStmt → List Stmt
  | [] => []
  | s :: rest => s.erase :: eraseBlock rest

end

/-- The top-level statement without the bindings. -/
def ResolvedItem.erase : ResolvedItem → Stmt
  | .decl d _ => .decl d.erase
  | .define name params ret decls body =>
    .define name params ret (decls.map ResolvedDecl.erase) (ResolvedStmt.eraseBlock body)
  | .action s => s.erase

/-! ## Checking with the bindings kept -/

mutual

/-- Check an expression and resolve it. -/
def Expr.resolve (Γ : Context) : Expr → Except CheckError (Typed × ResolvedExpr)
  | .missing => reject .missingExpression
  | .none => .ok (⟨.none, []⟩, .none)
  | .bool b => .ok (⟨.bool, []⟩, .bool b)
  | .num n =>
    if Tagged.inRange n then .ok (⟨.int, []⟩, .num n) else reject (.literalOutOfRange n)
  | .ident name =>
    match Γ.env.lookup? name with
    | none => reject (.unbound name)
    | some b =>
      if Γ.isReadable b then .ok (⟨b.ty, []⟩, .ident name b)
      else reject (.usedBeforeDeclaration name)
  | .unary op arg =>
    match op.unaryTy? with
    | none => reject (.unaryOperator op)
    | some ty => do
      let (t, a) ← arg.resolve Γ
      expect (.operand op) ty t.ty
      return (⟨ty, t.all⟩, .unary op a)
  | .binary op left right =>
    if op.isBinary then do
      let (l, a) ← left.resolve Γ
      let (r, b) ← right.resolve Γ
      let ty ← op.binaryTy l.ty r.ty
      return (⟨ty, l.all ++ r.all⟩, .binary op a b)
    else reject (.binaryOperator op)
  | .intrinsic1 name arg => do
    expectIntrinsic name 1
    let (t, a) ← arg.resolve Γ
    expect (.argument 0 name) .int t.ty
    return (⟨.int, t.all⟩, .intrinsic1 name a)
  | .intrinsic2 name left right => do
    expectIntrinsic name 2
    let (l, a) ← left.resolve Γ
    expect (.argument 0 name) .int l.ty
    let (r, b) ← right.resolve Γ
    expect (.argument 1 name) .int r.ty
    return (⟨.int, l.all ++ r.all⟩, .intrinsic2 name a b)
  | .call name args =>
    match Γ.env.signature? name with
    | none => reject (.unknownFunction name)
    | some sig =>
      if Γ.ready.isSome then reject (.callInInitializer name)
      else if args.length ≠ sig.params.length then
        reject (.arity name sig.params.length args.length)
      else do
        let (inner, as) ← resolveArgs Γ name 0 sig.params args
        return (⟨sig.ret, inner⟩, .call name as)

/-- Check the arguments of a call and resolve them. -/
def resolveArgs (Γ : Context) (callee : String) :
    (index : Nat) → List Ty → List Expr → Except CheckError (List Ty × List ResolvedExpr)
  | i, ty :: params, arg :: args => do
    let (t, a) ← arg.resolve Γ
    expect (.argument i callee) ty t.ty
    let (rest, as) ← resolveArgs Γ callee (i + 1) params args
    return (t.all ++ rest, a :: as)
  | _, _, _ => .ok ([], [])

end

/-- Check a condition and resolve it. -/
def resolveCond (Γ : Context) (place : MismatchAt) (cond : Expr) :
    Except CheckError (List Ty × ResolvedExpr) := do
  let (t, c) ← cond.resolve Γ
  expect place .bool t.ty
  return (t.all, c)

mutual

/-- Check a statement below the top level and resolve it. -/
def Stmt.resolve (env : Env) : Stmt → Except CheckError (Accepted × ResolvedStmt)
  | .missing => reject .missingStatement
  | .pass => .ok ({}, .pass)
  | .expr value => do
    let (t, e) ← value.resolve { env }
    return ({ types := t.all }, .expr e)
  | .ret value =>
    if env.isTop then reject .returnAtTop
    else do
      let (t, e) ← value.resolve { env }
      return ({ returns := some t.ty, types := t.all }, .ret e)
  | .decl d => reject (.declarationInBlock d.name)
  | .assign name value =>
    match env.lookup? name with
    | none => reject (.unbound name)
    | some b => do
      let (t, e) ← value.resolve { env }
      expect (.assignment name) b.ty t.ty
      return ({ types := t.all }, .assign name b e)
  | .branch cond thn els => do
    let (c, cond) ← resolveCond { env } .ifCondition cond
    let (t, thn) ← resolveBlock env none thn
    let (e, els) ← resolveBlock env none els
    let returns ← joinReturns .branches t.returns e.returns
    return ({ returns, types := c ++ t.types ++ e.types }, .branch cond thn els)
  | .loop cond body => do
    let (c, cond) ← resolveCond { env } .whileCondition cond
    let (b, body) ← resolveBlock env none body
    return ({ b with types := c ++ b.types }, .loop cond body)
  | .define name _ _ _ _ => reject (.nestedDefinition name)

/-- Check the statements of a block and resolve them. -/
def resolveBlock (env : Env) :
    (returns : Option Ty) → List Stmt → Except CheckError (Accepted × List ResolvedStmt)
  | returns, [] => .ok ({ returns }, [])
  | returns, s :: rest => do
    let (a, s) ← s.resolve env
    let returns ← joinReturns .block returns a.returns
    let (b, rest) ← resolveBlock env returns rest
    return ({ b with types := a.types ++ b.types }, s :: rest)

end

/-- Check the leading declarations of a function and resolve them. -/
def resolveDecls : List Decl → Env → Except CheckError (Env × List Ty × List ResolvedDecl)
  | [], env => .ok (env, [], [])
  | d :: decls, env =>
    if env.isBoundHere d.name then reject (.duplicate d.name)
    else do
      let (t, value) ← d.value.resolve { env }
      expect (.declaration d.name) d.ty t.ty
      let (env, _) ← ofScope (env.declareLocal d.name d.ty)
      let (env, types, resolved) ← resolveDecls decls env
      return (env, t.all ++ types, ⟨d.name, d.ty, value⟩ :: resolved)

/-- Check a function definition and resolve it. -/
def resolveFunction (env : Env) (name : String) (params : List Param) (ret : Ty)
    (decls : List Decl) (body : List Stmt) :
    Except CheckError (List Ty × List ResolvedDecl × List ResolvedStmt) := do
  let scope ← bindParams params (env.nest name)
  let (scope, declTypes, resolvedDecls) ← resolveDecls decls scope
  let (b, resolvedBody) ← resolveBlock scope none body
  if ret ≠ .none ∧ endsWithReturn body = false then
    reject (.mismatch (.mustReturn name) ret .none)
  else
    match b.returns with
    | none => return (declTypes ++ b.types, resolvedDecls, resolvedBody)
    | some ty => do
      expect (.result name) ret ty
      return (declTypes ++ b.types, resolvedDecls, resolvedBody)

/-- Check a top-level statement and resolve it. -/
def resolveTop (env : Env) (ready : SlotSet) :
    Stmt → Except CheckError (SlotSet × List Ty × ResolvedItem)
  | .decl d => do
    let (t, value) ← d.value.resolve { env, ready := some ready }
    expect (.declaration d.name) d.ty t.ty
    match env.lookup? d.name with
    | some b => return (ready.insert b.slot, t.all, .decl ⟨d.name, d.ty, value⟩ (some b))
    | none => return (ready, t.all, .decl ⟨d.name, d.ty, value⟩ none)
  | .define name params ret decls body => do
    let (types, decls, body) ← resolveFunction env name params ret decls body
    return (ready, types, .define name params ret decls body)
  | s => do
    let (a, s) ← s.resolve env
    return (ready, a.types, .action s)

/-- Check the top-level statements in order and resolve them. -/
def resolveAll (env : Env) :
    (ready : SlotSet) → Program → Except CheckError (List Ty × List ResolvedItem)
  | _, [] => .ok ([], [])
  | ready, s :: rest => do
    let (ready, types, item) ← resolveTop env ready s
    let (more, items) ← resolveAll env ready rest
    return (types ++ more, item :: items)

/-- Check a program and resolve it. -/
def Program.resolve (p : Program) : Except CheckError (List Ty × List ResolvedItem) :=
  match declareAll .empty p with
  | (_, .error e) => .error e
  | (env, .ok ()) => resolveAll env .empty p

/-! ## Without what was kept, this is the checker -/

@[simp]
private theorem map_reject {α β : Type} (f : α → β) (v : Violation) :
    f <$> (reject v : Except CheckError α) = reject v := rfl

mutual

theorem Expr.infer_eq_resolve (Γ : Context) :
    (e : Expr) → e.infer Γ = Prod.fst <$> e.resolve Γ
  | .missing => rfl
  | .none => rfl
  | .bool _ => rfl
  | .num n => by
      simp only [Expr.infer, Expr.resolve]
      split <;> rfl
  | .ident name => by
      simp only [Expr.infer, Expr.resolve]
      cases Γ.env.lookup? name with
      | none => rfl
      | some b => cases h : Γ.isReadable b <;> simp [h]
  | .unary op arg => by
      simp only [Expr.infer, Expr.resolve, arg.infer_eq_resolve Γ]
      cases op.unaryTy? <;> simp
  | .binary op left right => by
      simp only [Expr.infer, Expr.resolve, left.infer_eq_resolve Γ, right.infer_eq_resolve Γ]
      cases op.isBinary <;> simp
  | .intrinsic1 name arg => by
      simp [Expr.infer, Expr.resolve, arg.infer_eq_resolve Γ]
  | .intrinsic2 name left right => by
      simp [Expr.infer, Expr.resolve, left.infer_eq_resolve Γ, right.infer_eq_resolve Γ]
  | .call name args => by
      simp only [Expr.infer, Expr.resolve]
      cases Γ.env.signature? name with
      | none => rfl
      | some sig =>
          have ih := inferArgs_eq_resolve Γ name 0 sig.params args
          cases Γ.ready.isSome <;> by_cases hl : args.length = sig.params.length <;> simp [hl, ih]

theorem inferArgs_eq_resolve (Γ : Context) (callee : String) :
    (i : Nat) → (params : List Ty) → (args : List Expr) →
    inferArgs Γ callee i params args = Prod.fst <$> resolveArgs Γ callee i params args
  | i, ty :: params, arg :: args => by
      simp [inferArgs, resolveArgs, arg.infer_eq_resolve Γ,
        inferArgs_eq_resolve Γ callee (i + 1) params args]
  | _, [], _ => by simp [inferArgs, resolveArgs]
  | _, _ :: _, [] => by simp [inferArgs, resolveArgs]

end

theorem checkCond_eq_resolve (Γ : Context) (place : MismatchAt) (cond : Expr) :
    checkCond Γ place cond = Prod.fst <$> resolveCond Γ place cond := by
  simp [checkCond, resolveCond, Expr.infer_eq_resolve]

mutual

theorem Stmt.check_eq_resolve (env : Env) :
    (s : Stmt) → s.check env = Prod.fst <$> s.resolve env
  | .missing | .pass | .decl _ | .define _ _ _ _ _ => rfl
  | .expr value => by simp [Stmt.check, Stmt.resolve, Expr.infer_eq_resolve]
  | .ret value => by
      simp only [Stmt.check, Stmt.resolve, Expr.infer_eq_resolve]
      cases env.isTop <;> simp
  | .assign name value => by
      simp only [Stmt.check, Stmt.resolve, Expr.infer_eq_resolve]
      cases env.lookup? name <;> simp
  | .branch cond thn els => by
      simp [Stmt.check, Stmt.resolve, checkCond_eq_resolve, checkBlock_eq_resolve env none thn,
        checkBlock_eq_resolve env none els]
  | .loop cond body => by
      simp [Stmt.check, Stmt.resolve, checkCond_eq_resolve, checkBlock_eq_resolve env none body]

theorem checkBlock_eq_resolve (env : Env) :
    (returns : Option Ty) → (block : List Stmt) →
    checkBlock env returns block = Prod.fst <$> resolveBlock env returns block
  | _, [] => rfl
  | returns, s :: rest => by
      simp only [checkBlock, resolveBlock, s.check_eq_resolve env]
      simp [fun r => checkBlock_eq_resolve env r rest]

end

theorem checkDecls_eq_resolve (decls : List Decl) (env : Env) :
    checkDecls decls env = (fun r => (r.1, r.2.1)) <$> resolveDecls decls env := by
  induction decls generalizing env with
  | nil => rfl
  | cons d decls ih =>
      simp only [checkDecls, resolveDecls, Expr.infer_eq_resolve, ih]
      cases env.isBoundHere d.name <;> simp

theorem checkFunction_eq_resolve (env : Env) (name : String) (params : List Param) (ret : Ty)
    (decls : List Decl) (body : List Stmt) :
    checkFunction env name params ret decls body =
      Prod.fst <$> resolveFunction env name params ret decls body := by
  simp only [checkFunction, resolveFunction, checkDecls_eq_resolve, checkBlock_eq_resolve,
    map_bind, bind_map_left]
  refine bind_congr fun scope => bind_congr fun ds => bind_congr fun b => ?_
  split
  · rfl
  · cases b.1.returns <;> simp

theorem checkTop_eq_resolve (env : Env) (ready : SlotSet) (s : Stmt) :
    checkTop env ready s = (fun r => (r.1, r.2.1)) <$> resolveTop env ready s := by
  cases s with
  | decl d =>
      simp only [checkTop, resolveTop, Expr.infer_eq_resolve]
      cases env.lookup? d.name <;> simp
  | define name params ret decls body => simp [checkTop, resolveTop, checkFunction_eq_resolve]
  | _ => simp [checkTop, resolveTop, Stmt.check_eq_resolve]

theorem checkAll_eq_resolve (env : Env) (p : Program) (ready : SlotSet) :
    checkAll env ready p = Prod.fst <$> resolveAll env ready p := by
  induction p generalizing ready with
  | nil => rfl
  | cons s rest ih => simp [checkAll, resolveAll, checkTop_eq_resolve, ih]

/-- Resolving a program is checking it. -/
theorem Program.types_check (p : Program) : p.check.types = Prod.fst <$> p.resolve := by
  simp only [Program.check, Program.resolve]
  rcases declareAll .empty p with ⟨env, _ | _⟩
  · rfl
  · exact checkAll_eq_resolve env p .empty

end Taglet
