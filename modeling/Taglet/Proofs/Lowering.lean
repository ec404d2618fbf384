import Taglet.Proofs.Scopes
import Taglet.Tagged
import Taglet.Wat.Module

/-!
# Taglet.Proofs.Lowering

The module of a program, without a text in between.

Each function here maps one piece of syntax to instructions, by recursion on
the piece; nothing is written or read.  Where a piece has no meaning, such as
a missing expression or an unbound name, an instruction is missing.
-/

namespace Taglet.Wat.Lower

/-! ## Expressions -/

/-- Read a variable. -/
def read (b : Binding) (name : String) : Instr :=
  if b.isLocal then .localGet (utf8 name) else .load (.const (Int64.ofInt b.addr))

/-- Assign a value to a variable. -/
def write (b : Binding) (name : String) (value : Instr) : Instr :=
  if b.isLocal then .localSet (utf8 name) value
  else .store (.const (Int64.ofInt b.addr)) value

/-- The operator of arithmetic on integers. -/
def arithmetic? : Operator → Option BinaryOp
  | .plus => some .add
  | .minus => some .sub
  | .times => some .mul
  | .div => some .divS
  | .mod => some .remS
  | _ => none

/-- The operator that compares words. -/
def comparison? : Operator → Option BinaryOp
  | .eq | .is => some .eq
  | .ne => some .ne
  | .le => some .leS
  | .ge => some .geS
  | .lt => some .ltS
  | .gt => some .gtS
  | _ => none

/-- A unary operation: the value is taken from a constant. -/
def unary (op : Operator) (arg : Instr) : Instr :=
  .binary .sub (.const (if op = .not then 6 else 2)) arg

/-- The integer of a tagged word. -/
def untag (x : Instr) : Instr :=
  .binary .shrS x (.const 1)

/-- An operation on integers, with the result tagged again. -/
def arithmetic (op : BinaryOp) (l r : Instr) : Instr :=
  .binary .or (.binary .shl (.binary op (untag l) (untag r)) (.const 1)) (.const 1)

/-- A comparison of words, with the result as a tagged truth value. -/
def comparison (op : BinaryOp) (l r : Instr) : Instr :=
  .binary .add (.const (Tagged.ofBool false))
    (.binary .shl (.unary .extendU (.binary op l r)) (.const 1))

/-- A binary operation. -/
def binary (op : Operator) (l r : Instr) : Instr :=
  match arithmetic? op with
  | some instr => arithmetic instr l r
  | none =>
    match comparison? op with
    | some instr => comparison instr l r
    | none => .missing

mutual

/-- The instruction that gives the value of an expression. -/
def expr (env : Env) : Expr → Instr
  | .missing => .missing
  | .none => .const Tagged.none
  | .bool b => .const (Tagged.ofBool b)
  | .num n => .const (Tagged.encode n)
  | .ident name =>
    match env.lookup? name with
    | none => .missing
    | some b => read b name
  | .unary op arg => unary op (expr env arg)
  | .binary op l r => binary op (expr env l) (expr env r)
  | .intrinsic1 name arg => .call (utf8 name) [expr env arg]
  | .intrinsic2 name l r => .call (utf8 name) [expr env l, expr env r]
  | .call name args => .call (utf8 name) (exprs env args)

/-- The instructions that give the values of expressions. -/
def exprs (env : Env) : List Expr → List Instr
  | [] => []
  | e :: es => expr env e :: exprs env es

end

theorem binary_ne_missing {op : Operator} (h : op.isBinary = true) (l r : Instr) :
    binary op l r ≠ .missing := by
  cases op <;> first | cases h; intro hcode; cases hcode | cases h

/-- A typed expression has code. -/
theorem expr_ne_missing {env : Env} {Γ : Visible} {e : Expr} {t : Ty} (he : e.HasType Γ t)
    (hseen : ∀ x t, Γ.vars x = some t → ∃ b, env.lookup? x = some b) :
    expr env e ≠ .missing := by
  cases he with
  | ident bound =>
      obtain ⟨b, hb⟩ := hseen _ _ bound
      simp only [expr, hb, read]
      split <;> simp
  | @arith op l r arith =>
      exact binary_ne_missing (by cases op <;> first | rfl | cases arith) _ _
  | @order op l r order =>
      exact binary_ne_missing (by cases op <;> first | rfl | cases order) _ _
  | @equality op l r t equality =>
      exact binary_ne_missing (by cases op <;> first | rfl | cases equality) _ _
  | is => exact binary_ne_missing rfl _ _
  | _ => simp [expr, unary]

/-! ## Statements -/

/-- Assign the value of an expression to a name. -/
def store (env : Env) (name : String) (value : Expr) : Instr :=
  match env.lookup? name with
  | none => .missing
  | some b => write b name (expr env value)

/-- The local of the entry function that keeps the last value. -/
def scratch : Bytes := utf8 "scratch"

/-- Evaluate an expression for its effect: the entry function keeps the value,
a function drops it. -/
def evaluate (env : Env) (value : Expr) : Instr :=
  if env.isTop then .localSet scratch (expr env value) else .drop (expr env value)

/-- Is the word `True`? -/
def isTrue (x : Instr) : Instr :=
  .binary .eq (.const (Tagged.ofBool true)) x

/-- Is the word `False`? -/
def isFalse (x : Instr) : Instr :=
  .binary .eq (.const (Tagged.ofBool false)) x

mutual

/-- The instruction of a statement. -/
def stmt (env : Env) : Stmt → Instr
  | .missing => .missing
  | .pass => .nop
  | .decl d => store env d.name d.value
  | .assign name value => store env name value
  | .expr value => evaluate env value
  | .ret value => .ret (expr env value)
  | .branch cond thn els => .branch false (isTrue (expr env cond)) (block env thn) (block env els)
  | .loop cond body =>
    .block [.loop (.brIf 1 (isFalse (expr env cond)) :: (block env body ++ [.br 0]))]
  | .define _ _ _ _ _ => .missing

/-- The instructions of statements one after the other. -/
def block (env : Env) : List Stmt → List Instr
  | [] => []
  | s :: rest => stmt env s :: block env rest

end

@[simp]
theorem length_block (env : Env) (body : List Stmt) : (block env body).length = body.length := by
  induction body with
  | nil => rfl
  | cons s rest ih => rw [block, List.length_cons, ih, List.length_cons]

/-! ## Functions -/

/-- Initialize the leading declarations of a function, each in the scope of
the ones before it. -/
def initializers : Env → List Decl → List Instr
  | _, [] => []
  | env, d :: decls =>
    .localSet (utf8 d.name) (expr env d.value) :: initializers (env.withLocal d.name d.ty) decls

/-- A function.  Falling off its end gives `None`. -/
def function (env : Env) (name : String) (params : List Param) (decls : List Decl)
    (body : List Stmt) : Func where
  name := utf8 name
  params := params.map fun p => utf8 p.name
  result := true
  locals := decls.map fun d => utf8 d.name
  body :=
    let scope := (env.nest name).withParams params
    initializers scope decls ++ block (scope.withDecls decls) body ++ [.const Tagged.none]

@[simp]
theorem length_initializers (env : Env) (decls : List Decl) :
    (initializers env decls).length = decls.length := by
  induction decls generalizing env with
  | nil => rfl
  | cons d decls ih => rw [initializers, List.length_cons, ih, List.length_cons]

theorem length_function (env : Env) (name : String) (params : List Param) (decls : List Decl)
    (body : List Stmt) :
    (function env name params decls body).body.length = decls.length + (body.length + 1) := by
  simp [function]

/-- The functions of a program. -/
def functions (env : Env) : Program → List Func
  | [] => []
  | .define name params _ decls body :: rest =>
    function env name params decls body :: functions env rest
  | _ :: rest => functions env rest

/-- Initialize the globals of a program. -/
def globals (env : Env) : Program → List Instr
  | [] => []
  | .decl d :: rest => store env d.name d.value :: globals env rest
  | _ :: rest => globals env rest

@[simp]
theorem length_globals (env : Env) (p : Program) :
    (globals env p).length = (Program.globals p).length := by
  induction p with
  | nil => rfl
  | cons s rest ih =>
      cases s with
      | decl d => exact congrArg (· + 1) ih
      | _ => exact ih

/-- The entry function: the globals are initialized, then the other statements
run.  The program has a result when its last statement is an expression. -/
def entry (env : Env) (p : Program) : Func where
  exportName := utf8 "_start"
  result := p.endsInExpr
  locals := [scratch]
  body :=
    globals env p ++ block env p.actions ++
      if p.endsInExpr then [untag (.localGet scratch)] else []

/-! ## Modules -/

/-- The import of an intrinsic procedure of so many arguments. -/
def intrinsic (arity : Nat) (name : String) : FuncImport :=
  ⟨utf8 name, utf8 "imports", utf8 name, arity, true⟩

/-- The imports of every module: the intrinsic procedures in order. -/
def intrinsics : List FuncImport :=
  [intrinsic 1 "print", intrinsic 1 "abs", intrinsic 2 "max", intrinsic 2 "min",
    intrinsic 2 "pow"]

/-- The module of a program. -/
def program (env : Env) (p : Program) : Module where
  memory := some ⟨utf8 "js", utf8 "memory", Int64.ofNat env.pages⟩
  imports := intrinsics
  funcs := functions env p ++ [entry env p]

end Taglet.Wat.Lower
