import Taglet.Proofs.TypeRules

/-!
# Taglet.Proofs.Evaluation

What programs mean, by recursion on their syntax.

Values are `None`, truth values and integers (`Value`); integers are exact and
are taken back into the range of the language after each operation
(`wrap`).  An evaluation reads and changes the globals and appends to what
was printed (`Store`).  It may end early with a fault (`Fault`): the three a
program can meet, and `stuck` for an operation on values it is not meant for.

Calls recur on the number of calls that may still nest (`Program.callAt`).
Only loops need fuel: an evaluation in which a loop takes more than `fuel`
turns has no answer.
-/

namespace Taglet

/-! ## Values -/

/-- The integer between `-2 ^ 62` and `2 ^ 62 - 1` that differs from `n` by a
multiple of `2 ^ 63`. -/
def wrap (n : Int) : Int :=
  n.bmod (2 ^ 63)

/-- A value of a running program. -/
inductive Value where
  | none
  | bool (b : Bool)
  | int (n : Int)
deriving Repr, DecidableEq

/-- A value is of a type.  Integers are those in range, and a code that stands
for no type has no values. -/
def Value.HasTy : Value → Ty → Prop
  | none, .none => True
  | bool _, .bool => True
  | int n, .int => -2 ^ 62 ≤ n ∧ n ≤ 2 ^ 62 - 1
  | _, _ => False

/-- Why an evaluation ends early. -/
inductive Fault where
  | divByZero
  /-- Too many calls are in progress. -/
  | stackExhausted
  | zeroToNegative
  /-- An operation has no meaning for its operands, or a name none at all. -/
  | stuck
deriving Repr, DecidableEq

/-! ## Evaluations -/

/-- What evaluations change: the globals and the list of what was printed. -/
structure Store where
  globals : String → Option Value := fun _ => Option.none
  printed : List Value := []

/-- An evaluation: there may be no answer, and otherwise there is a result or a
fault, and the store that is left. -/
def Eval (α : Type) : Type :=
  Store → Option (Except Fault α × Store)

namespace Eval

variable {α β : Type}

/-- Go on from a result; faults end the evaluation. -/
def bind (x : Eval α) (f : α → Eval β) : Eval β := fun σ =>
  match x σ with
  | none => none
  | some (.error e, σ') => some (.error e, σ')
  | some (.ok a, σ') => f a σ'

instance : Monad Eval where
  pure a := fun σ => some (.ok a, σ)
  bind := bind

instance : LawfulMonad Eval :=
  LawfulMonad.mk' Eval
    (by
      intro α x
      funext σ
      show x.bind (fun a => pure a) σ = x σ
      rw [bind]
      match x σ with
      | none => rfl
      | some (.error e, σ') => rfl
      | some (.ok a, σ') => rfl)
    (fun _ _ => rfl)
    (by
      intro α β γ x f g
      funext σ
      show (x.bind f).bind g σ = x.bind (fun a => (f a).bind g) σ
      simp only [bind]
      match x σ with
      | none => rfl
      | some (.error e, σ') => rfl
      | some (.ok a, σ') => rfl)

/-- A composed evaluation has a result when both its parts have. -/
theorem bind_eq_ok {x : Eval α} {f : α → Eval β} {σ σ' : Store} {b : β}
    (h : (x >>= f) σ = some (.ok b, σ')) :
    ∃ a σ₁, x σ = some (.ok a, σ₁) ∧ f a σ₁ = some (.ok b, σ') := by
  change x.bind f σ = _ at h
  rw [bind] at h
  split at h
  · cases h
  · cases h
  · next a σ₁ hx => exact ⟨a, σ₁, hx, h⟩

/-- End with a result or a fault. -/
def ofExcept (r : Except Fault α) : Eval α := fun σ =>
  some (r, σ)

/-- End with a fault. -/
def fail (e : Fault) : Eval α :=
  ofExcept (.error e)

/-- Go on with what is there. -/
def ofOption (a : Option α) : Eval α :=
  ofExcept (a.elim (.error .stuck) .ok)

/-- There is no answer. -/
def timeout : Eval α := fun _ =>
  none

/-- Record a printed value. -/
def log (v : Value) : Eval Unit := fun σ =>
  some (.ok (), { σ with printed := σ.printed ++ [v] })

/-- Give a global a value. -/
def setGlobal (x : String) (v : Value) : Eval Unit := fun σ =>
  some (.ok (), { σ with globals := fun y => if x = y then some v else σ.globals y })

/-- The value of a global. -/
def global? (x : String) : Eval (Option Value) := fun σ =>
  some (.ok (σ.globals x), σ)

end Eval

/-! ## Operators -/

/-- The value of a unary operation. -/
def Operator.unary : Operator → Value → Except Fault Value
  | .neg, .int n => .ok (.int (wrap (-n)))
  | .not, .bool b => .ok (.bool !b)
  | _, _ => .error .stuck

/-- The integer that an arithmetic operator makes of two, before it is taken
into range.  Division truncates toward zero. -/
def Operator.arithmetic : Operator → Int → Int → Except Fault Int
  | .plus, a, b => .ok (a + b)
  | .minus, a, b => .ok (a - b)
  | .times, a, b => .ok (a * b)
  | .div, a, b => if b = 0 then .error .divByZero else .ok (a.tdiv b)
  | .mod, a, b => if b = 0 then .error .divByZero else .ok (a.tmod b)
  | _, _, _ => .error .stuck

/-- The truth of an order on integers. -/
def Operator.holds : Operator → Int → Int → Bool
  | .lt, a, b => a < b
  | .le, a, b => a ≤ b
  | .gt, a, b => b < a
  | .ge, a, b => b ≤ a
  | _, _, _ => false

/-- The value of a binary operation. -/
def Operator.binary (op : Operator) (l r : Value) : Except Fault Value :=
  match op with
  | .eq | .is => .ok (.bool (l = r))
  | .ne => .ok (.bool (l ≠ r))
  | op =>
    match l, r with
    | .int a, .int b =>
      if op.isOrder then .ok (.bool (op.holds a b))
      else (op.arithmetic a b).map fun n => .int (wrap n)
    | _, _ => .error .stuck

/-- A power.  A negative exponent asks for one divided by a power, truncated
toward zero. -/
def power (base exp : Int) : Except Fault Int :=
  if 0 ≤ exp then .ok (base ^ exp.toNat)
  else if base = 0 then .error .zeroToNegative
  else .ok (Int.tdiv 1 (base ^ (-exp).toNat))

/-- The result of an intrinsic procedure other than `print`, before it is taken
into range. -/
def intrinsicValue (name : String) (args : List Int) : Except Fault Int :=
  match name, args with
  | "abs", [a] => .ok (a.natAbs : Int)
  | "max", [a, b] => .ok (max a b)
  | "min", [a, b] => .ok (min a b)
  | "pow", [a, b] => power a b
  | _, _ => .error .stuck

/-- The integer of a value that has to be one. -/
def Value.integer : Value → Except Fault Int
  | int n => .ok n
  | _ => .error .stuck

/-- The truth of a value that has to be a truth value. -/
def Value.truth : Value → Except Fault Bool
  | bool b => .ok b
  | _ => .error .stuck

/-- Call an intrinsic procedure. -/
def Eval.intrinsic (name : String) (args : List Value) : Eval Value := do
  let ns ← Eval.ofExcept (args.mapM Value.integer)
  match name, ns with
  | "print", [n] => do
    Eval.log (.int n)
    return .int n
  | _, _ =>
    let n ← Eval.ofExcept (intrinsicValue name ns)
    return .int (wrap n)

/-! ## Expressions -/

/-- The parameters and leading declarations of the function being run. -/
abbrev Frame := String → Option Value

/-- Give a local a value. -/
def Frame.set (ρ : Frame) (x : String) (v : Value) : Frame := fun y =>
  if x = y then some v else ρ y

/-- The frame of the top level. -/
def Frame.empty : Frame := fun _ => none

/-- Give parameters their arguments. -/
def Frame.bind : Frame → List Param → List Value → Frame
  | ρ, p :: params, v :: args => Frame.bind (ρ.set p.name v) params args
  | ρ, _, _ => ρ

/-- The value of a variable; a local hides a global. -/
def Eval.variable (ρ : Frame) (x : String) : Eval Value :=
  match ρ x with
  | some v => pure v
  | none => do Eval.ofOption (← Eval.global? x)

/-- How defined functions are called. -/
abbrev Callee := String → List Value → Eval Value

mutual

/-- The value of an expression. -/
def Expr.eval (call : Callee) (ρ : Frame) : Expr → Eval Value
  | .missing => Eval.fail .stuck
  | .none => pure .none
  | .bool b => pure (.bool b)
  | .num n => pure (.int n.toInt)
  | .ident x => Eval.variable ρ x
  | .unary op arg => do
    let v ← arg.eval call ρ
    Eval.ofExcept (op.unary v)
  | .binary op left right => do
    let l ← left.eval call ρ
    let r ← right.eval call ρ
    Eval.ofExcept (op.binary l r)
  | .intrinsic1 f arg => do
    let v ← arg.eval call ρ
    Eval.intrinsic f [v]
  | .intrinsic2 f left right => do
    let l ← left.eval call ρ
    let r ← right.eval call ρ
    Eval.intrinsic f [l, r]
  | .call f args => do
    let vs ← Expr.evalAll call ρ args
    call f vs

/-- The values of expressions, from left to right. -/
def Expr.evalAll (call : Callee) (ρ : Frame) : List Expr → Eval (List Value)
  | [] => pure []
  | e :: es => do
    let v ← e.eval call ρ
    let vs ← Expr.evalAll call ρ es
    return v :: vs

end

/-! ## Statements -/

/-- How a statement ends: the next one runs with this frame, or the function
returns. -/
inductive Flow where
  | next (ρ : Frame)
  | ret (v : Value)

/-- Give a variable a value; a local hides a global. -/
def Eval.assign (ρ : Frame) (x : String) (v : Value) : Eval Flow :=
  match ρ x with
  | some _ => return .next (ρ.set x v)
  | none => do
    let _ ← Eval.ofOption (← Eval.global? x)
    Eval.setGlobal x v
    return .next ρ

/-- The truth of a condition. -/
def Expr.evalCond (call : Callee) (ρ : Frame) (cond : Expr) : Eval Bool := do
  let v ← cond.eval call ρ
  Eval.ofExcept v.truth

/-- Take turns while a condition holds, fewer than `fuel` of them. -/
def Eval.iterate (cond : Frame → Eval Bool) (body : Frame → Eval Flow) :
    (fuel : Nat) → Frame → Eval Flow
  | 0, _ => Eval.timeout
  | fuel + 1, ρ => do
    if ← cond ρ then
      match ← body ρ with
      | .next ρ => Eval.iterate cond body fuel ρ
      | .ret v => return .ret v
    else return .next ρ

mutual

/-- Run a statement. -/
def Stmt.exec (fuel : Nat) (call : Callee) : Stmt → Frame → Eval Flow
  | .pass, ρ => return .next ρ
  | .expr e, ρ => do
    let _ ← e.eval call ρ
    return .next ρ
  | .ret e, ρ => do
    let v ← e.eval call ρ
    return .ret v
  | .assign x e, ρ => do
    let v ← e.eval call ρ
    Eval.assign ρ x v
  | .branch cond thn els, ρ => do
    if ← cond.evalCond call ρ then Stmt.execBlock fuel call thn ρ
    else Stmt.execBlock fuel call els ρ
  | .loop cond body, ρ =>
    Eval.iterate (fun ρ => cond.evalCond call ρ) (Stmt.execBlock fuel call body) fuel ρ
  | .missing, _ | .decl _, _ | .define _ _ _ _ _, _ => Eval.fail .stuck

/-- Run the statements of a block in order. -/
def Stmt.execBlock (fuel : Nat) (call : Callee) : List Stmt → Frame → Eval Flow
  | [], ρ => return .next ρ
  | s :: rest, ρ => do
    match ← s.exec fuel call ρ with
    | .next ρ => Stmt.execBlock fuel call rest ρ
    | .ret v => return .ret v

end

/-! ## Functions -/

/-- A function to be called. -/
structure Function where
  params : List Param
  decls : List Decl
  body : List Stmt

/-- The function that a top-level statement defines under a name. -/
def Stmt.function? (name : String) : Stmt → Option Function
  | .define f params _ decls body => if f = name then some ⟨params, decls, body⟩ else none
  | _ => none

/-- The function that a program defines under a name. -/
def Program.function? (p : Program) (name : String) : Option Function :=
  p.findSome? (Stmt.function? name)

/-- Initialize leading declarations, each with the ones before it in sight. -/
def Eval.initializeLocals (call : Callee) : List Decl → Frame → Eval Frame
  | [], ρ => return ρ
  | d :: decls, ρ => do
    let v ← d.value.eval call ρ
    Eval.initializeLocals call decls (ρ.set d.name v)

/-- Run a function on its arguments.  Falling off its end gives `None`. -/
def Function.apply (fuel : Nat) (call : Callee) (f : Function) (args : List Value) : Eval Value := do
  let ρ ← Eval.initializeLocals call f.decls (Frame.empty.bind f.params args)
  match ← Stmt.execBlock fuel call f.body ρ with
  | .ret v => return v
  | .next _ => return .none

/-- Call a function of a program while `depth` more calls may nest. -/
def Program.callAt (p : Program) (fuel : Nat) : (depth : Nat) → Callee
  | 0, _, _ => Eval.fail .stackExhausted
  | depth + 1, name, args => do
    let f ← Eval.ofOption (p.function? name)
    f.apply fuel (p.callAt fuel depth) args

/-! ## Programs -/

/-- The number of calls that may be in progress at once; the program itself
counts as one. -/
def maxCalls : Nat := 10000

/-- Initialize the globals of a program in order. -/
def Eval.initializeGlobals (call : Callee) : Program → Eval Unit
  | [] => return ()
  | .decl d :: rest => do
    let v ← d.value.eval call Frame.empty
    Eval.setGlobal d.name v
    Eval.initializeGlobals call rest
  | _ :: rest => Eval.initializeGlobals call rest

/-- Run a top-level statement; that of an expression has a value. -/
def Stmt.act (fuel : Nat) (call : Callee) : Stmt → Eval (Option Value)
  | .expr e => do
    let v ← e.eval call Frame.empty
    return some v
  | s => do
    let _ ← s.exec fuel call Frame.empty
    return none

/-- Run top-level statements in order; the value is that of the last. -/
def Eval.runActions (fuel : Nat) (call : Callee) : List Stmt → Eval (Option Value)
  | [] => return none
  | [s] => s.act fuel call
  | s :: rest => do
    let _ ← s.act fuel call
    Eval.runActions fuel call rest

/-- Run a program: its globals are initialized first, then the other
statements run.  The program has a result when its last statement is an
expression. -/
def Program.run (fuel : Nat) (p : Program) : Eval (Option Value) := do
  let call := p.callAt fuel (maxCalls - 1)
  Eval.initializeGlobals call p
  let last ← Eval.runActions fuel call p.actions
  return if p.endsInExpr then last else none

/-- What a program comes to, and what it prints. -/
def Program.evaluate (fuel : Nat) (p : Program) :
    Option (Except Fault (Option Value) × List Value) :=
  (p.run fuel {}).map fun r => (r.1, r.2.printed)

end Taglet
