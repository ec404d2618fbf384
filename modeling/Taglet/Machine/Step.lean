import Taglet.Machine.Config

/-!
# Taglet.Machine.Step

One step of the machine.  A step either starts an instruction, which leaves
the work that waits for its operands on the stack, or hands the outcome of
one to the innermost task.  Values are used by the task; branches, returns
and failures drop it, until they meet the label or the frame they are for.
-/

namespace Taglet.Machine

open Wat

variable {σ ε : Type}

namespace Config

/-- End the current instruction with an outcome. -/
def finish (c : Config σ ε) (o : Outcome ε) : Config σ ε :=
  { c with focus := .ended o }

/-- End the current instruction with a value. -/
def give (c : Config σ ε) (v : Word) : Config σ ε :=
  c.finish (.value v)

/-- End the current instruction with a failure in some places. -/
def failAt (c : Config σ ε) (places : List Place) (e : Cause ε) : Config σ ε :=
  c.finish (.failed ⟨places, e⟩)

/-- Start an instruction whose outcome a task waits for. -/
def await (c : Config σ ε) (t : Task) (x : Instr) : Config σ ε :=
  { c with focus := .start x, stack := t :: c.stack }

/-- Run instructions in order; the value is that of the last, or zero. -/
def runBody (c : Config σ ε) : List Instr → Config σ ε
  | [] => c.give 0
  | x :: xs => c.await (.sequence xs) x

/-- Run instructions as the target of branches. -/
def runLabel (c : Config σ ε) (body : List Instr) : Config σ ε :=
  { c with stack := .label :: c.stack }.runBody body

/-- Start a loop, or start it again, unless the run is to be interrupted. -/
def runLoop (c : Config σ ε) (body : List Instr) : Config σ ε :=
  if c.state.canceled then c.failAt [] .canceled
  else { c with stack := .loop body :: c.stack }.runBody body

/-! ## Memory -/

/-- Load from an address. -/
def load (c : Config σ ε) (addr : Word) : Config σ ε :=
  match c.state.memory.load addr with
  | .done v => c.give v
  | .outOfBounds => c.failAt [.load addr] .outOfBounds
  | .wraps => c.failAt [] .addressWraps

/-- Put a word in the memory. -/
def setWord (c : Config σ ε) (i : Nat) (w : Word) : Config σ ε :=
  match c with
  | ⟨focus, stack, locals, ⟨memory, world, depth, canceled⟩⟩ =>
    ⟨focus, stack, locals, ⟨memory.setWord i w, world, depth, canceled⟩⟩

/-- Store at an address. -/
def store (c : Config σ ε) (addr w : Word) : Config σ ε :=
  match Memory.locate c.state.memory.size addr with
  | .done i => (c.setWord i w).give 0
  | .outOfBounds => c.failAt [.store addr] .outOfBounds
  | .wraps => c.failAt [] .addressWraps

/-! ## Operators -/

/-- Apply an operator of one word. -/
def unary (c : Config σ ε) (op : UnaryOp) (x : Word) : Config σ ε :=
  match applyUnary op x with
  | .ok v => c.give v
  | .error e => c.failAt [] (.operator e)

/-- Apply an operator of two words. -/
def binary (c : Config σ ε) (op : BinaryOp) (l r : Word) : Config σ ε :=
  match applyBinary op l r with
  | .ok v => c.give v
  | .error e => c.failAt [.operator op] (.operator e)

/-! ## Calls -/

/-- Call a function of the module. -/
def call (m : Linked σ ε) (c : Config σ ε) (f : Func) (args : List Word) : Config σ ε :=
  if c.state.canceled then c.failAt [] .canceled
  else if args.length ≠ f.params.length then
    c.failAt [] (.arity f.name f.params.length args.length)
  else if (c.state.depth : Int) ≥ m.maxDepth then c.failAt [] .stackExhausted
  else
    { c with
      stack := .frame f.name c.locals :: c.stack
      locals := Locals.start f args
      state := { c.state with depth := c.state.depth + 1 } }.runBody f.body

/-- Call an imported procedure. -/
def callProcedure (c : Config σ ε) (name : Bytes) (p : Procedure σ ε) (args : List Word) :
    Config σ ε :=
  match c with
  | ⟨_, stack, locals, ⟨memory, world, depth, canceled⟩⟩ =>
    match p args world with
    | ⟨result, world, cancels⟩ =>
      let outcome :=
        match result with
        | .ok v => .value v
        | .error e => .failed ⟨[.procedure name], .procedure e⟩
      ⟨.ended outcome, stack, locals, ⟨memory, world, depth, canceled || cancels⟩⟩

/-- Call what a name stands for; imports come before functions. -/
def invoke (m : Linked σ ε) (c : Config σ ε) (name : Bytes) (args : List Word) : Config σ ε :=
  match m.procedures.lookup name with
  | some p => c.callProcedure name p args
  | none =>
    match m.code.lookup? name with
    | some f => c.call m f args
    | none => c.failAt [] (.unknownFunction name)

/-- Leave the function being run. -/
def leave (c : Config σ ε) (caller : Locals) : Config σ ε :=
  { c with locals := caller, state := { c.state with depth := c.state.depth - 1 } }

/-! ## Steps -/

/-- Start an instruction. -/
def start (m : Linked σ ε) (c : Config σ ε) : Instr → Config σ ε
  | .missing => c.failAt [] .missingInstr
  | .const v => c.give v
  | .localGet name =>
    match c.locals.get? name with
    | some v => c.give v
    | none => c.failAt [] (.unknownLocal name)
  | .localSet name value =>
    match c.locals.get? name with
    | some _ => c.await (.setLocal name) value
    | none => c.failAt [] (.unknownLocal name)
  | .load addr => c.await .load addr
  | .store addr value => c.await (.storeTo value) addr
  | .unary op arg => c.await (.unary op) arg
  | .binary op l r => c.await (.left op r) l
  | .call func [] => c.invoke m func []
  | .call func (x :: xs) => c.await (.argument func [] xs) x
  | .drop value => c.await .drop value
  | .ret .missing => c.finish (.ret 0)
  | .ret value => c.await .ret value
  | .nop => c.give 0
  | .block body => c.runLabel body
  | .loop body => c.runLoop body
  | .br depth => c.finish (.branch depth)
  | .brIf depth cond => c.await (.brIf depth) cond
  | .branch _ cond thn els => c.await (.branch thn els) cond

/-- Go on with a task whose instruction had a value. -/
def resume (m : Linked σ ε) (c : Config σ ε) (v : Word) : Task → Config σ ε
  | .setLocal name => { c with locals := c.locals.set name v }.give 0
  | .load => c.load v
  | .storeTo value => c.await (.storeAt v) value
  | .storeAt addr => c.store addr v
  | .unary op => c.unary op v
  | .left op r => c.await (.right op v) r
  | .right op l => c.binary op l v
  | .argument func given [] => c.invoke m func (v :: given).reverse
  | .argument func given (x :: xs) => c.await (.argument func (v :: given) xs) x
  | .drop => c.give 0
  | .ret => c.finish (.ret v)
  | .brIf depth => if v = 0 then c.give 0 else c.finish (.branch depth)
  | .branch thn els => c.runLabel (if v = 0 then els else thn)
  | .sequence [] => c.give v
  | .sequence (x :: xs) => c.await (.sequence xs) x
  | .label => c.give v
  | .loop _ => c.give v
  | .frame _ caller => (c.leave caller).give v

/-- Take a branch past a task.  Each label takes one off its depth, as machine
integers do. -/
def unwind (c : Config σ ε) (depth : Depth) : Task → Config σ ε
  | .label => if depth = 0 then c.give 0 else c.finish (.branch (depth - 1))
  | .loop body => if depth = 0 then c.runLoop body else c.finish (.branch (depth - 1))
  | .frame _ caller => (c.leave caller).give 0
  | _ => c.finish (.branch depth)

/-- Hand an outcome to a task. -/
def settle (m : Linked σ ε) (c : Config σ ε) (t : Task) : Outcome ε → Config σ ε
  | .value v => c.resume m v t
  | .branch depth => c.unwind depth t
  | .ret v =>
    match t with
    | .frame _ caller => (c.leave caller).give v
    | _ => c.finish (.ret v)
  | .failed e =>
    match t with
    | .frame func caller =>
      (c.leave caller).finish (.failed { e with places := .func func :: e.places })
    | _ => c.finish (.failed e)

/-- One step; a configuration without work left stays as it is. -/
def step (m : Linked σ ε) (c : Config σ ε) : Config σ ε :=
  match c.focus with
  | .start x => c.start m x
  | .ended o =>
    match c.stack with
    | [] => c
    | t :: rest => { c with stack := rest }.settle m t o

/-- The outcome of a configuration without work left. -/
def outcome? (c : Config σ ε) : Option (Outcome ε) :=
  match c.focus, c.stack with
  | .ended o, [] => some o
  | _, _ => none

end Config

end Taglet.Machine
