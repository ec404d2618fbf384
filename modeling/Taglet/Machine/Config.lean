import Taglet.Failure
import Taglet.Machine.Memory
import Taglet.Machine.Operator

/-!
# Taglet.Machine.Config

The state of the machine that runs modules.

A configuration holds what is being done now (`Focus`), the work that waits
for it (`Task`, innermost first), the locals of the function being run, and
the parts that outlive a run (`State`).  Nothing of the work still to be done
is held outside the configuration, so it can nest as deeply as the calls do.
-/

namespace Taglet.Machine

open Wat

/-! ## Errors -/

/-- Where a run met a failure. -/
inductive Place where
  | func (name : Bytes)
  | procedure (name : Bytes)
  | load (addr : Word)
  | store (addr : Word)
  | operator (op : BinaryOp)
deriving Repr, DecidableEq

/-- Why a run failed; `ε` holds the failures of imported procedures. -/
inductive Cause (ε : Type) where
  | canceled
  | arity (func : Bytes) (expected given : Nat)
  | stackExhausted
  | unknownLocal (name : Bytes)
  | unknownFunction (name : Bytes)
  | noExport (name : Bytes)
  | missingInstr
  | outOfBounds
  | addressWraps
  | operator (e : OperatorError)
  | procedure (e : ε)
deriving Repr, DecidableEq

/-- The failure of a run. -/
abbrev Error (ε : Type) := Failure Place (Cause ε)

/-! ## Procedures and state -/

/-- What a procedure gives back: a word or a failure, the world it leaves,
and whether it asks for the run to be interrupted. -/
structure Reply (σ ε : Type) where
  result : Except ε Word
  world : σ
  cancels : Bool := false

/-- A procedure that modules import. -/
abbrev Procedure (σ ε : Type) := List Word → σ → Reply σ ε

/-- What outlives a run: the memory, the world of the procedures, the number
of calls in progress and whether runs are to be interrupted. -/
structure State (σ : Type) where
  memory : Memory
  world : σ
  depth : Nat := 0
  canceled : Bool := false

/-- A module with its imports resolved. -/
structure Linked (σ ε : Type) where
  code : Wat.Module
  procedures : List (Bytes × Procedure σ ε)
  /-- As many calls may be in progress at once. -/
  maxDepth : Int := 10000

/-! ## Locals -/

/-- The locals of a function by name. -/
abbrev Locals := List (Bytes × Word)

namespace Locals

/-- The value of a local. -/
def get? (ls : Locals) (name : Bytes) : Option Word :=
  List.lookup name ls

/-- Give a local a value, adding it if it is not there. -/
def set : Locals → Bytes → Word → Locals
  | [], name, v => [(name, v)]
  | (k, w) :: ls, name, v => if k = name then (k, v) :: ls else (k, w) :: set ls name v

/-- The locals a function starts with: its parameters hold the arguments and
its own locals zero.  Of two with one name the later counts. -/
def start (f : Func) (args : List Word) : Locals :=
  let params := (f.params.zip args).foldl (fun (ls : Locals) p => ls.set p.1 p.2) []
  f.locals.foldl (fun (ls : Locals) name => ls.set name 0) params

end Locals

/-! ## Configurations -/

/-- How an instruction ends. -/
inductive Outcome (ε : Type) where
  | value (v : Word)
  /-- A branch to the label that many labels out. -/
  | branch (depth : Depth)
  | ret (v : Word)
  | failed (e : Error ε)
deriving Repr, DecidableEq

/-- Work that waits for an instruction to end. -/
inductive Task where
  | setLocal (name : Bytes)
  | load
  /-- The address is awaited, then the value is computed. -/
  | storeTo (value : Instr)
  | storeAt (addr : Word)
  | unary (op : UnaryOp)
  | left (op : BinaryOp) (right : Instr)
  | right (op : BinaryOp) (left : Word)
  /-- An argument is awaited; `given` are those before it, last first. -/
  | argument (func : Bytes) (given : List Word) (rest : List Instr)
  | drop
  | ret
  | brIf (depth : Depth)
  | branch (thn els : List Instr)
  | sequence (rest : List Instr)
  | label
  | loop (body : List Instr)
  /-- A call is in progress; the caller goes on with its own locals. -/
  | frame (func : Bytes) (caller : Locals)
deriving Repr, BEq

/-- What is being done now. -/
inductive Focus (ε : Type) where
  | start (x : Instr)
  | ended (o : Outcome ε)

/-- A configuration of the machine. -/
structure Config (σ ε : Type) where
  focus : Focus ε
  stack : List Task := []
  locals : Locals := []
  state : State σ

end Taglet.Machine
