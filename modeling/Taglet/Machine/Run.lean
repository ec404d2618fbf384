import Taglet.Machine.Step
import Taglet.Text.Quoted

/-!
# Taglet.Machine.Run

Linking a module, running a function it exports, and the wording of what can
go wrong.  A run takes steps until no work is left; `fuel` bounds their
number, and a run that has used it up has no answer.
-/

namespace Taglet.Machine

open Wat

variable {σ ε : Type}

/-! ## Wording -/

/-- The label of a place. -/
def Place.text : Place → Bytes
  | func name => utf8 "func " ++ name
  | procedure name => utf8 "host " ++ name
  | load addr => utf8 "load " ++ Decimal.ofWord addr
  | store addr => utf8 "store " ++ Decimal.ofWord addr
  | operator op => op.text

/-- The wording of a cause. -/
def Cause.message (procedureText : ε → Bytes) : Cause ε → Bytes
  | canceled => utf8 "interrupted: context canceled"
  | arity func expected given =>
    func ++ utf8 ": expected " ++ Decimal.ofNat expected ++ utf8 " arguments, got "
      ++ Decimal.ofNat given
  | stackExhausted => utf8 "call stack exhausted"
  | unknownLocal name => utf8 "unknown local " ++ name
  | unknownFunction name => utf8 "unknown function " ++ name
  | noExport name => utf8 "no export " ++ Quoted.encode name
  | missingInstr => utf8 "unsupported instruction <nil>"
  | outOfBounds => utf8 "out of bounds memory access"
  | addressWraps => utf8 "address out of range"
  | operator e => e.message
  | procedure e => procedureText e

/-- The wording of a failure. -/
def Error.message (procedureText : ε → Bytes) (e : Error ε) : Bytes :=
  Failure.message Place.text (Cause.message procedureText) e

/-! ## Linking -/

/-- Why a module cannot be linked. -/
inductive LinkError where
  /-- The memory it asks for cannot be had. -/
  | memory (pages : Int64)
  | unresolved (moduleName name : Bytes)
deriving Repr, DecidableEq

/-- The wording of a failure to link. -/
def LinkError.message : LinkError → Bytes
  | memory pages => utf8 "cannot allocate " ++ Decimal.ofWord pages ++ utf8 " pages"
  | unresolved moduleName name =>
    utf8 "unresolved import " ++ moduleName ++ utf8 "." ++ name

/-- The number of bytes on a page. -/
def pageBytes : Int64 := 65536

/-- No memory is larger than this. -/
def maxMemory : Int64 := 281474976710656

/-- The memory of a module; the size is computed as a word. -/
def allocate (m : Wat.Module) : Except LinkError Memory :=
  match m.memory with
  | none => .ok (Memory.zeros 0)
  | some mem =>
    let size := mem.pages * pageBytes
    if size < 0 ∨ maxMemory < size then .error (.memory mem.pages)
    else .ok (Memory.zeros size.toInt.toNat)

/-- The procedures by module and name. -/
abbrev Library (σ ε : Type) := Bytes → Bytes → Option (Procedure σ ε)

/-- The procedures that imports stand for, the last import first, so that it
is the one found under a name. -/
def resolve (lib : Library σ ε) :
    List FuncImport → Except LinkError (List (Bytes × Procedure σ ε))
  | [] => .ok []
  | im :: rest =>
    match lib im.moduleName im.name with
    | none => .error (.unresolved im.moduleName im.name)
    | some p =>
      match resolve lib rest with
      | .error e => .error e
      | .ok ps => .ok (ps ++ [(im.func, p)])

/-- Link a module: allocate its memory and resolve its imports. -/
def link (lib : Library σ ε) (m : Wat.Module) : Except LinkError (Linked σ ε × Memory) := do
  let memory ← allocate m
  let procedures ← resolve lib m.imports
  return ({ code := m, procedures }, memory)

/-! ## Runs -/

/-- Take steps until there is no work left, at most `fuel` of them. -/
def Config.run (m : Linked σ ε) : (fuel : Nat) → Config σ ε → Option (Outcome ε × State σ)
  | 0, _ => none
  | fuel + 1, c =>
    match c.outcome? with
    | some o => some (o, c.state)
    | none => Config.run m fuel (c.step m)

/-- What a run gives: the word of the function if it has a result. -/
abbrev Result (ε : Type) := Except (Error ε) (Option Word)

/-- The result of a run of a function that ended with an outcome. -/
def Outcome.result (f : Func) : Outcome ε → Result ε
  | value v => .ok (if f.result then some v else none)
  | ret v => .ok (if f.result then some v else none)
  | branch _ => .ok (if f.result then some 0 else none)
  | failed e => .error e

/-- Run an exported function without arguments. -/
def Linked.run (m : Linked σ ε) (fuel : Nat) (entry : Bytes) (s : State σ) :
    Option (Result ε × State σ) :=
  match m.code.exported? entry with
  | none => some (.error (Failure.ofCause (.noExport entry)), s)
  | some f =>
    let c : Config σ ε := { focus := .ended (.value 0), state := s }
    match Config.run m fuel (c.call m f []) with
    | none => none
    | some (o, s) => some (o.result f, s)

end Taglet.Machine
