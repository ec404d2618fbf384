import Taglet.Host
import Taglet.Machine.Run
import Taglet.Wat.Emit
import Taglet.Wat.Read

/-!
# Taglet.Execute

Running the text of a compiled module: it is read, linked with the procedures
of a host, and its entry is run.
-/

namespace Taglet

open Wat

/-- Why the text of a module cannot be run to its end. -/
inductive ExecuteError where
  | read (e : Read.Error)
  /-- The module does not import the memory that compiled modules import. -/
  | noMemory
  | link (e : Machine.LinkError)
  | run (e : Machine.Error HostError)

/-- The wording of a failure to run. -/
def ExecuteError.message : ExecuteError → Bytes
  | read e => labelled (utf8 "parse wat") (Read.Error.message e)
  | noMemory =>
    utf8 "module does not import " ++ utf8 Emit.memoryModule ++ utf8 "." ++ utf8 Emit.memoryName
  | link e => labelled (utf8 "link") e.message
  | run e => labelled (utf8 "run") (Machine.Error.message HostError.message e)

/-- The procedures of the host, under the name of its module. -/
def Host.library : Machine.Library Host HostError := fun moduleName name =>
  if moduleName = utf8 Emit.hostModule then Host.procedure? name else none

/-- Does a module import the memory that compiled modules import? -/
def Wat.Module.importsMemory (m : Wat.Module) : Bool :=
  match m.memory with
  | none => false
  | some mem => mem.moduleName = utf8 Emit.memoryModule ∧ mem.name = utf8 Emit.memoryName

/-- What a run of a text comes to: the word of the entry if it has a result. -/
abbrev Execution := Except ExecuteError (Option Word) × Host

/-- Run a module with a host.  There is no answer when `fuel` steps are not
enough. -/
def Wat.Module.execute (fuel : Nat) (m : Wat.Module) (h : Host) : Option Execution :=
  if m.importsMemory then
    match Machine.link Host.library m with
    | .error e => some (.error (.link e), h)
    | .ok (linked, memory) =>
      match linked.run fuel (utf8 Emit.entryName) { memory, world := h } with
      | none => none
      | some (.error e, s) => some (.error (.run e), s.world)
      | some (.ok v, s) => some (.ok v, s.world)
  else some (.error .noMemory, h)

/-- Run the text of a module with a host. -/
def execute (fuel : Nat) (text : Bytes) (h : Host) : Option Execution :=
  match Wat.Module.read text with
  | .error e => some (.error (.read e), h)
  | .ok m => m.execute fuel h

end Taglet
