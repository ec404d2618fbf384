import Taglet.Typing.Check
import Taglet.Wat.Emit

/-!
# Taglet.Compile

From a program to the text of a module: the program is checked, and only if
that succeeds is text generated, with the storage the checker assigned.
-/

namespace Taglet

open Wat

/-- Why a program cannot be compiled. -/
inductive CompileError where
  | analyze (e : CheckError)
  | generate (e : Emit.Error)

/-- The wording of a failure to compile. -/
def CompileError.message : CompileError → Bytes
  | analyze e => labelled (utf8 "analyze") e.message
  | generate e => labelled (utf8 "generate") (Emit.Error.message e)

/-- The text of a program's module. -/
def Program.compile (p : Program) : Except CompileError Bytes :=
  match p.check with
  | { types := .error e, .. } => .error (.analyze e)
  | { env, types := .ok _ } =>
    match Emit.program env p with
    | .error e => .error (.generate e)
    | .ok text => .ok text

end Taglet
