import Taglet.Execute
import Taglet.File
import Taglet.Source

/-!
# Taglet.Command

The commands: each handles files one after the other and stops at the first
that fails, keeping what was printed until then.
-/

namespace Taglet

/-- A command. -/
inductive Command where
  | check
  | compile
  | run
  | format
deriving Repr, DecidableEq

/-- Why a command failed on a file. -/
inductive CommandError where
  | load (file : String) (e : FileError)
  | check (file : String) (e : CheckError)
  | compile (file : String) (e : CompileFileError)
  | run (file : String) (e : ExecuteError)
  | format (file : String) (e : Source.Error)

/-- The wording of a command's failure. -/
def CommandError.message : CommandError → Bytes
  | load file e => labelled (utf8 "load " ++ utf8 file) e.message
  | check file e => labelled (utf8 "check " ++ utf8 file) e.message
  | compile file e => labelled (utf8 "compile " ++ utf8 file) e.message
  | run file e => labelled (utf8 "run " ++ utf8 file) e.message
  | format file e => labelled (utf8 "format " ++ utf8 file) (Source.Error.message e)

/-- What a command printed, and why it stopped if it did. -/
structure Session where
  out : Bytes := []
  error : Option CommandError := none

namespace Command

/-- The name of a command. -/
def name : Command → String
  | check => "check"
  | compile => "compile"
  | run => "run"
  | format => "fmt"

/-- The command with a name. -/
def ofName? (name : String) : Option Command :=
  [check, compile, run, format].find? fun c => c.name = name

/-- Handle one file.  There is no answer when a run takes more than `fuel`
steps. -/
def onFile (fuel : Nat) (files : Files) (file : String) : Command → Option Session
  | check =>
    match Program.ofFile files file with
    | .error e => some { error := some (.load file e) }
    | .ok p =>
      match p.check with
      | { types := .error e, .. } => some { error := some (.check file e) }
      | { env, .. } =>
        some { out := utf8 file ++ utf8 ": ok, " ++ Decimal.ofNat env.slots ++ utf8 " globals\n" }
  | compile =>
    match compileFile files file with
    | .error e => some { error := some (.compile file e) }
    | .ok text => some { out := text }
  | run =>
    match compileFile files file with
    | .error e => some { error := some (.compile file e) }
    | .ok text =>
      match execute fuel text {} with
      | none => none
      | some (.error e, h) => some { out := h.written.toList, error := some (.run file e) }
      | some (.ok none, h) => some { out := h.written.toList }
      | some (.ok (some v), h) =>
        some { out := h.written.toList ++ Decimal.ofWord v ++ utf8 "\n" }
  | format =>
    match Program.ofFile files file with
    | .error e => some { error := some (.load file e) }
    | .ok p =>
      match p.source with
      | .error e => some { error := some (.format file e) }
      | .ok text => some { out := text }

/-- Handle files in order, up to the first that fails. -/
def onFiles (fuel : Nat) (files : Files) (c : Command) : List String → Option Session
  | [] => some {}
  | file :: rest =>
    match c.onFile fuel files file with
    | none => none
    | some { out, error := some e } => some { out, error := some e }
    | some { out, error := none } =>
      match c.onFiles fuel files rest with
      | none => none
      | some r => some { r with out := out ++ r.out }

end Command

end Taglet
