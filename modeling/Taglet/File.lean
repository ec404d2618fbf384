import Taglet.Compile
import Taglet.Program.Read

/-!
# Taglet.File

Programs in files.  The files are given as a function from names to contents,
so nothing here depends on where they are kept.
-/

namespace Taglet

/-- The contents of files by name. -/
abbrev Files := String → Option Bytes

/-- Why a file does not give a program. -/
inductive FileError where
  | missing (name : String)
  | read (e : ReadError)

/-- The wording of a failure to read a program from a file. -/
def FileError.message : FileError → Bytes
  | missing name => utf8 "read file: open " ++ utf8 name ++ utf8 ": no such file or directory"
  | read e => e.message

/-- The program in a file. -/
def Program.ofFile (files : Files) (name : String) : Except FileError Program :=
  match files name with
  | none => .error (.missing name)
  | some bytes =>
    match Program.readBytes bytes with
    | .error e => .error (.read e)
    | .ok p => .ok p

/-- Why the program in a file cannot be compiled. -/
inductive CompileFileError where
  | load (e : FileError)
  | compile (e : CompileError)

/-- The wording of a failure to compile a file. -/
def CompileFileError.message : CompileFileError → Bytes
  | load e => labelled (utf8 "load") e.message
  | compile e => e.message

/-- The module text of the program in a file. -/
def compileFile (files : Files) (name : String) : Except CompileFileError Bytes :=
  match Program.ofFile files name with
  | .error e => .error (.load e)
  | .ok p =>
    match p.compile with
    | .error e => .error (.compile e)
    | .ok text => .ok text

end Taglet
