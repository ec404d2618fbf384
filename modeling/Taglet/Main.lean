import Taglet.Command

/-!
# Taglet.Main

The command line: a command and the files it handles.
-/

namespace Taglet.Cli

/-- More steps than any run takes. -/
def fuel : Nat := 4611686018427387904

/-- Read the files that are there. -/
def readAll : List String → IO (List (String × Bytes))
  | [] => return []
  | name :: rest => do
    let others ← readAll rest
    try
      let contents ← IO.FS.readBinFile name
      return (name, contents.data.toList) :: others
    catch _ => return others

/-- Write bytes as they are. -/
def write (stream : IO.FS.Stream) (bytes : Bytes) : IO Unit := do
  stream.write bytes.toByteArray
  stream.flush

/-- Run a command on files. -/
def runCommand (c : Command) (names : List String) : IO UInt32 := do
  let contents ← readAll names
  match c.onFiles fuel (fun name => contents.lookup name) names with
  | none => return 1
  | some s =>
    write (← IO.getStdout) s.out
    match s.error with
    | none => return 0
    | some e =>
      write (← IO.getStderr)
        (utf8 "error: " ++ labelled (utf8 c.name) e.message ++ utf8 "\n")
      return 1

end Taglet.Cli

/-- Run the command that the first argument names on the files after it. -/
def main (args : List String) : IO UInt32 :=
  match args with
  | [] => return 0
  | name :: files =>
    match Taglet.Command.ofName? name with
    | some c => Taglet.Cli.runCommand c files
    | none => do
      Taglet.Cli.write (← IO.getStderr) (Taglet.utf8 ("error: unknown command: " ++ name ++ "\n"))
      return 1
