import Taglet.Program.OfNode
import Taglet.Yaml.Document

/-!
# Taglet.Program.Read

Reading a program from the text of a document.  A text without a document is
the empty program.
-/

namespace Taglet

/-- Why a text is not a program. -/
inductive ReadError where
  /-- It is not a well-formed document. -/
  | document
  /-- Its document does not describe a program. -/
  | tree (e : OfNode.Error)
deriving Repr, DecidableEq

/-- The wording of a failure to read a program. -/
def ReadError.message : ReadError → Bytes
  | document => utf8 "decode yaml: malformed document"
  | tree e => OfNode.Error.message e

/-- The program of a document, if there is one. -/
def Program.ofDocument (doc : Option Yaml.Node) : Except OfNode.Error Program :=
  match doc with
  | none => .ok []
  | some n => OfNode.stmtsOf n

/-- Read a program. -/
def Program.read (text : String) : Except ReadError Program :=
  match Yaml.read text with
  | .error _ => .error .document
  | .ok doc =>
    match Program.ofDocument doc with
    | .error e => .error (.tree e)
    | .ok p => .ok p

/-- Read a program from bytes, which have to be text. -/
def Program.readBytes (bytes : Bytes) : Except ReadError Program :=
  match String.fromUTF8? bytes.toByteArray with
  | none => .error .document
  | some text => Program.read text

end Taglet
