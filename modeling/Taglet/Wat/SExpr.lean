import Taglet.Failure
import Taglet.Text.Decimal
import Taglet.Text.Quoted
import Taglet.Wat.Lexeme

/-!
# Taglet.Wat.SExpr

Trees of lists, strings and atoms, the syntax that WebAssembly text is
written in.  A tree is built from lexemes in one pass, with the lists that
are still open on a stack.
-/

namespace Taglet.Wat

/-- A tree with the positions its parts start at. -/
inductive SExpr where
  | atom (pos : Nat) (text : Bytes)
  | string (pos : Nat) (text : Bytes)
  | list (pos : Nat) (items : List SExpr)
deriving Repr, BEq, Inhabited

namespace SExpr

/-- The position a tree starts at. -/
def pos : SExpr → Nat
  | atom p _ | string p _ | list p _ => p

/-- The text of an atom or a string; a list has none. -/
def text : SExpr → Bytes
  | atom _ t | string _ t => t
  | list _ _ => []

/-- The items of a list; nothing else has any. -/
def items : SExpr → List SExpr
  | list _ xs => xs
  | _ => []

/-- Is the tree a string? -/
def isString : SExpr → Bool
  | string _ _ => true
  | _ => false

/-- The atom a list begins with.  It is empty if there is none. -/
def head : SExpr → Bytes
  | list _ (atom _ t :: _) => t
  | _ => []

/-- The name that an atom with a dollar sign in front stands for.  It is
empty if the tree is no such atom. -/
def id : SExpr → Bytes
  | atom _ (d :: name) => if d = '$'.toUInt8 then name else []
  | _ => []

/-- Is the tree a name? -/
def isId (x : SExpr) : Bool :=
  !x.id.isEmpty

/-! ## Errors -/

/-- Why a text is not a tree. -/
inductive Cause where
  | endOfText
  | unclosed (pos : Nat)
  | unexpectedClosing
  | unterminatedString
  | badString
  | straySemicolon
deriving Repr, DecidableEq

/-- The wording of a cause. -/
def Cause.text : Cause → Bytes
  | .endOfText => utf8 "unexpected end of text"
  | .unclosed p => utf8 "unclosed paren at " ++ Decimal.ofNat p
  | .unexpectedClosing => utf8 "unexpected )"
  | .unterminatedString => utf8 "unterminated string"
  | .badString => utf8 "string: invalid syntax"
  | .straySemicolon => utf8 "unexpected ;"

/-- A cause and the position it was met at. -/
structure Error where
  pos : Nat
  cause : Cause
deriving Repr, DecidableEq

/-- The wording of an error. -/
def Error.message (e : Error) : Bytes :=
  utf8 "pos " ++ Decimal.ofNat e.pos ++ utf8 ": " ++ e.cause.text

/-! ## Building trees -/

/-- A list that is not closed yet: where it starts, and its items last
first. -/
structure Pending where
  pos : Nat
  items : List SExpr
deriving Repr, BEq

/-- Add an item. -/
def Pending.push (x : SExpr) (p : Pending) : Pending :=
  { p with items := x :: p.items }

/-- The list, now that it is closed. -/
def Pending.close (p : Pending) : SExpr :=
  .list p.pos p.items.reverse

/-- The first tree of a sequence of lexemes, the position just past it, and
the lexemes after it.  The lists in `stack` are open, the innermost first; the
text ends at `stop`. -/
def build (stop : Nat) :
    (stack : List Pending) → List Lexeme → Except Error (SExpr × Nat × List Lexeme)
  | [], [] => .error ⟨stop, .endOfText⟩
  | p :: _, [] => .error ⟨stop, .unclosed p.pos⟩
  | stack, .opening pos :: rest => build stop (⟨pos, []⟩ :: stack) rest
  | [], .closing pos :: _ => .error ⟨pos, .unexpectedClosing⟩
  | [p], .closing pos :: rest => .ok (p.close, pos + 1, rest)
  | p :: outer :: stack, .closing _ :: rest => build stop (outer.push p.close :: stack) rest
  | [], .atom pos text :: rest => .ok (.atom pos text, pos + text.length, rest)
  | p :: stack, .atom pos text :: rest => build stop (p.push (.atom pos text) :: stack) rest
  | stack, .string pos inside :: rest =>
    match Quoted.decode? inside with
    | none => .error ⟨pos, .badString⟩
    | some text =>
      match stack with
      | [] => .ok (.string pos text, pos + inside.length + 2, rest)
      | p :: stack => build stop (p.push (.string pos text) :: stack) rest
  | _, .unterminated pos :: _ => .error ⟨pos, .unterminatedString⟩
  -- outside of a list a stray semicolon is an empty atom that ends before it
  | [], .stray pos :: rest => .ok (.atom pos [], pos, .stray pos :: rest)
  | _ :: _, .stray pos :: _ => .error ⟨pos, .straySemicolon⟩

/-- The first tree of a text from a position on, the position just past it, and
the lexemes after it. -/
def readFrom (start : Nat) (text : Bytes) : Except Error (SExpr × Nat × List Lexeme) :=
  build text.length [] (Lexeme.scan start (text.drop start))

end SExpr

end Taglet.Wat
