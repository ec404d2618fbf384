import Taglet.Yaml.Cursor

/-!
# Taglet.Yaml.Fold

Line folding.  In scalars that may run over several lines, white space around
line breaks is dropped, a single break becomes a space and of several breaks
the first is dropped.  `Fold` is the white space met since the last visible
character, and `Fold.join` what it stands for when another one follows.

Texts under construction are kept last character first.
-/

namespace Taglet.Yaml

/-- White space since the last visible character. -/
inductive Fold where
  | none
  /-- White space within a line, last character first. -/
  | blanks (text : List Char)
  /-- Line breaks: the first, unless it was escaped, and the others, last
  first. -/
  | lines (first : Option Char) (more : List Char)
deriving Repr, DecidableEq

namespace Fold

/-- Take in a blank. -/
def blank (c : Char) : Fold → Fold
  | none => blanks [c]
  | blanks text => blanks (c :: text)
  | lines first more => lines first more

/-- Take in a line break. -/
def lineBreak (c : Char) : Fold → Fold
  | none => lines (some (breakText c)) []
  | blanks _ => lines (some (breakText c)) []
  | lines first more => lines first (breakText c :: more)

/-- Does it hold a line break? -/
def isLines : Fold → Bool
  | lines _ _ => true
  | _ => false

/-- Put what the white space stands for after a text. -/
def join (text : List Char) : Fold → List Char
  | none => text
  | blanks ws => ws ++ text
  | lines first more =>
    if first = some '\n' then
      if more.isEmpty then ' ' :: text else more ++ text
    else more ++ first.toList ++ text

end Fold

end Taglet.Yaml
