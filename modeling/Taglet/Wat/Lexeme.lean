import Taglet.Bytes

/-!
# Taglet.Wat.Lexeme

The lexemes of WebAssembly text: parentheses, quoted strings and atoms, with
the positions they start at.  Blanks and line comments, which begin with two
semicolons, stand between them.

The text is read byte by byte by a machine with four modes and one byte of
lookahead (`step`), so that reading is one pass over the list of bytes.
-/

namespace Taglet.Wat

/-- A lexeme and the position it starts at. -/
inductive Lexeme where
  | opening (pos : Nat)
  | closing (pos : Nat)
  | atom (pos : Nat) (text : Bytes)
  /-- A string, as it stands between its quotes. -/
  | string (pos : Nat) (inside : Bytes)
  /-- A string whose closing quote is missing. -/
  | unterminated (pos : Nat)
  /-- A semicolon that begins no comment. -/
  | stray (pos : Nat)
deriving Repr, DecidableEq

namespace Lexeme

/-- The position a lexeme starts at. -/
def pos : Lexeme → Nat
  | opening p | closing p | atom p _ | string p _ | unterminated p | stray p => p

/-- Is the byte a blank? -/
def isBlank (b : UInt8) : Bool :=
  b == ' '.toUInt8 || b == '\t'.toUInt8 || b == '\n'.toUInt8 || b == '\r'.toUInt8

/-- Does the byte end an atom? -/
def isDelimiter (b : UInt8) : Bool :=
  isBlank b || b == '('.toUInt8 || b == ')'.toUInt8 || b == '"'.toUInt8 || b == ';'.toUInt8

/-- What is being read. -/
inductive Mode where
  /-- Nothing; the next lexeme may start. -/
  | between
  | comment
  /-- An atom that started at `pos`, its bytes last first. -/
  | atom (pos : Nat) (text : Bytes)
  /-- A string that started at `pos`, its bytes last first, and whether the
  next byte is escaped. -/
  | string (pos : Nat) (inside : Bytes) (escaped : Bool)
deriving Repr, DecidableEq

/-- Read the byte at `pos` between lexemes, with the byte after it in view. -/
def start (pos : Nat) (b : UInt8) (next : Option UInt8) : List Lexeme × Mode :=
  if isBlank b then ([], .between)
  else if b = '('.toUInt8 then ([opening pos], .between)
  else if b = ')'.toUInt8 then ([closing pos], .between)
  else if b = '"'.toUInt8 then ([], .string pos [] false)
  else if b = ';'.toUInt8 then
    if next = some ';'.toUInt8 then ([], .comment) else ([stray pos], .between)
  else ([], .atom pos [b])

/-- Read the byte at `pos`, with the byte after it in view. -/
def step (mode : Mode) (pos : Nat) (b : UInt8) (next : Option UInt8) : List Lexeme × Mode :=
  match mode with
  | .between => start pos b next
  | .comment => ([], if b = '\n'.toUInt8 then .between else .comment)
  | .atom p text =>
    if isDelimiter b then
      let (lexemes, mode) := start pos b next
      (atom p text.reverse :: lexemes, mode)
    else ([], .atom p (b :: text))
  | .string p inside escaped =>
    if escaped then ([], .string p (b :: inside) false)
    else if b = '"'.toUInt8 then ([string p inside.reverse], .between)
    else ([], .string p (b :: inside) (b == '\\'.toUInt8))

/-- What the end of the text makes of the mode it is reached in. -/
def finish : Mode → List Lexeme
  | .between | .comment => []
  | .atom p text => [atom p text.reverse]
  | .string p _ _ => [unterminated p]

/-- The lexemes of a text that starts at `pos`, read from a mode on, after
the lexemes `found`, which are given last first. -/
def scanFrom (found : List Lexeme) : Mode → (pos : Nat) → Bytes → List Lexeme
  | mode, _, [] => found.reverse ++ finish mode
  | mode, pos, b :: rest =>
    let (lexemes, mode) := step mode pos b rest.head?
    scanFrom (lexemes.reverse ++ found) mode (pos + 1) rest

/-- The lexemes of a text that starts at `pos`. -/
def scan (pos : Nat) (text : Bytes) : List Lexeme :=
  scanFrom [] .between pos text

/-- What was found before only stands in front. -/
theorem scanFrom_eq_append (found : List Lexeme) (mode : Mode) (pos : Nat) (text : Bytes) :
    scanFrom found mode pos text = found.reverse ++ scanFrom [] mode pos text := by
  induction text generalizing found mode pos with
  | nil => simp [scanFrom]
  | cons b rest ih =>
    simp only [scanFrom]
    rw [ih, ih (_ ++ [])]
    simp

end Lexeme

end Taglet.Wat
