import Taglet.Text.Decimal

/-!
# Taglet.Tagged

Values of a running program are 64-bit words with the type in the low bits:

* `None` is `0`, `False` is `2`, `True` is `4`;
* an integer `n` is `2 * n + 1`.

Integers are the odd words.  The encoding is strictly monotonic on the
integers in range, so they are ordered and compared as words.
-/

namespace Taglet

/-- A machine word. -/
abbrev Word := Int64

namespace Tagged

/-- The word of `None`. -/
def none : Word := 0

/-- The word of a truth value. -/
def ofBool (b : Bool) : Word :=
  if b then 4 else 2

/-- The word of an integer; the top bit is lost. -/
def encode (n : Int64) : Word :=
  n <<< 1 ||| 1

/-- The integer of an odd word. -/
def decode (w : Word) : Int64 :=
  w >>> 1

/-- The least integer that has a word of its own. -/
def minInt : Int64 := -4611686018427387904

/-- The greatest integer that has a word of its own. -/
def maxInt : Int64 := 4611686018427387903

/-- Is the integer between `minInt` and `maxInt`? -/
def inRange (n : Int64) : Bool :=
  minInt ≤ n && n ≤ maxInt

/-- Is the word an integer? -/
def isInt (w : Word) : Bool :=
  w &&& 1 == 1

/-- Is the word a truth value? -/
def isBool (w : Word) : Bool :=
  w == ofBool true || w == ofBool false

/-- A word as it is printed. -/
def text (w : Word) : Bytes :=
  if isInt w then Decimal.ofWord (decode w)
  else if w = none then utf8 "None"
  else if w = ofBool true then utf8 "True"
  else if w = ofBool false then utf8 "False"
  else utf8 "<invalid " ++ Decimal.ofWord w ++ utf8 ">"

end Tagged

end Taglet
