import Taglet.Bytes

/-!
# Taglet.Text.Decimal

Decimal text of integers: the fewest digits, a minus sign in front of
negative ones, nothing in front of the others.
-/

namespace Taglet.Decimal

/-- The decimal digits of a natural number, most significant first. -/
def ofNat (n : Nat) : Bytes :=
  (Nat.toDigits 10 n).map fun c => c.toNat.toUInt8

/-- The decimal text of an integer. -/
def ofInt : Int → Bytes
  | .ofNat n => ofNat n
  | .negSucc n => 45 :: ofNat (n + 1)

/-- The decimal text of a 64-bit word, read as a signed integer. -/
def ofWord (w : Int64) : Bytes :=
  ofInt w.toInt

end Taglet.Decimal
