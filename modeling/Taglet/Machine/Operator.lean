import Taglet.Wat.Module

/-!
# Taglet.Machine.Operator

What the operators of a module compute.  Arithmetic wraps, division truncates
toward zero and shift distances are taken modulo 64.
-/

namespace Taglet.Machine

/-- Why an operator has no result. -/
inductive OperatorError where
  | divByZero
  | overflow
  | unknownUnary (name : Bytes)
  | unknownBinary (name : Bytes)
deriving Repr, DecidableEq

/-- The wording of an operator's failure. -/
def OperatorError.message : OperatorError → Bytes
  | divByZero => utf8 "integer divide by zero"
  | overflow => utf8 "integer overflow"
  | unknownUnary name => utf8 "unsupported unary op " ++ name
  | unknownBinary name => utf8 "unsupported binary op " ++ name

/-- The word of a comparison. -/
def wordOfBool (b : Bool) : Word :=
  if b then 1 else 0

/-- The result of an operator of one word. -/
def applyUnary (op : Wat.UnaryOp) (x : Word) : Except OperatorError Word :=
  match op with
  | .eqz => .ok (wordOfBool (x == 0))
  | .extendU => .ok (x.toUInt64 % 4294967296).toInt64
  | .extendS => .ok x.toInt32.toInt64
  | .unknown name => .error (.unknownUnary name)

/-- The result of an operator of two words. -/
def applyBinary (op : Wat.BinaryOp) (l r : Word) : Except OperatorError Word :=
  match op with
  | .add => .ok (l + r)
  | .sub => .ok (l - r)
  | .mul => .ok (l * r)
  | .divS =>
    if r = 0 then .error .divByZero
    else if l = Int64.minValue ∧ r = -1 then .error .overflow
    else .ok (l / r)
  | .remS =>
    if r = 0 then .error .divByZero
    else if r = -1 then .ok 0
    else .ok (l % r)
  | .and => .ok (l &&& r)
  | .or => .ok (l ||| r)
  | .xor => .ok (l ^^^ r)
  | .shl => .ok (l <<< (r &&& 63))
  | .shrS => .ok (l >>> (r &&& 63))
  | .shrU => .ok (l.toUInt64 >>> (r.toUInt64 &&& 63)).toInt64
  | .eq => .ok (wordOfBool (l == r))
  | .ne => .ok (wordOfBool (l != r))
  | .ltS => .ok (wordOfBool (l < r))
  | .gtS => .ok (wordOfBool (l > r))
  | .leS => .ok (wordOfBool (l ≤ r))
  | .geS => .ok (wordOfBool (l ≥ r))
  | .unknown name => .error (.unknownBinary name)

end Taglet.Machine
