import ScriptEngine.Code.Op
import ScriptEngine.Number.Basic
/-!
Arithmetic of numbers.

An operation on the NaN gives the NaN. Remainders, shifts and bitwise operations work on the operands
without their fractions, as signed 64-bit integers; a shift to the right without the sign works on
their low 32 bits.
-/

namespace ScriptEngine.Number

open Code (Operator)

/-- The number with the other sign. -/
def neg (n : Number) : Number :=
  ofFloat (-n.toFloat)

/-- The number without its sign. -/
def abs (n : Number) : Number :=
  ofBits (n.bits &&& 0x7FFFFFFFFFFFFFFF)

/-- The number without its fraction as a signed 64-bit integer. -/
def toInt64 (n : Number) : Int64 :=
  Int64.ofInt n.clampInt64

/-- The number that a signed 64-bit integer is nearest to. -/
def ofInt64 (i : Int64) : Number :=
  ofInt i.toInt

/-- Whether the number is smaller than zero. -/
def isNegative (n : Number) : Bool :=
  n.less (ofNat 0)

/-- The quotient; division by zero has no answer. -/
def div (a b : Number) : Number :=
  if b.equals (ofNat 0) then nan else ofFloat (a.toFloat / b.toFloat)

/-- The remainder of the whole parts, with the sign of the dividend. A divisor without a whole part has
no answer. -/
def rem (a b : Number) : Number :=
  let divisor := b.abs.clampInt64
  if divisor = 0 then nan
  else
    let r := ofInt (a.abs.clampInt64 % divisor)
    if a.isNegative then r.neg else r

/-- A shift to the right that fills with zeros, of the low 32 bits. -/
def shiftRightUnsigned (a b : Number) : Number :=
  ofNat (a.toInt64.toUInt64.toUInt32 >>> b.toInt64.toUInt64.toUInt32).toNat

/-- The answer of a binary operator, the NaN for an operator that is none of arithmetic. -/
def binary (op : Operator) (a b : Number) : Number :=
  if a.isNaN || b.isNaN then nan
  else
    match op with
    | .add => ofFloat (a.toFloat + b.toFloat)
    | .sub => ofFloat (a.toFloat - b.toFloat)
    | .mul => ofFloat (a.toFloat * b.toFloat)
    | .div => div a b
    | .rem => rem a b
    | .bitAnd => ofInt64 (a.toInt64 &&& b.toInt64)
    | .bitOr => ofInt64 (a.toInt64 ||| b.toInt64)
    | .bitXor => ofInt64 (a.toInt64 ^^^ b.toInt64)
    | .shl => ofInt64 (a.toInt64 <<< b.toInt64)
    | .shr => ofInt64 (a.toInt64 >>> b.toInt64)
    | .ushr => shiftRightUnsigned a b
    | _ => nan

/-- Every bit of the integer turned over. -/
def bitNot (n : Number) : Number :=
  ofInt64 (~~~n.toInt64)

end ScriptEngine.Number
