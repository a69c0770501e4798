/-!
Binary floating-point formats, read and written as integers.

A finite pattern stands for `mantissa * 2 ^ exponent`. Text is written from these two integers
alone, so no rounding happens on the way; `BinaryFormat.nearest` is the one place that rounds, to
the nearest number of a format with ties to the even mantissa.
-/

namespace ScriptEngine.Decimal

/-- The field widths of a binary format. -/
structure BinaryFormat where
  fractionBits : Nat
  exponentBits : Nat

/-- The 64-bit format. -/
def double : BinaryFormat := ⟨52, 11⟩

/-- The 32-bit format. -/
def single : BinaryFormat := ⟨23, 8⟩

/-- The magnitude of a finite number, `mantissa * 2 ^ exponent`. The number below a power of two is
half as far away as the one above it, which `narrowBelow` records. -/
structure Magnitude where
  mantissa : Nat
  exponent : Int
  narrowBelow : Bool
  deriving DecidableEq, Repr

/-- What a bit pattern stands for. -/
inductive Reading where
  | notANumber
  | infinite (negative : Bool)
  | finite (negative : Bool) (size : Magnitude)
  deriving DecidableEq, Repr

/-- The whole part of `base ^ e`, for exponents that are not negative; else one. -/
def overPart (base : Nat) (e : Int) : Nat := Nat.pow base e.toNat

/-- The denominator of `base ^ e`, one for exponents that are not negative. -/
def underPart (base : Nat) (e : Int) : Nat := Nat.pow base (-e).toNat

/-- A quotient rounded to the nearest whole number, a half to the even neighbour. -/
def roundDiv (num den : Nat) : Nat :=
  let quotient := num / den
  let twice := 2 * (num % den)
  if den < twice || (twice == den && quotient % 2 == 1) then quotient + 1 else quotient

namespace Magnitude

/-- The magnitude without its fraction. -/
def whole (m : Magnitude) : Nat :=
  m.mantissa * overPart 2 m.exponent / underPart 2 m.exponent

/-- Whether the magnitude has no fraction. -/
def isWhole (m : Magnitude) : Bool :=
  m.mantissa * overPart 2 m.exponent % underPart 2 m.exponent == 0

end Magnitude

namespace BinaryFormat

/-- The exponent of the smallest positive number. -/
def leastExponent (f : BinaryFormat) : Int :=
  2 - (1 <<< (f.exponentBits - 1) : Nat) - f.fractionBits

/-- The exponent field of infinities and NaNs. -/
def fullField (f : BinaryFormat) : Nat :=
  1 <<< f.exponentBits - 1

/-- Where the sign bit sits. -/
def signBit (f : BinaryFormat) : Nat :=
  f.fractionBits + f.exponentBits

/-- Reads a bit pattern. -/
def read (f : BinaryFormat) (bits : Nat) : Reading :=
  let fraction := bits % (1 <<< f.fractionBits)
  let field := (bits >>> f.fractionBits) % (1 <<< f.exponentBits)
  let negative := bits.testBit f.signBit
  if field == f.fullField then
    if fraction == 0 then .infinite negative else .notANumber
  else if field == 0 then
    .finite negative ⟨fraction, f.leastExponent, false⟩
  else
    .finite negative
      ⟨1 <<< f.fractionBits + fraction, f.leastExponent + (field - 1 : Nat), fraction == 0 && field != 1⟩

/-- The pattern of the number nearest to a magnitude; past the largest number that is infinity. The
exponent field and the fraction are added, so a mantissa that rounds up to the next power of two
carries into the exponent by itself. -/
def nearest (f : BinaryFormat) (m : Magnitude) : Nat :=
  let shift := max f.leastExponent (m.exponent + Nat.log2 m.mantissa - f.fractionBits)
  let rounded := roundDiv (m.mantissa * overPart 2 (m.exponent - shift))
    (underPart 2 (m.exponent - shift))
  let pattern :=
    if rounded < 1 <<< f.fractionBits then rounded
    else (shift - f.leastExponent).toNat <<< f.fractionBits + rounded
  min pattern (f.fullField <<< f.fractionBits)

/-- The pattern of the number nearest to what another pattern stands for. -/
def write (f : BinaryFormat) : Reading → Nat
  | .notANumber => f.fullField <<< f.fractionBits + 1 <<< (f.fractionBits - 1)
  | .infinite negative => (if negative then 1 <<< f.signBit else 0) + f.fullField <<< f.fractionBits
  | .finite negative m => (if negative then 1 <<< f.signBit else 0) + f.nearest m

end BinaryFormat

end ScriptEngine.Decimal
