import ScriptEngine.Number.Basic
import ScriptEngine.Text.Ascii
/-!
Number literals.

A decimal literal is digits, perhaps a point with digits, perhaps an exponent; it stands for the
nearest double. A hexadecimal literal stands for the double nearest to a 64-bit number.
-/

namespace ScriptEngine.Number

open Text (isDigit digitValue hexValue? ofDigits ofNumeral?)

/-- Doubles lie strictly between these powers of ten, however the digits before them go on. -/
def decimalRange : Int × Int := (-400, 400)

/-- Neither a double nor the middle between two of them has more significant digits. -/
def significantDigits : Nat := 800

/-- Digits, with one in place of all those behind the significant ones. It is zero only if they are, and
then the same doubles lie around the number. -/
def condense (digits : List Char) : List Char :=
  let rest := digits.drop significantDigits
  if rest.isEmpty then digits
  else digits.take significantDigits ++ [if rest.any (· != '0') then '1' else '0']

/-- The double nearest to the number that digits spell, times `10 ^ scale`. Numbers far outside the
range of doubles are settled by their leading exponent, so no power of that size is computed. -/
def ofDecimal (digits : List Char) (scale : Int) : Float :=
  let digits := digits.dropWhile (· == '0')
  let leading := scale + digits.length
  if digits.isEmpty || leading < decimalRange.1 then 0.0
  else if decimalRange.2 < leading then 1.0 / 0.0
  else
    let condensed := condense digits
    let scale := leading - condensed.length
    Float.ofScientific (ofDigits condensed) (scale < 0) scale.natAbs

/-- An exponent that has reached this size grows no more. -/
def exponentCap : Nat := UInt16.size

/-- The size of an exponent. Digits behind one that has reached the cap are left out, so the last one
that counts may go beyond it. -/
def exponentSize (digits : List Char) : Nat :=
  digits.foldl (fun n c => if n < exponentCap then n * 10 + digitValue c else n) 0

/-- The exponent of a literal, from the characters behind its digits. -/
def exponentOf : List Char → Int
  | _ :: '-' :: ds => -(exponentSize ds : Int)
  | _ :: '+' :: ds => exponentSize ds
  | _ :: ds => exponentSize ds
  | [] => 0

/-- The number that a decimal literal stands for. -/
def ofLiteral (cs : List Char) : Number :=
  let whole := cs.takeWhile isDigit
  let rest := cs.drop whole.length
  let fraction := match rest with
    | '.' :: more => more.takeWhile isDigit
    | _ => []
  let tail := match rest with
    | '.' :: more => more.drop fraction.length
    | _ => rest
  ofFloat (ofDecimal (whole ++ fraction) (exponentOf tail - fraction.length))

/-- The number that hexadecimal digits stand for, if they fit 64 bits. -/
def ofHexDigits? (cs : List Char) : Option Number :=
  (ofNumeral? 16 (UInt64.size - 1) (cs.map fun c => (hexValue? c).getD 0)).map ofNat

end ScriptEngine.Number
