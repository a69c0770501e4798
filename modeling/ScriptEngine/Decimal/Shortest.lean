import ScriptEngine.Decimal.Binary
/-!
The fewest decimal digits that read back as a given binary number.

The reals that round to a number form an interval around it, with its ends if the mantissa is even.
For one digit, two digits and so on, the two neighbours of the number on that decimal grid are
tested against the interval; the first grid with a hit wins, of two hits the nearer, and the upper
one of an exact tie. Everything is exact integer arithmetic.
-/

namespace ScriptEngine.Decimal

/-- Digits and a scale: `digits * 10 ^ scale`. -/
structure Digits where
  digits : Nat
  scale : Int
  deriving DecidableEq, Repr

/-- Moves trailing zeros of the digits into the scale, at most `limit` of them. -/
def Digits.stripZeros (d : Digits) : Nat → Digits
  | 0 => d
  | limit + 1 =>
    if d.digits % 10 == 0 && d.digits != 0 then
      Digits.stripZeros ⟨d.digits / 10, d.scale + 1⟩ limit
    else d

/-- Whether `10 ^ e` is at most the magnitude. -/
def Magnitude.atLeastPower (m : Magnitude) (e : Int) : Bool :=
  overPart 10 e * underPart 2 m.exponent ≤ m.mantissa * overPart 2 m.exponent * underPart 10 e

/-- The exponent of the leading decimal digit of a positive magnitude. The estimate from the binary
exponent is off by at most one either way. -/
def Magnitude.leadingExponent (m : Magnitude) : Int :=
  let estimate := Int.fdiv ((Nat.log2 m.mantissa + m.exponent) * 30103) 100000
  if m.atLeastPower (estimate + 1) then estimate + 1
  else if m.atLeastPower estimate then estimate
  else estimate - 1

/-- The neighbour of `m` on the grid of multiples of `10 ^ scale` that rounds to `m`, the nearer of
two, the upper one of a tie. -/
def Magnitude.onGrid? (m : Magnitude) (scale : Int) : Option Digits :=
  let up := overPart 2 (m.exponent - 2) * underPart 10 scale
  let unit := underPart 2 (m.exponent - 2) * overPart 10 scale
  let value := 4 * m.mantissa * up
  let low := (4 * m.mantissa - (if m.narrowBelow then 1 else 2)) * up
  let high := (4 * m.mantissa + 2) * up
  let closed := m.mantissa % 2 == 0
  let below := value / unit
  let above := below + 1
  let belowIn := low < below * unit || (closed && low == below * unit)
  let aboveIn := above * unit < high || (closed && above * unit == high)
  if belowIn && aboveIn then
    if above * unit - value ≤ value - below * unit then some ⟨above, scale⟩
    else some ⟨below, scale⟩
  else if belowIn then some ⟨below, scale⟩
  else if aboveIn then some ⟨above, scale⟩
  else none

/-- Tries grids from `scale` downward, one more digit each time. -/
def Magnitude.shortestFrom (m : Magnitude) (scale : Int) : Nat → Digits
  | 0 => ⟨0, 0⟩
  | tries + 1 =>
    match m.onGrid? scale with
    | some d => d.stripZeros 20
    | none => m.shortestFrom (scale - 1) tries

/-- The fewest digits that read back as `m`; seventeen always do for the formats in use. -/
def Magnitude.shortest (m : Magnitude) : Digits :=
  if m.mantissa == 0 then ⟨0, 0⟩ else m.shortestFrom m.leadingExponent 20

/-- The nearest multiple of `10 ^ -places`, as a count of such units; a half goes to the even
neighbour. -/
def Magnitude.roundTo (m : Magnitude) (places : Nat) : Nat :=
  roundDiv (m.mantissa * overPart 2 m.exponent * overPart 10 places) (underPart 2 m.exponent)

end ScriptEngine.Decimal
