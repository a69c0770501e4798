import ScriptEngine.Decimal.Notation
import ScriptEngine.Number.Basic
/-!
The text of a number.

Whole numbers below 2⁵³ are written in full, larger ones with their shortest digits and a signed
exponent, and everything else with six decimal places.
-/

namespace ScriptEngine.Number

open Decimal

/-- From here on numbers are written with an exponent. -/
def exponentFrom : Nat := 1 <<< 53

/-- The text of a number as the language shows it. Zero has no sign. -/
def text (n : Number) : String :=
  match n.reading with
  | .finite negative m =>
    if exponentFrom ≤ m.whole then
      Style.exponent.write (.finite negative m)
    else if m.isWhole then
      (if negative && m.whole != 0 then "-" else "") ++ String.ofList (digitChars m.whole)
    else
      (if negative then "-" else "") ++ String.ofList (fixedPlaces m 6)
  | special => Style.exponent.write special

/-- The digits of a number in full, as listings show it. -/
def plainText (n : Number) : String :=
  Style.plain.write n.reading

end ScriptEngine.Number
