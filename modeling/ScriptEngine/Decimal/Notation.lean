import ScriptEngine.Decimal.Shortest
/-!
Decimal notation: digits and a scale written as text.

A `Style` holds the choices a written form makes; the styles in use are the values below it.
-/

namespace ScriptEngine.Decimal

/-- The decimal digits of a number, most significant first. -/
def digitChars (n : Nat) : List Char :=
  Nat.toDigits 10 n

/-- Positional notation: zeros up to the point, and digits past it only where the scale asks. -/
def positional (d : Digits) : List Char :=
  let ds := digitChars d.digits
  if 0 ≤ d.scale then
    ds ++ List.replicate d.scale.toNat '0'
  else
    let places := (-d.scale).toNat
    let padded := List.replicate (places + 1 - ds.length) '0' ++ ds
    padded.take (padded.length - places) ++ '.' :: padded.drop (padded.length - places)

/-- The exponent of the leading digit. -/
def Digits.leadingExponent (d : Digits) : Int :=
  d.scale + ((digitChars d.digits).length : Int) - 1

/-- Exponent notation: one digit, the others past a point, and the exponent. -/
def scientific (d : Digits) (plus : Bool) : List Char :=
  let e := d.leadingExponent
  let mantissa := match digitChars d.digits with
    | c :: c' :: rest => c :: '.' :: c' :: rest
    | short => short
  let sign := if e < 0 then ['-'] else if plus then ['+'] else []
  mantissa ++ 'e' :: sign ++ digitChars e.natAbs

/-- How shortest digits are laid out. -/
structure Style where
  /-- Smallest and first too large leading exponent of positional notation, if it has limits. -/
  positionalRange : Option (Int × Int)
  /-- A whole number keeps `.0`. -/
  keepPoint : Bool
  /-- A positive exponent has its sign. -/
  plusSign : Bool
  infinity : String

/-- Digits in full, never an exponent. -/
def Style.plain : Style := ⟨none, false, false, "inf"⟩

/-- Digits with a point, and an exponent for very large and very small numbers. -/
def Style.inspect : Style := ⟨some (-4, 16), true, false, "inf"⟩

/-- Always an exponent, with its sign. -/
def Style.exponent : Style := ⟨some (0, 0), false, true, "Infinity"⟩

/-- Lays out the shortest digits of a magnitude. -/
def Style.magnitude (s : Style) (m : Magnitude) : List Char :=
  let d := m.shortest
  let e := d.leadingExponent
  let inRange := match s.positionalRange with
    | none => true
    | some (least, tooLarge) => d.digits == 0 || (least ≤ e && e < tooLarge)
  if inRange then
    let cs := positional d
    if s.keepPoint && !cs.contains '.' then cs ++ ['.', '0'] else cs
  else scientific d s.plusSign

/-- Writes what a bit pattern stands for. -/
def Style.write (s : Style) : Reading → String
  | .notANumber => "NaN"
  | .infinite negative => (if negative then "-" else "") ++ s.infinity
  | .finite negative m => String.ofList ((if negative then ['-'] else []) ++ s.magnitude m)

/-- A magnitude with a fixed number of places. -/
def fixedPlaces (m : Magnitude) (places : Nat) : List Char :=
  positional ⟨m.roundTo places, -(places : Int)⟩

end ScriptEngine.Decimal
