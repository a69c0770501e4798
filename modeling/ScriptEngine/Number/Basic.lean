import ScriptEngine.Decimal.Binary
/-!
Numbers of the language: doubles with one NaN.

A number is its bit pattern. Every NaN is the same number, so equality of patterns is equality of
values everywhere a value is compared as a whole; `Number.equals` is the comparison of the
language, for which NaN differs from itself and the two zeros agree. Conversions to integers go
through the exact reading of the pattern.
-/

namespace ScriptEngine

open Decimal

/-- The exponent bits of a double. -/
def exponentMask : UInt64 := 0x7FF0000000000000

/-- The fraction bits of a double. -/
def fractionMask : UInt64 := 0x000FFFFFFFFFFFFF

/-- Whether a bit pattern is one of the NaNs. -/
def isNaNPattern (bits : UInt64) : Bool :=
  bits &&& exponentMask == exponentMask && bits &&& fractionMask != 0

/-- The pattern that stands for every NaN. -/
def nanPattern : UInt64 := 0x7FF8000000000000

/-- A double whose NaN is unique. -/
structure Number where
  bits : UInt64
  canonical : isNaNPattern bits = true → bits = nanPattern
  deriving DecidableEq

namespace Number

/-- The number with a bit pattern, whichever NaN that is. -/
def ofBits (bits : UInt64) : Number :=
  if h : isNaNPattern bits = true then ⟨nanPattern, fun _ => rfl⟩
  else ⟨bits, fun h' => absurd h' h⟩

/-- The number that arithmetic without an answer gives. -/
def nan : Number := ofBits nanPattern

instance : Inhabited Number := ⟨nan⟩

/-- The number a double holds. -/
def ofFloat (x : Float) : Number :=
  ofBits x.toBits

/-- The double that holds the number. -/
def toFloat (n : Number) : Float :=
  Float.ofBits n.bits

/-- The number nearest to an integer. -/
def ofInt (i : Int) : Number :=
  ofFloat (Float.ofInt i)

/-- The number nearest to a natural number. -/
def ofNat (n : Nat) : Number :=
  ofFloat (Float.ofNat n)

/-- Whether the number is the NaN. -/
def isNaN (n : Number) : Bool :=
  n.bits == nanPattern

/-- Comparison of numbers in the language. -/
def equals (a b : Number) : Bool :=
  a.toFloat == b.toFloat

/-- Order of numbers in the language. -/
def less (a b : Number) : Bool :=
  a.toFloat < b.toFloat

/-- Order of numbers in the language, equality included. -/
def lessOrEqual (a b : Number) : Bool :=
  a.toFloat ≤ b.toFloat

/-- What the number's bit pattern stands for. -/
def reading (n : Number) : Reading :=
  double.read n.bits.toNat

/-- The integer that the number is, if it is one. -/
def integer? (n : Number) : Option Int :=
  match n.reading with
  | .finite negative m =>
    if m.isWhole then some (if negative then -(m.whole : Int) else m.whole) else none
  | _ => none

/-- The natural number that the number is, if it is one. -/
def nat? (n : Number) : Option Nat :=
  match n.integer? with
  | some (.ofNat k) => some k
  | _ => none

/-- Least and greatest signed 64-bit integer. -/
def int64Range : Int × Int := (Int64.minValue.toInt, Int64.maxValue.toInt)

/-- The number without its fraction, kept inside the signed 64-bit range; NaN is zero. -/
def clampInt64 (n : Number) : Int :=
  let (least, greatest) := int64Range
  match n.reading with
  | .notANumber => 0
  | .infinite negative => if negative then least else greatest
  | .finite negative m =>
    if negative then max least (-(m.whole : Int)) else min greatest m.whole

/-- The number without its fraction, kept inside the unsigned 64-bit range; NaN is zero. -/
def clampUInt64 (n : Number) : Nat :=
  match n.reading with
  | .finite false m => min (UInt64.size - 1) m.whole
  | .infinite false => UInt64.size - 1
  | _ => 0

/-- The 32-bit pattern nearest to the number. -/
def toSingle (n : Number) : Nat :=
  single.write n.reading

/-- The number that a 32-bit pattern holds. -/
def ofSingle (bits : Nat) : Number :=
  ofBits (UInt64.ofNat (double.write (single.read bits)))

theorem ofBits_bits (n : Number) : ofBits n.bits = n := by
  obtain ⟨bits, canonical⟩ := n
  unfold ofBits
  split
  · rename_i h
    simp only [canonical h]
  · rfl

theorem bits_inj {a b : Number} (h : a.bits = b.bits) : a = b := by
  cases a
  cases b
  cases h
  rfl

end Number

end ScriptEngine
