import ScriptEngine.Text.Utf8
/-!
Backslash escapes in string literals.

Everything that is not an escape stays as it is, a backslash in front of it included.
-/

namespace ScriptEngine.Source

/-- The value of a hexadecimal digit. -/
def hexValue? (b : UInt8) : Option Nat :=
  if 0x30 ≤ b && b ≤ 0x39 then some (b.toNat - 0x30)
  else if 0x61 ≤ b && b ≤ 0x66 then some (b.toNat - 0x57)
  else if 0x41 ≤ b && b ≤ 0x46 then some (b.toNat - 0x37)
  else none

/-- The number that hexadecimal digits spell. -/
def hexDigitsValue? (bytes : List UInt8) : Option Nat :=
  bytes.foldlM (fun n b => (hexValue? b).map fun d => n * 16 + d) 0

/-- A hexadecimal number, with a plus sign in front if there is a digit behind it. -/
def hexNumber? : List UInt8 → Option Nat
  | [] => none
  | 0x2B :: d :: rest => hexDigitsValue? (d :: rest)
  | bytes => hexDigitsValue? bytes

/-- The number that the first `count` bytes spell, if there are that many. -/
def hexAhead? (count : Nat) (bytes : List UInt8) : Option Nat :=
  if count ≤ bytes.length then hexNumber? (bytes.take count) else none

/-- The byte that a one-letter escape stands for. -/
def simpleEscape? (b : UInt8) : Option UInt8 :=
  if b == 0x6E then some 0x0A
  else if b == 0x74 then some 0x09
  else if b == 0x72 then some 0x0D
  else if b == 0x62 then some 0x08
  else if b == 0x66 then some 0x0C
  else if b == 0x76 then some 0x0B
  else if b == 0x30 then some 0x00
  else if b == 0x5C || b == 0x27 || b == 0x22 then some b
  else none

/-- The character with a code, if there is one. -/
def charOf? (code : Nat) : Option Char :=
  if h : code.isValidChar then some (Char.ofNatAux code h) else none

/-- The escape whose letter is `b`: the bytes it stands for and how many bytes behind the letter it
takes. Without an escape the backslash and the letter stand for themselves. -/
def escape (b : UInt8) (rest : List UInt8) : List UInt8 × Nat :=
  if b == 0x78 then
    match hexAhead? 2 rest with
    | some v => ([UInt8.ofNat v], 2)
    | none => ([0x5C, b], 0)
  else if b == 0x75 then
    match (hexAhead? 4 rest).bind charOf? with
    | some c => (Text.bytesOf (String.singleton c), 4)
    | none => ([0x5C, b], 0)
  else
    match simpleEscape? b with
    | some v => ([v], 0)
    | none => ([0x5C, b], 0)

/-- Decodes the escapes of the body of a string literal. -/
def unescape : List UInt8 → List UInt8
  | [] => []
  | [b] => [b]
  | 0x5C :: b :: rest =>
    let (bytes, taken) := escape b rest
    bytes ++ unescape (rest.drop taken)
  | b :: rest => b :: unescape rest
termination_by bytes => bytes.length

end ScriptEngine.Source
