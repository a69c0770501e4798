import ScriptEngine.Number.Literal
import ScriptEngine.Text.Ascii
/-!
JSON texts.

Objects keep their entries in order, and numbers keep their digits, so nothing is rounded before its
reader asks for a double. Strings keep whether they are text at all: an escape can spell half of a pair,
which is no character. Such a string has its place in a value, but nothing can be read from it.
-/

namespace ScriptEngine

/-- A number as it is written: what the digits spell, times `10 ^ scale`, and whether it is written as an
integer. -/
structure JsonNumber where
  negative : Bool
  digits : List Char
  scale : Int
  integral : Bool
  deriving DecidableEq, Repr

/-- The text of a string; none if its escapes spell half of a pair. -/
abbrev JsonText := Option String

/-- A JSON value. -/
inductive Json where
  | null
  | boolean (b : Bool)
  | number (n : JsonNumber)
  | text (s : JsonText)
  | array (items : List Json)
  | object (entries : List (JsonText × Json))

namespace JsonNumber

/-- The nearest double. -/
def toNumber (n : JsonNumber) : Number :=
  let size := Number.ofDecimal n.digits n.scale
  .ofFloat (if n.negative then -size else size)

/-- The natural number, if it is written as one and is at most `limit`. -/
def toNat? (n : JsonNumber) (limit : Nat) : Option Nat :=
  if n.integral && !n.negative then Text.ofDigits? limit n.digits else none

end JsonNumber

namespace Json

open Text (isDigit hexValue? ofDigits)

/-- The value under a key. -/
def field? (j : Json) (key : String) : Option Json :=
  match j with
  | object entries => (entries.find? fun e => e.1 == some key).map Prod.snd
  | _ => none

/-- White space between tokens. -/
def isSpace (c : Char) : Bool :=
  c == ' ' || c == '\t' || c == '\n' || c == '\r'

/-- What follows white space. -/
def skipSpace (cs : List Char) : List Char :=
  cs.dropWhile isSpace

/-- Four hexadecimal digits and what follows them. -/
def hex4? : List Char → Option (Nat × List Char)
  | a :: b :: c :: d :: rest => do
    let a ← hexValue? a
    let b ← hexValue? b
    let c ← hexValue? c
    let d ← hexValue? d
    return (((a * 16 + b) * 16 + c) * 16 + d, rest)
  | _ => none

/-- Whether a unit is the first half of a pair. -/
def isHighHalf (unit : Nat) : Bool :=
  0xD800 ≤ unit && unit < 0xDC00

/-- Whether a unit is the second half of a pair. -/
def isLowHalf (unit : Nat) : Bool :=
  0xDC00 ≤ unit && unit < 0xE000

/-- The second half of a pair, written as an escape of its own. -/
def lowEscape? : List Char → Option (Nat × List Char)
  | '\\' :: 'u' :: rest => do
    let (low, rest) ← hex4? rest
    guard (isLowHalf low)
    return (low, rest)
  | _ => none

/-- The character of a numeric escape, which is one unit, or two that make a pair. Half of a pair is
no character. -/
def unicodeEscape? (cs : List Char) : Option (Option Char × List Char) := do
  let (unit, rest) ← hex4? cs
  if isHighHalf unit then
    match lowEscape? rest with
    | some (low, rest) =>
      return (some (Char.ofNat (0x10000 + (unit - 0xD800) * 0x400 + (low - 0xDC00))), rest)
    | none => return (none, rest)
  else if isLowHalf unit then return (none, rest)
  else return (some (Char.ofNat unit), rest)

/-- The character of a one-letter escape. -/
def letterEscape? : Char → Option Char
  | '"' => some '"'
  | '\\' => some '\\'
  | '/' => some '/'
  | 'b' => some '\x08'
  | 'f' => some '\x0c'
  | 'n' => some '\n'
  | 'r' => some '\r'
  | 't' => some '\t'
  | _ => none

/-- The rest of a string behind its opening quote, in reverse, and what follows the closing one; no
characters if one is none. Every character of it takes at least one of the text. -/
def stringBody (done : Option (List Char)) (cs : List Char) :
    Nat → Option (Option (List Char) × List Char)
  | 0 => none
  | limit + 1 =>
    match cs with
    | '"' :: rest => some (done, rest)
    | '\\' :: 'u' :: rest =>
      match unicodeEscape? rest with
      | some (some c, rest) => stringBody (done.map (c :: ·)) rest limit
      | some (none, rest) => stringBody none rest limit
      | none => none
    | '\\' :: letter :: rest =>
      match letterEscape? letter with
      | some c => stringBody (done.map (c :: ·)) rest limit
      | none => none
    | c :: rest =>
      if c.toNat < 0x20 then none else stringBody (done.map (c :: ·)) rest limit
    | [] => none

/-- A string behind its opening quote. -/
def string? (cs : List Char) : Option (JsonText × List Char) :=
  (stringBody (some []) cs (cs.length + 1)).map fun (body, rest) =>
    (body.map fun chars => String.ofList chars.reverse, rest)

/-- The exponent of a number, zero if there is none. -/
def exponent? : List Char → Option (Int × Bool × List Char)
  | e :: rest =>
    if e == 'e' || e == 'E' then
      let (negative, rest) := match rest with
        | '-' :: rest => (true, rest)
        | '+' :: rest => (false, rest)
        | _ => (false, rest)
      let ds := rest.takeWhile isDigit
      if ds.isEmpty then none
      else
        let n : Int := ofDigits ds
        some (if negative then -n else n, true, rest.drop ds.length)
    else some (0, false, e :: rest)
  | [] => some (0, false, [])

/-- The fraction of a number, empty if there is none. -/
def fraction? : List Char → Option (List Char × List Char)
  | '.' :: rest =>
    let ds := rest.takeWhile isDigit
    if ds.isEmpty then none else some (ds, rest.drop ds.length)
  | rest => some ([], rest)

/-- A number. -/
def number? (cs : List Char) : Option (JsonNumber × List Char) := do
  let (negative, cs) := match cs with
    | '-' :: rest => (true, rest)
    | _ => (false, cs)
  let whole := cs.takeWhile isDigit
  guard (!whole.isEmpty && (whole.head? != some '0' || whole.length == 1))
  let (fraction, cs) ← fraction? (cs.drop whole.length)
  let (exponent, hasExponent, cs) ← exponent? cs
  return (⟨negative, whole ++ fraction, exponent - fraction.length,
    fraction.isEmpty && !hasExponent⟩, cs)

/-- What follows a word at the start of the text. -/
def afterWord? (word : String) (cs : List Char) : Option (List Char) :=
  if word.toList.isPrefixOf cs then some (cs.drop word.length) else none

mutual

/-- A value, and what follows it. -/
def value? (cs : List Char) : Nat → Option (Json × List Char)
  | 0 => none
  | limit + 1 =>
    match skipSpace cs with
    | '"' :: rest => (string? rest).map fun (s, rest) => (text s, rest)
    | '[' :: rest => do
      let rest := skipSpace rest
      match rest with
      | ']' :: rest => return (array [], rest)
      | _ => do
        let (items, rest) ← items? rest limit
        return (array items, rest)
    | '\x7b' :: rest => do
      let rest := skipSpace rest
      match rest with
      | '\x7d' :: rest => return (object [], rest)
      | _ => do
        let (entries, rest) ← entries? rest limit
        return (object entries, rest)
    | cs =>
      ((afterWord? "null" cs).map fun rest => (null, rest))
        <|> ((afterWord? "true" cs).map fun rest => (boolean true, rest))
        <|> ((afterWord? "false" cs).map fun rest => (boolean false, rest))
        <|> ((number? cs).map fun (n, rest) => (number n, rest))
termination_by structural limit => limit

/-- The items of an array up to its closing bracket, and what follows it. -/
def items? (cs : List Char) : Nat → Option (List Json × List Char)
  | 0 => none
  | limit + 1 => do
    let (first, rest) ← value? cs limit
    match skipSpace rest with
    | ',' :: rest => do
      let (items, rest) ← items? rest limit
      return (first :: items, rest)
    | ']' :: rest => return ([first], rest)
    | _ => none
termination_by structural limit => limit

/-- The entries of an object up to its closing brace, and what follows it. -/
def entries? (cs : List Char) : Nat → Option (List (JsonText × Json) × List Char)
  | 0 => none
  | limit + 1 =>
    match skipSpace cs with
    | '"' :: rest => do
      let (key, rest) ← string? rest
      match skipSpace rest with
      | ':' :: rest => do
        let (first, rest) ← value? rest limit
        match skipSpace rest with
        | ',' :: rest => do
          let (entries, rest) ← entries? rest limit
          return ((key, first) :: entries, rest)
        | '\x7d' :: rest => return ([(key, first)], rest)
        | _ => none
      | _ => none
    | _ => none
termination_by structural limit => limit

end

/-- Reads a text that is one value. -/
def parse? (s : String) : Option Json := do
  let cs := s.toList
  let (j, rest) ← value? cs (2 * cs.length + 2)
  guard (skipSpace rest).isEmpty
  return j

end Json

end ScriptEngine
