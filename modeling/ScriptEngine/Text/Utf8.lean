/-!
Text and the bytes that spell it in UTF-8.

Strings of the engine are byte strings. `decodeLossy` reads any bytes as text: each longest piece
that could begin a character but does not complete one becomes a single replacement character.
-/

namespace ScriptEngine.Text

/-- The bytes of a text. -/
def bytesOf (s : String) : List UInt8 :=
  s.toUTF8.toList

/-- The bytes of a text of ASCII characters. -/
def asciiBytes (s : String) : List UInt8 :=
  s.toList.map fun c => UInt8.ofNat c.toNat

/-- The text made of one byte per character, for bytes known to be ASCII. -/
def ofAscii (bytes : List UInt8) : String :=
  String.ofList (bytes.map fun b => Char.ofNat b.toNat)

namespace Utf8

/-- What stands for bytes that spell no character. -/
def replacement : Char := Char.ofNat 0xFFFD

/-- A continuation byte. -/
def isContinuation (b : UInt8) : Bool :=
  0x80 ≤ b && b ≤ 0xBF

/-- The range of a second byte after the lead byte `lead`, which excludes overlong spellings,
surrogates and numbers past the last code point; `none` when `lead` starts no longer character. -/
def secondRange (lead : UInt8) : Option (UInt8 × UInt8) :=
  if 0xC2 ≤ lead && lead ≤ 0xDF then some (0x80, 0xBF)
  else if lead == 0xE0 then some (0xA0, 0xBF)
  else if lead == 0xED then some (0x80, 0x9F)
  else if 0xE1 ≤ lead && lead ≤ 0xEF then some (0x80, 0xBF)
  else if lead == 0xF0 then some (0x90, 0xBF)
  else if 0xF1 ≤ lead && lead ≤ 0xF3 then some (0x80, 0xBF)
  else if lead == 0xF4 then some (0x80, 0x8F)
  else none

/-- How many continuation bytes follow the second byte. -/
def extraBytes (lead : UInt8) : Nat :=
  if lead < 0xE0 then 0 else if lead < 0xF0 then 1 else 2

/-- The bits of the code point that a lead byte carries. -/
def leadBits (lead : UInt8) : Nat :=
  if lead < 0xE0 then lead.toNat % 32 else if lead < 0xF0 then lead.toNat % 16 else lead.toNat % 8

/-- Reads `count` continuation bytes onto `code`. The second component is what is left; the first
is `none` if a byte was missing, and then the bytes before it are used up. -/
def continuations (code : Nat) : Nat → List UInt8 → Option Nat × List UInt8
  | 0, rest => (some code, rest)
  | _ + 1, [] => (none, [])
  | count + 1, b :: rest =>
    if isContinuation b then continuations (code * 64 + b.toNat % 64) count rest
    else (none, b :: rest)

/-- Reads one character that starts with `lead`: `none` if the bytes spell none, together with what
follows the longest piece that could have begun one. -/
def next (lead : UInt8) (rest : List UInt8) : Option Char × List UInt8 :=
  if lead < 0x80 then
    (some (Char.ofNat lead.toNat), rest)
  else
    match secondRange lead, rest with
    | some (lo, hi), b :: rest' =>
      if lo ≤ b && b ≤ hi then
        let (code, rest'') := continuations (leadBits lead * 64 + b.toNat % 64) (extraBytes lead) rest'
        (code.map Char.ofNat, rest'')
      else
        (none, rest)
    | _, _ => (none, rest)

theorem length_continuations (code count : Nat) (bytes : List UInt8) :
    (continuations code count bytes).2.length ≤ bytes.length := by
  fun_induction continuations code count bytes <;> simp_all
  omega

theorem length_next (lead : UInt8) (rest : List UInt8) : (next lead rest).2.length ≤ rest.length := by
  unfold next
  split
  · simp
  · split
    · rename_i lo hi b rest' _
      split
      · have := length_continuations (leadBits lead * 64 + b.toNat % 64) (extraBytes lead) rest'
        simpa using Nat.le_succ_of_le this
      · simp
    · simp

/-- The characters of the bytes, `none` where no character is spelled. -/
def pieces (bytes : List UInt8) : List (Option Char) :=
  match bytes with
  | [] => []
  | lead :: rest => (next lead rest).1 :: pieces (next lead rest).2
termination_by bytes.length
decreasing_by
  have := length_next lead rest
  simp only [List.length_cons]
  omega

/-- Reads bytes as text, with the replacement character where they spell none. -/
def decodeLossy (bytes : List UInt8) : String :=
  String.ofList ((pieces bytes).map fun c => c.getD replacement)

/-- Reads bytes as text if they are nothing else. -/
def decode? (bytes : List UInt8) : Option String :=
  ((pieces bytes).mapM id).map String.ofList

end Utf8

end ScriptEngine.Text
