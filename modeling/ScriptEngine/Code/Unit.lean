import ScriptEngine.Code.Instr
import ScriptEngine.Error
import ScriptEngine.Text.Utf8
/-!
Units of compiled code, and the address space they form.

A unit describes itself: a header byte, three little-endian words (size of the unit, offset of the
code, offset of the line table), the file name with a closing zero, the code, and the line table.
The table is a byte count followed by pairs of an offset difference and a line, the first offset
counted from the start of the code. Committed units lie end to end; an offset into that space names
an instruction for good.
-/

namespace ScriptEngine.Code

/-- From `offset` on, up to the next entry, code belongs to `line`. -/
structure LineEntry where
  offset : Nat
  line : Nat
  deriving DecidableEq, Repr

/-- Size of the header without the file name. -/
def headerSize : Nat := 13

namespace Header

/-- A word as four bytes, lowest first. -/
def wordBytes (n : Nat) : List UInt8 :=
  (List.range 4).map fun i => UInt8.ofNat (n >>> (8 * i))

/-- The `i`th word of a header. -/
def word? (unit : Array UInt8) (i : Nat) : Option Nat :=
  let at_ := 1 + 4 * i
  if at_ + 4 ≤ unit.size then some (Instr.wordOf (unit.extract at_ (at_ + 4)).toList) else none

end Header

/-- Where the parts of a unit are. -/
structure Header where
  total : Nat
  codeStart : Nat
  mapStart : Nat
  deriving DecidableEq, Repr

/-- Reads the header of a unit. The size has to agree and the parts have to lie in order. -/
def Header.read? (unit : Array UInt8) : Option Header := do
  guard (unit[0]? = some Op.header.toByte)
  let total ← word? unit 0
  let codeStart ← word? unit 1
  let mapStart ← word? unit 2
  guard (total = unit.size ∧ headerSize < codeStart ∧ codeStart ≤ mapStart ∧ mapStart ≤ total)
  return ⟨total, codeStart, mapStart⟩

namespace LineTable

/-- The pairs of a table, from a previous offset on. -/
def encodeFrom (previous : Nat) : List LineEntry → List UInt8
  | [] => []
  | e :: rest =>
    Varint.encode (e.offset - previous) ++ Varint.encode e.line ++ encodeFrom e.offset rest

/-- A table with its byte count in front. -/
def encode (lines : List LineEntry) : List UInt8 :=
  let pairs := encodeFrom 0 lines
  Varint.encode pairs.length ++ pairs

/-- Reads pairs to the end of the bytes. A pair takes at least two bytes, so `limit` pairs are
enough when there are no more bytes than that. -/
def decodePairs (offset : Nat) (bytes : List UInt8) : Nat → Option (List LineEntry)
  | 0 => if bytes.isEmpty then some [] else none
  | limit + 1 =>
    if bytes.isEmpty then some []
    else do
      let (delta, used) ← Varint.decode bytes
      let (line, used') ← Varint.decode (bytes.drop used)
      guard (line < UInt32.size)
      let rest ← decodePairs (offset + delta) (bytes.drop (used + used')) limit
      return ⟨offset + delta, line⟩ :: rest

/-- Reads a table; offsets start at `codeStart`. -/
def decode? (bytes : List UInt8) (codeStart : Nat) : Option (List LineEntry) := do
  let (length, used) ← Varint.decode bytes
  let pairs := bytes.drop used
  guard (length ≤ pairs.length)
  decodePairs codeStart (pairs.take length) length

/-- The line of an offset: that of the last entry at or before it, the first line without one. -/
def lineAt (lines : List LineEntry) (offset : Nat) : Nat :=
  match lines.reverse.find? (fun e => e.offset ≤ offset) with
  | some e => e.line
  | none => 1

end LineTable

/-- Wraps code in a unit. The code ends with an exit instruction. -/
def assemble (filename : String) (code : List UInt8) (lines : List LineEntry) :
    Except Error (Array UInt8) :=
  let map := LineTable.encode lines
  let name := Text.bytesOf (String.ofList (filename.toList.filter fun c => c != Char.ofNat 0))
  let codeStart := headerSize + name.length + 1
  let mapStart := codeStart + code.length
  let total := mapStart + map.length
  if total < UInt32.size then
    .ok (Op.header.toByte :: Header.wordBytes total ++ Header.wordBytes codeStart
      ++ Header.wordBytes mapStart ++ name ++ 0 :: code ++ map).toArray
  else
    .error (.internal "bytecode unit is too large")

/-- A committed unit. -/
structure Part where
  /-- Offset of its first byte in the address space. -/
  start : Nat
  data : Array UInt8
  filename : String
  /-- Offset of the first instruction, from the start of the unit. -/
  codeStart : Nat
  /-- Offsets are counted from the start of the unit. -/
  lines : List LineEntry
  /-- Whether the last run of the top-level code succeeded, if there was one. -/
  lastRun : Option Bool

namespace Part

/-- The offset after its last byte. -/
def stop (p : Part) : Nat :=
  p.start + p.data.size

/-- Whether the part covers an offset. -/
def covers (p : Part) (offset : Nat) : Bool :=
  p.start ≤ offset && offset < p.stop

/-- Reads a unit as a part that starts at an offset. -/
def ofUnit? (data : Array UInt8) (start : Nat) : Option Part := do
  let header ← Header.read? data
  let name := (data.extract headerSize (header.codeStart - 1)).toList
  guard (data[header.codeStart - 1]? = some 0 ∧ 0 ∉ name)
  let lines ← LineTable.decode? (data.extract header.mapStart data.size).toList header.codeStart
  return ⟨start, data, Text.Utf8.decodeLossy name, header.codeStart, lines, none⟩

end Part

/-- All committed units, in order of commitment. -/
structure Program where
  parts : Array Part
  size : Nat

namespace Program

def empty : Program := ⟨#[], 0⟩

/-- Appends a unit: the program with it, and the index of the new part. -/
def commit (p : Program) (unit : Array UInt8) : Except Error (Program × Nat) :=
  match Part.ofUnit? unit p.size with
  | some part => .ok (⟨p.parts.push part, p.size + unit.size⟩, p.parts.size)
  | none => .error (.internal "malformed bytecode header")

/-- The part that covers an offset. -/
def partAt? (p : Program) (offset : Nat) : Option Part :=
  p.parts.find? fun part => part.covers offset

/-- The line of an offset. -/
def lineFor? (p : Program) (offset : Nat) : Option Nat :=
  (p.partAt? offset).map fun part => LineTable.lineAt part.lines (offset - part.start)

/-- The file of an offset. -/
def filenameFor? (p : Program) (offset : Nat) : Option String :=
  (p.partAt? offset).map fun part => part.filename

/-- The latest part compiled from a file. -/
def findByFilename? (p : Program) (filename : String) : Option Nat :=
  (List.range p.parts.size).reverse.find? fun i => (p.parts[i]?.map Part.filename) = some filename

/-- Notes how the top-level code of a part fared. -/
def recordRun (p : Program) (index : Nat) (succeeded : Bool) : Program :=
  { p with parts := p.parts.modify index fun part => { part with lastRun := some succeeded } }

end Program

end ScriptEngine.Code
