import ScriptEngine.Code.Unit
import ScriptEngine.Number.Text
import ScriptEngine.Value
/-!
Listings of units: one line per instruction, with the offset it stands at.

Any bytes can be listed. A malformed header ends the listing at once, an unknown operation code takes
a line of its own, and a cut-off instruction is the last one. Offsets are machine words; a target
past the last of them cannot be listed.
-/

namespace ScriptEngine.Code.Listing

/-- A byte of a quoted string. -/
def quoteByte (b : UInt8) : List Char :=
  if b == 0x22 then ['\\', '"']
  else if b == 0x5C then ['\\', '\\']
  else if b == 0x0A then ['\\', 'n']
  else if 0x20 ≤ b && b ≤ 0x7E then [Char.ofNat b.toNat]
  else '\\' :: 'x' :: (hexDigits b.toNat 2).toList

/-- Text between quotes. -/
def quote (bytes : List UInt8) : String :=
  String.ofList ('"' :: bytes.flatMap quoteByte ++ ['"'])

/-- A sum that is still an offset. -/
def offset? (n : Nat) : Option Nat :=
  if n < UInt64.size then some n else none

/-- What follows the name of an instruction on its line. -/
inductive Rest where
  /-- The operands as text. -/
  | operands (text : String)
  /-- The text before an operand that is cut off. -/
  | cutOff (text : String)
  /-- A target that is no offset. -/
  | overflow
  deriving DecidableEq, Repr

/-- The target of a distance as text. -/
def target (stop distance : Nat) : Rest :=
  match offset? (stop + distance) with
  | some n => .operands ("  " ++ toString n)
  | none => .overflow

/-- The operands of the instruction at `pos` of the unit at offset `base`. -/
def operandsOf (i : Instr) (base pos firstEnd next : Nat) : Rest :=
  match i with
  | .jmp d | .jmpTrue d | .jmpNeutralTrue d | .jmpFalse d | .jmpNeutralFalse d =>
    target (base + next) d
  | .loop b c =>
    match offset? (base + firstEnd + b), offset? (base + next + c) with
    | some brk, some cont => .operands ("  B:" ++ toString brk ++ " C:" ++ toString cont)
    | _, _ => .overflow
  | .expr op => .operands ("  " ++ op.symbol)
  | .pushStr text => .operands ("  " ++ quote text)
  | .pushInt n => .operands ("  " ++ toString n)
  | .pushDbl bits => .operands ("  " ++ (Number.ofBits bits).plainText)
  | .pushFunc back =>
    if back ≤ base + pos then .operands ("  " ++ toString (base + pos - back)) else .cutOff ""
  | .setArg index name =>
    .operands ("  [" ++ Text.Utf8.decodeLossy name ++ "] " ++ toString index)
  | _ => .operands ""

/-- Whether an instruction at `pos` that is cut off is a loop with a break target that is no offset. That
target is computed before the second distance is read. -/
def losesBreak (code : Array UInt8) (base pos : Nat) (op : Op) : Bool :=
  op == .loop && match Varint.decodeAt (fun i => code[i]?) (pos + 1) with
    | some (b, used) => (offset? (base + (pos + 1 + used) + b)).isNone
    | none => false

/-- The lines from `pos` on, up to the end of `code`. Every instruction takes a byte, so as many
steps as there are bytes are enough. -/
def linesFrom (code : Array UInt8) (base pos : Nat) : Nat → Option (List String)
  | 0 => some []
  | steps + 1 =>
    if code.size ≤ pos then some []
    else
      let start := toString (base + pos) ++ "\t"
      match Decoded.read code pos with
      | .missing => some []
      | .unknownOpcode b => do
        let rest ← linesFrom code base (pos + 1) steps
        return (start ++ "???  (" ++ toString b.toNat ++ ")") :: rest
      | .unknownOperator b next => do
        let rest ← linesFrom code base next steps
        return (start ++ Op.expr.name ++ "  ??? (" ++ toString b.toNat ++ ")") :: rest
      | .truncated op _ lengthRead =>
        if losesBreak code base pos op then none
        else some [start ++ op.name ++ (if op == .pushStr && lengthRead then "  " else "")]
      | .instr i firstEnd next =>
        match operandsOf i base pos firstEnd next with
        | .operands text => do
          let rest ← linesFrom code base next steps
          return (start ++ i.op.name ++ text) :: rest
        | .cutOff text => some [start ++ i.op.name ++ text]
        | .overflow => none

/-- The lines of the unit at offset `base`; none if a target is past the last offset. -/
def lines? (unit : Array UInt8) (base : Nat) : Option (List String) :=
  match Header.read? unit with
  | none => some [toString base ++ "\t???  malformed header"]
  | some header => do
    let name := Text.Utf8.decodeLossy (unit.extract headerSize (header.codeStart - 1)).toList
    let first := toString base ++ "\t" ++ Op.header.name ++ "  [" ++ name ++ "] size:"
      ++ toString header.total ++ " code:" ++ toString header.codeStart ++ " map:"
      ++ toString header.mapStart
    let code := unit.extract 0 header.mapStart
    let rest ← linesFrom code base header.codeStart code.size
    return first :: rest

/-- Lines as text, each with its line end. -/
def text (lines : List String) : String :=
  lines.foldl (fun out line => out ++ line ++ "\n") ""

/-- The listing of a unit by itself, its first byte at offset zero. -/
def ofUnit? (unit : Array UInt8) : Option String :=
  (lines? unit 0).map text

/-- The listing of all committed units. -/
def ofProgram? (p : Program) : Option String :=
  (p.parts.toList.mapM fun part => lines? part.data part.start).map fun all => text all.flatten

end ScriptEngine.Code.Listing
