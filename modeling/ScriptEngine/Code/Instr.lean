import ScriptEngine.Code.Op
import ScriptEngine.Varint
/-!
Instructions and their bytes.

The byte of the operation code comes first, the operands follow. Distances, lengths and integers are
varints. A jump distance counts from the end of its operand; `loop` carries two distances, to the
break target and to the continue target, each from the end of its own operand.
-/

namespace ScriptEngine.Code

/-- One instruction with its operands. -/
inductive Instr where
  | nop
  | drop
  | dup
  | dup2
  | swap
  | jmp (distance : Nat)
  | jmpTrue (distance : Nat)
  | jmpNeutralTrue (distance : Nat)
  | jmpFalse (distance : Nat)
  | jmpNeutralFalse (distance : Nat)
  | findScope
  | pushScope
  | pushStr (text : List UInt8)
  | pushTrue
  | pushFalse
  | pushInt (n : Nat)
  | pushDbl (bits : UInt64)
  | pushNull
  | pushUndef
  | pushObj
  | pushArray
  /-- A function whose first instruction lies `back` bytes before this instruction. -/
  | pushFunc (back : Nat)
  | pushThis
  | get
  | create
  | expr (op : Operator)
  | append
  | setArg (index : Nat) (name : List UInt8)
  | newScope
  | delScope
  | call
  | return
  | loop (breakDistance continueDistance : Nat)
  | break
  | continue
  | setRetVal
  | exit
  | header
  | args
  | forInNext
  deriving DecidableEq, Repr, Inhabited

namespace Instr

/-- The operation code. -/
def op : Instr → Op
  | nop => .nop
  | drop => .drop
  | dup => .dup
  | dup2 => .dup2
  | swap => .swap
  | jmp _ => .jmp
  | jmpTrue _ => .jmpTrue
  | jmpNeutralTrue _ => .jmpNeutralTrue
  | jmpFalse _ => .jmpFalse
  | jmpNeutralFalse _ => .jmpNeutralFalse
  | findScope => .findScope
  | pushScope => .pushScope
  | pushStr _ => .pushStr
  | pushTrue => .pushTrue
  | pushFalse => .pushFalse
  | pushInt _ => .pushInt
  | pushDbl _ => .pushDbl
  | pushNull => .pushNull
  | pushUndef => .pushUndef
  | pushObj => .pushObj
  | pushArray => .pushArray
  | pushFunc _ => .pushFunc
  | pushThis => .pushThis
  | get => .get
  | create => .create
  | expr _ => .expr
  | append => .append
  | setArg _ _ => .setArg
  | newScope => .newScope
  | delScope => .delScope
  | call => .call
  | .return => .return
  | loop _ _ => .loop
  | .break => .break
  | .continue => .continue
  | setRetVal => .setRetVal
  | exit => .exit
  | header => .header
  | args => .args
  | forInNext => .forInNext

/-- The eight bytes of a word, lowest first. -/
def wordBytes (bits : UInt64) : List UInt8 :=
  (List.range 8).map fun i => UInt8.ofNat (bits.toNat >>> (8 * i))

/-- The word that bytes spell, lowest first. -/
def wordOf (bytes : List UInt8) : Nat :=
  bytes.foldr (fun b rest => b.toNat + 256 * rest) 0

/-- The bytes of an instruction, in the pieces they are written in. Distances have their shortest
form here; those of forward jumps are written by `Emitter.patch` instead. -/
def pieces (i : Instr) : List (List UInt8) :=
  match i with
  | expr op => [[i.op.toByte, op.toByte]]
  | jmp d | jmpTrue d | jmpNeutralTrue d | jmpFalse d | jmpNeutralFalse d =>
    [[i.op.toByte], Varint.encode d]
  | loop b c => [[i.op.toByte], Varint.encode b, Varint.encode c]
  | pushStr text => [[i.op.toByte], Varint.encode text.length, text]
  | pushInt n => [[i.op.toByte], Varint.encode n]
  | pushDbl bits => [[i.op.toByte], wordBytes bits]
  | pushFunc back => [[i.op.toByte], Varint.encode back]
  | setArg index name => [[i.op.toByte], Varint.encode index, Varint.encode name.length, name]
  | _ => [[i.op.toByte]]

/-- The bytes of an instruction. -/
def encode (i : Instr) : List UInt8 :=
  i.pieces.flatten

end Instr

/-- What stands at a position of the code. -/
inductive Decoded where
  /-- An instruction, the position after its first operand, and the position after it. Without
  operands the two agree. -/
  | instr (i : Instr) (firstEnd next : Nat)
  | unknownOpcode (byte : UInt8)
  /-- An operator instruction whose operator does not exist. -/
  | unknownOperator (byte : UInt8) (next : Nat)
  /-- The code ends before the operand at `pos` does. Of a string, the length may have been read. -/
  | truncated (op : Op) (pos : Nat) (lengthRead : Bool)
  /-- The code ends before the position. -/
  | missing
  deriving DecidableEq, Repr, Inhabited

namespace Decoded

/-- The bytes from `pos` on, if that many are there. -/
def take? (code : Array UInt8) (pos length : Nat) : Option (List UInt8) :=
  if pos + length ≤ code.size then some (code.extract pos (pos + length)).toList else none

/-- Reads a number operand and goes on with it and the position after it. -/
def withNumber (code : Array UInt8) (op : Op) (pos : Nat) (k : Nat → Nat → Decoded) : Decoded :=
  match Varint.decodeAt (fun i => code[i]?) pos with
  | some (v, used) => k v (pos + used)
  | none => truncated op pos false

/-- Reads a text operand with its length in front. -/
def withText (code : Array UInt8) (op : Op) (pos : Nat) (k : List UInt8 → Nat → Decoded) : Decoded :=
  withNumber code op pos fun length start =>
    match take? code start length with
    | some text => k text (start + length)
    | none => truncated op start true

/-- Reads the operands of an instruction whose operation code is `op`. -/
def operands (code : Array UInt8) (op : Op) (pos : Nat) : Decoded :=
  let number (k : Nat → Instr) := withNumber code op pos fun v next => instr (k v) next next
  let bare (i : Instr) := instr i pos pos
  match op with
  | .nop => bare .nop
  | .drop => bare .drop
  | .dup => bare .dup
  | .dup2 => bare .dup2
  | .swap => bare .swap
  | .jmp => number .jmp
  | .jmpTrue => number .jmpTrue
  | .jmpNeutralTrue => number .jmpNeutralTrue
  | .jmpFalse => number .jmpFalse
  | .jmpNeutralFalse => number .jmpNeutralFalse
  | .findScope => bare .findScope
  | .pushScope => bare .pushScope
  | .pushStr => withText code op pos fun text next => instr (.pushStr text) next next
  | .pushTrue => bare .pushTrue
  | .pushFalse => bare .pushFalse
  | .pushInt => number .pushInt
  | .pushDbl =>
    match take? code pos 8 with
    | some bytes => instr (.pushDbl (UInt64.ofNat (Instr.wordOf bytes))) (pos + 8) (pos + 8)
    | none => truncated op pos false
  | .pushNull => bare .pushNull
  | .pushUndef => bare .pushUndef
  | .pushObj => bare .pushObj
  | .pushArray => bare .pushArray
  | .pushFunc => number .pushFunc
  | .pushThis => bare .pushThis
  | .get => bare .get
  | .create => bare .create
  | .expr =>
    match code[pos]? with
    | some b =>
      match Operator.ofByte? b with
      | some o => instr (.expr o) (pos + 1) (pos + 1)
      | none => unknownOperator b (pos + 1)
    | none => truncated op pos false
  | .append => bare .append
  | .setArg =>
    withNumber code op pos fun index after =>
      withText code op after fun name next => instr (.setArg index name) after next
  | .newScope => bare .newScope
  | .delScope => bare .delScope
  | .call => bare .call
  | .return => bare .return
  | .loop =>
    withNumber code op pos fun b after =>
      withNumber code op after fun c next => instr (.loop b c) after next
  | .break => bare .break
  | .continue => bare .continue
  | .setRetVal => bare .setRetVal
  | .exit => bare .exit
  | .header => bare .header
  | .args => bare .args
  | .forInNext => bare .forInNext

/-- Reads the instruction at `pos`. -/
def read (code : Array UInt8) (pos : Nat) : Decoded :=
  match code[pos]? with
  | none => missing
  | some b =>
    match Op.ofByte? b with
    | none => unknownOpcode b
    | some op => operands code op (pos + 1)

end Decoded

end ScriptEngine.Code
