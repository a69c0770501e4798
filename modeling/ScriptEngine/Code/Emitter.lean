import ScriptEngine.Buffer
import ScriptEngine.Code.Unit
/-!
Code in the making.

Code is written at a cursor, which is usually the end. A forward jump reserves a placeholder of a
fixed width that is patched once its target is known; a distance that does not fit is spliced in, and
everything at or behind the splice moves up. Every write names the line it belongs to, and the table
of lines follows insertions and splices.
-/

namespace ScriptEngine.Code

/-- The line table in the making: the entry with the greatest offset comes first. -/
abbrev LineLog := List LineEntry

namespace LineLog

/-- The line that covers an offset, if an entry does. -/
def lineAt? (log : LineLog) (offset : Nat) : Option Nat :=
  (log.find? fun e => e.offset ≤ offset).map LineEntry.line

/-- Moves the entries at or behind an offset up; they come before the others. -/
def shift (log : LineLog) (start by_ : Nat) : LineLog :=
  match log with
  | [] => []
  | e :: rest =>
    if start ≤ e.offset then { e with offset := e.offset + by_ } :: shift rest start by_
    else e :: rest

/-- Puts an entry in its place, instead of one at the same offset. -/
def put (log : LineLog) (entry : LineEntry) : LineLog :=
  match log with
  | [] => [entry]
  | e :: rest =>
    if entry.offset < e.offset then e :: put rest entry
    else if e.offset = entry.offset then entry :: rest
    else entry :: e :: rest

/-- Puts an entry in its place unless there is one at the same offset. -/
def putNew (log : LineLog) (entry : LineEntry) : LineLog :=
  if log.any fun e => e.offset = entry.offset then log else log.put entry

end LineLog

/-- Code in the making. -/
structure Emitter where
  code : ByteArray
  /-- Where the next write goes. -/
  cursor : Nat
  lines : LineLog
  /-- How many bytes a placeholder takes. -/
  width : Nat

/-- What a patch did: the code grew by `growth` bytes at `position`. -/
structure Patch where
  position : Nat
  growth : Nat
  deriving DecidableEq, Repr

/-- Where a position noted before the patch is now. -/
def Patch.moved (p : Patch) (position : Nat) : Nat :=
  if p.position ≤ position then position + p.growth else position

namespace Emitter

/-- No code, for placeholders of a width. -/
def empty (width : Nat) : Emitter := ⟨.empty, 0, [], width⟩

/-- The widest placeholder. -/
def maxWidth : Nat := 4

/-- Moves the cursor. -/
def seek (e : Emitter) (position : Nat) : Emitter :=
  { e with cursor := position }

/-- Notes the line of `length` bytes that were put at the cursor. Code behind an insertion keeps the
line that covered the place. -/
def noteLine (e : Emitter) (line length : Nat) : LineLog :=
  let inserting := e.cursor < e.code.size
  let covering := e.lines.lineAt? e.cursor
  let log := if inserting then e.lines.shift e.cursor length else e.lines
  if covering = some line then log
  else
    let log := log.put ⟨e.cursor, line⟩
    match covering with
    | some previous => if inserting then log.putNew ⟨e.cursor + length, previous⟩ else log
    | none => log

/-- Writes bytes of a line at the cursor and goes on behind them. -/
def write (e : Emitter) (line : Nat) (bytes : List UInt8) : Emitter :=
  if bytes.isEmpty then e
  else
    let lines := e.noteLine line bytes.length
    { e with
      code := Buffer.splice e.code e.cursor e.cursor bytes
      lines := lines
      cursor := e.cursor + bytes.length }

/-- Writes an instruction, one piece after the other. -/
def instr (e : Emitter) (line : Nat) (i : Instr) : Emitter :=
  i.pieces.foldl (fun e bytes => e.write line bytes) e

/-- Writes instructions. -/
def instrs (e : Emitter) (line : Nat) (is : List Instr) : Emitter :=
  is.foldl (fun e i => e.instr line i) e

/-- Writes an operation code alone. -/
def op (e : Emitter) (line : Nat) (o : Op) : Emitter :=
  e.write line [o.toByte]

/-- Reserves a placeholder, which stands where the cursor was. -/
def placeholder (e : Emitter) (line : Nat) : Emitter :=
  e.write line (List.replicate e.width 0)

/-- Writes a jump whose distance is not known yet; the placeholder stands one byte behind the
cursor. -/
def jump (e : Emitter) (line : Nat) (o : Op) : Emitter :=
  (e.op line o).placeholder line

/-- Writes the distance from the end of the placeholder at `position` to `target` into it. -/
def patch (e : Emitter) (position target : Nat) : Emitter × Patch :=
  let stop := position + e.width
  let distance := target - stop
  let width := max (Varint.length distance) e.width
  let growth := width - e.width
  let bytes := Varint.encodePadded distance width
  ({ e with
      code := Buffer.splice e.code position stop bytes
      cursor := if stop ≤ e.cursor then e.cursor + growth else e.cursor
      lines := if growth = 0 then e.lines else e.lines.shift stop growth },
    ⟨stop, growth⟩)

/-- The line table, by rising offsets. -/
def lineTable (e : Emitter) : List LineEntry :=
  e.lines.reverse

end Emitter

end ScriptEngine.Code
