import ScriptEngine.Machine.Entry
import ScriptEngine.Machine.Operator
/-!
Single instructions.

A cursor is a place in a committed unit together with the operation code of the instruction before,
which tells calls on a property from calls of a variable. An instruction changes the machine and says
where to go on: behind it, at a distance, at an offset of another unit, nowhere, or, after a function
outside of the code was called, behind it.
-/

namespace ScriptEngine

open Code (Op Instr Decoded Program)

/-- A place in a committed unit. -/
structure Cursor where
  code : Array UInt8
  /-- The offset of the first byte of the unit. -/
  base : Nat
  /-- The first instruction of the unit, from its first byte. -/
  codeStart : Nat
  /-- The next instruction, from the first byte of the unit. -/
  pos : Nat
  /-- The operation code of the instruction before. -/
  previous : Op

namespace Cursor

/-- The offset of the next instruction. -/
def offset (c : Cursor) : Nat :=
  c.base + c.pos

/-- The place of an offset. -/
def load (p : Program) (offset : Nat) (previous : Op) : Except Error Cursor :=
  match p.partAt? offset with
  | some part => .ok ⟨part.data, part.start, part.codeStart, offset - part.start, previous⟩
  | none => .error (.internal ("bytecode offset " ++ toString offset ++ " is out of range"))

/-- The place of an offset, which is in the same unit more often than not. -/
def goTo (c : Cursor) (p : Program) (offset : Nat) (previous : Op) : Except Error Cursor :=
  if c.base ≤ offset && offset < c.base + c.code.size then
    .ok { c with pos := offset - c.base, previous := previous }
  else load p offset previous

end Cursor

/-- Where a run goes on after an instruction. -/
inductive Flow where
  /-- At a place of the same unit. -/
  | goOn (pos : Nat)
  /-- At an offset. -/
  | jump (offset : Nat)
  | finish (v : Value)
  /-- At a place of the same unit, after a call of a function outside of the code whose result goes to
  a slot. -/
  | host (callee receiver : Value) (args : List Value) (slot pos : Nat)

namespace Machine

variable {W : Type}

/-! ## Calls -/

/-- A call has no frame to go back to. -/
def cannotReturn : Error := .internal "cannot return"

/-- The frame of the call that is running. -/
def topFrame? (m : Machine W) : Option Frame :=
  m.frames.back?

/-- Enters a call whose result goes to a slot. -/
def pushFrame (m : Machine W) (callSite : Option Nat) (slot : Nat) (receiver : Value) : Machine W :=
  { m with
    frames := m.frames.push ⟨m.receiver, callSite, m.scopes.size, m.loops.size, slot⟩
    receiver := receiver }

/-- Notes a call whose arguments follow. The receiver is the object that the latest look-up went to, if
the callee was looked up there. -/
def beginArgs (previous : Op) : Work W Unit := fun m =>
  if m.stack.isEmpty then
    .error stackUnderflow (if previous = .get then m else { m with lastHolder := .undefined })
  else
    let receiver := if previous = .get then m.lastHolder else .undefined
    .ok () { m with
      pending := m.pending.push ⟨receiver, m.stack.size - 1⟩
      lastHolder := .undefined }

/-- Takes the pending call that was noted last. -/
def takePending : Work W PendingCall := fun m =>
  match m.pending.back? with
  | some call => .ok call { m with pending := m.pending.pop }
  | none => .error (.internal "call without arguments frame") m

/-- Calls what a pending call found. Code gets a frame whose result slot is that of the callee. -/
def callPending (site pos : Nat) : Work W Flow := do
  let call ← takePending
  let callee ← inspect fun m =>
    match m.stack[call.calleeSlot]? with
    | some v => .ok v
    | none => .error stackUnderflow
  match callee with
  | .function start => do
    modify fun m =>
      let m := m.pushFrame (some site) call.calleeSlot call.receiver
      { m with stack := m.stack.setIfInBounds call.calleeSlot .undefined }
    return .jump start.val
  | .native _ | .signature _ => do
    let args ← modifyGet fun m =>
      ((m.stack.drop (call.calleeSlot + 1)).toList,
        m.pushFrame (some site) call.calleeSlot call.receiver)
    return .host callee call.receiver args call.calleeSlot pos
  | _ => throw (.type "calling non-callable")

/-- Goes back from a function outside of the code. -/
def leaveHost (m : Machine W) : Machine W :=
  match m.frames.back? with
  | some frame => { m with frames := m.frames.pop, receiver := frame.receiver }
  | none => m

/-- Puts the result of a function outside of the code into the slot of the callee, which becomes the
top of the stack. -/
def putResult (m : Machine W) (slot : Nat) (v : Value) : Machine W :=
  { m with stack := (m.stack.shrink (slot + 1)).setIfInBounds slot v }

/-- Goes back from a call of code. -/
def returnFromCall : Work W Flow := do
  let frame ← fun m =>
    match m.frames.back? with
    | some frame => .ok frame { m with frames := m.frames.pop }
    | none => .error cannotReturn m
  modify fun m =>
    { m with
      receiver := frame.receiver
      scopes := m.scopes.shrink frame.scopes
      loops := m.loops.shrink frame.loops
      stack := m.stack.shrink (frame.resultSlot + 1) }
  match frame.callSite with
  | some site => return .jump (site + 1)
  | none => return .finish (← pop)

/-- Notes the result of the call that is running. -/
def setResult (v : Value) : Work W Unit := fun m =>
  match m.topFrame? with
  | none => .error cannotReturn m
  | some frame =>
    if frame.resultSlot < m.stack.size then
      .ok () { m with stack := m.stack.setIfInBounds frame.resultSlot v }
    else .error cannotReturn m

/-- The `index`th argument of the call that is running. -/
def argument (index : Nat) : Work W Value :=
  inspect fun m =>
    match m.topFrame? with
    | some frame => .ok (m.stack[frame.resultSlot + 1 + index]?.getD .undefined)
    | none => .error (.internal "argument outside of a call")

/-! ## Scopes and loops -/

/-- Opens a scope. -/
def openScope : Work W Unit := do
  let scope ← alloc Heap.newObject
  modify fun m => { m with scopes := m.scopes.push scope }

/-- Closes the innermost scope; that of global variables stays. -/
def closeScope : Work W Unit := fun m =>
  if m.scopes.size ≤ 1 then .error scopesUnderflow m
  else .ok () { m with scopes := m.scopes.pop }

/-- Declares a variable in an object, unless it is declared there. -/
def declare (holder key : Value) : Work W Unit :=
  match holder.propertyHolder? with
  | none => throw (.type ("cannot declare in " ++ holder.typeName))
  | some id => do
    let known ← inspect fun m => do
      let name ← m.heap.keyBytes key
      m.heap.getOwn id name
    if known.isNone then onHeap fun h => h.set id key .undefined

/-- Enters a loop. -/
def openLoop (breakTarget continueTarget : Nat) : Work W Unit :=
  modify fun m => { m with loops := m.loops.push ⟨m.scopes.size, breakTarget, continueTarget⟩ }

/-- The loop that a jump out of a loop means; the loops of callers are out of reach. -/
def currentLoop (word : String) : Work W LoopFrame :=
  inspect fun m =>
    if m.loops.size ≤ (m.topFrame?.map Frame.loops).getD 0 then
      .error (.source ("misplaced '" ++ word ++ "'"))
    else
      match m.loops.back? with
      | some loop => .ok loop
      | none => .error (.internal "loops underflow")

/-- Leaves the innermost loop: where to go on. -/
def breakLoop : Work W Flow := do
  let loop ← currentLoop "break"
  modify fun m => { m with loops := m.loops.pop, scopes := m.scopes.shrink loop.scopes }
  return .jump loop.breakTarget

/-- Goes on with the innermost loop: where. -/
def continueLoop : Work W Flow := do
  let loop ← currentLoop "continue"
  modify fun m => { m with scopes := m.scopes.shrink loop.scopes }
  return .jump loop.continueTarget

/-- One step of a walk over keys. The stack holds the variable, the object and the number of the next
key; the number becomes undefined when there is no key left. -/
def walk (env : Embedding W) : Work W Unit := do
  let number ← peek 0
  let holder ← peek 1
  let name ← peek 2
  let n := (number.asNumber?.map Number.clampUInt64).getD 0
  match ← inspect fun m => m.walkKey holder n with
  | some key => do
    let scope ← inspect fun m => m.findScope name
    setProperty env scope name key
    replaceTop (.ofNat (n + 1))
  | none => replaceTop .undefined

/-! ## Instructions -/

/-- Looks up the value under a key. The object is remembered for a call, unless it is the scope of a
variable. -/
def lookUp (env : Embedding W) (previous : Op) : Work W Unit := do
  let holder ← pop
  let key ← pop
  let v ← inspect fun m => m.property env holder key
  push v
  modify fun m => { m with lastHolder := if previous = .findScope then .undefined else holder }

/-- Appends to an array. -/
def append : Work W Unit := do
  let v ← pop
  match ← pop with
  | .array id => onHeap fun h => h.modifyItems id fun items => items.push v
  | _ => throw (.type "append to non-array")

/-- Swaps the two top values. -/
def swapTop : Work W Unit := fun m =>
  match m.below? 0, m.below? 1 with
  | some a, some b => .ok () { m with stack := ((m.stack.pop.pop).push a).push b }
  | _, _ => .error stackUnderflow m

/-- A jump if the top value, which is taken, is as true as asked; a jump leaves undefined. -/
def jumpIf (wanted : Bool) (pos distance : Nat) : Work W Flow := do
  let v ← pop
  let holds ← inspect fun m => .ok (m.heap.truthy v)
  if holds = wanted then
    push .undefined
    return .goOn (pos + distance)
  else return .goOn pos

/-- A jump if the top value, which stays, is as true as asked. -/
def jumpKeeping (wanted : Bool) (pos distance : Nat) : Work W Flow := do
  let v ← peek 0
  let holds ← inspect fun m => .ok (m.heap.truthy v)
  return .goOn (if holds = wanted then pos + distance else pos)

/-- Sets a parameter in the innermost scope. -/
def setArgument (env : Embedding W) (index : Nat) (name : List UInt8) : Work W Unit := do
  let key ← allocString name
  let v ← argument index
  let scope ← topScope
  setProperty env scope key v

/-- A function of the same unit. -/
def functionBack (offset back : Nat) : Except Error Value :=
  if back ≤ offset then
    match Value.ofFunction? (UInt64.ofNat (offset - back)) with
    | .ok v => .ok v
    | .error e => .error e.toError
  else .error (.internal ("function offset underflow at " ++ toString offset))

/-- Carries out the instruction at a cursor. `firstEnd` and `next` are the places behind its first
operand and behind it. -/
def carryOut (env : Embedding W) (c : Cursor) (i : Instr) (firstEnd next : Nat) : Work W Flow := do
  match i with
  | .nop => pure ()
  | .drop => let _ ← pop
  | .dup => push (← peek 0)
  | .dup2 =>
    let a ← peek 1
    let b ← peek 0
    push a
    push b
  | .swap => swapTop
  | .jmp distance => return .goOn (next + distance)
  | .jmpTrue distance => return ← jumpIf true next distance
  | .jmpFalse distance => return ← jumpIf false next distance
  | .jmpNeutralTrue distance => return ← jumpKeeping true next distance
  | .jmpNeutralFalse distance => return ← jumpKeeping false next distance
  | .findScope =>
    let name ← peek 0
    push (← inspect fun m => m.findScope name)
  | .pushScope => push (← topScope)
  | .pushStr text => push (← allocString text)
  | .pushTrue => push (.boolean true)
  | .pushFalse => push (.boolean false)
  | .pushNull => push .null
  | .pushUndef => push .undefined
  | .pushInt n => push (.ofNat n)
  | .pushDbl bits => push (.number (.ofBits bits))
  | .pushObj => push (← alloc Heap.newObject)
  | .pushArray => push (← alloc fun h => h.newArray [])
  | .pushFunc back => push (← ofExcept (functionBack c.offset back))
  | .pushThis => push (← inspect fun m => .ok m.receiver)
  | .get => lookUp env c.previous
  | .create =>
    let holder ← pop
    let key ← pop
    declare holder key
  | .expr op => operate env op
  | .append => append
  | .setArg index name => setArgument env index name
  | .newScope => openScope
  | .delScope => closeScope
  | .args => beginArgs c.previous
  | .call => return ← callPending c.offset next
  | .return => return ← returnFromCall
  | .setRetVal => setResult (← pop)
  | .loop breakDistance continueDistance =>
    openLoop (c.base + firstEnd + breakDistance) (c.base + next + continueDistance)
  | .break => return ← breakLoop
  | .continue => return ← continueLoop
  | .exit => return .finish (← pop)
  | .header => return .goOn c.codeStart
  | .forInNext => walk env
  return .goOn next

/-- What a run does after an instruction. -/
inductive Step where
  | goOn (c : Cursor)
  | finish (v : Value)
  | host (callee receiver : Value) (args : List Value) (slot : Nat) (c : Cursor)

/-- Carries out the instruction at a cursor and finds where to go on. -/
def advance (env : Embedding W) (c : Cursor) : Work W Step :=
  match Decoded.read c.code c.pos with
  | .instr i firstEnd next => do
    match ← carryOut env c i firstEnd next with
    | .goOn pos => return .goOn { c with pos := pos, previous := i.op }
    | .jump offset => do
      let c ← inspect fun m => c.goTo m.program offset i.op
      return .goOn c
    | .finish v => return .finish v
    | .host callee receiver args slot pos =>
      return .host callee receiver args slot { c with pos := pos, previous := i.op }
  | .unknownOpcode b =>
    throw (.internal ("unknown opcode " ++ toString b.toNat ++ " at " ++ toString c.offset))
  | .unknownOperator b _ =>
    throw (.internal ("unknown operator " ++ toString b.toNat ++ " at " ++ toString c.offset))
  | .truncated _ pos _ =>
    throw (.internal ("truncated instruction at " ++ toString (c.base + pos)))
  | .missing => throw (.internal ("truncated instruction at " ++ toString c.offset))

end Machine

end ScriptEngine
