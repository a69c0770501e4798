import ScriptEngine.Code.Unit
import ScriptEngine.Ffi.Callbacks
import ScriptEngine.Heap.Collect
import ScriptEngine.Roots
/-!
The state of a machine.

A machine has a heap, the code committed so far, and five stacks: values, calls, calls whose arguments
are still being computed, scopes, and loops. The value stack is shared by all calls; a call knows the
slot that its result goes to, and its arguments lie above that slot. `world` is whatever the functions
of the embedder keep between their calls.

Work on the state may fail, and what it did before it failed stays done.
-/

namespace ScriptEngine

/-- What a call goes back to. -/
structure Frame where
  /-- The receiver of the caller. -/
  receiver : Value
  /-- The offset of the call instruction; none for a call from outside of the code. -/
  callSite : Option Nat
  /-- The number of scopes of the caller. -/
  scopes : Nat
  /-- The number of loops of the caller. -/
  loops : Nat
  /-- The slot of the value stack that the result goes to. -/
  resultSlot : Nat

/-- A call whose arguments are being computed. -/
structure PendingCall where
  receiver : Value
  calleeSlot : Nat

/-- A loop that is running. -/
structure LoopFrame where
  /-- The number of scopes around the loop. -/
  scopes : Nat
  breakTarget : Nat
  continueTarget : Nat

/-- A line of code on the way to a failure. -/
structure TraceEntry where
  filename : String
  line : Nat
  deriving DecidableEq, Repr

/-- An entry as text. -/
def TraceEntry.text (e : TraceEntry) : String :=
  "  at " ++ e.filename ++ ":" ++ toString e.line

/-- Where printed lines go. -/
structure Output where
  text : String
  /-- Why lines cannot be written, if they cannot. -/
  broken : Option String

/-- Sizes of the stacks. -/
structure Depths where
  data : Nat
  calls : Nat
  args : Nat
  scopes : Nat
  loops : Nat
  deriving DecidableEq, Repr

/-- A machine. -/
structure Machine (W : Type) where
  options : Options
  heap : Heap
  program : Code.Program
  stack : Array Value
  frames : Array Frame
  pending : Array PendingCall
  /-- The first scope is the global object. -/
  scopes : Array Value
  loops : Array LoopFrame
  /-- The receiver of the call that is running. -/
  receiver : Value
  /-- The object that the latest look-up went to, for the call that may follow. -/
  lastHolder : Value
  roots : Roots
  callbacks : Ffi.Callbacks
  /-- Collections wait while native calls are under way. -/
  nativeCalls : Nat
  /-- How many executions are nested in each other. -/
  depth : Nat
  /-- The offset of the instruction that failed last. -/
  failedAt : Nat
  trace : List TraceEntry
  interrupted : Bool
  output : Output
  lastError : Option Error
  world : W

namespace Machine

variable {W : Type}

/-- The sizes of the stacks. -/
def depths (m : Machine W) : Depths :=
  ⟨m.stack.size, m.frames.size, m.pending.size, m.scopes.size, m.loops.size⟩

/-- Cuts every stack back to a size. -/
def cutBack (m : Machine W) (d : Depths) : Machine W :=
  { m with
    stack := m.stack.shrink d.data
    frames := m.frames.shrink d.calls
    pending := m.pending.shrink d.args
    scopes := m.scopes.shrink d.scopes
    loops := m.loops.shrink d.loops }

/-- The object of global variables. -/
def globalObject (m : Machine W) : Value :=
  m.scopes[0]?.getD .undefined

/-! ## Collections -/

/-- The values that the machine itself keeps alive. -/
def heldValues (m : Machine W) : List Value :=
  m.stack.toList ++ (m.scopes.toList ++ (m.frames.toList.map Frame.receiver
    ++ (m.pending.toList.map PendingCall.receiver ++ (m.receiver :: m.lastHolder
    :: (m.roots.values ++ m.callbacks.values)))))

/-- Changes the values that the machine itself keeps alive. -/
def mapHeld (m : Machine W) (f : Value → Value) : Machine W :=
  { m with
    stack := m.stack.map f
    scopes := m.scopes.map f
    frames := m.frames.map fun frame => { frame with receiver := f frame.receiver }
    pending := m.pending.map fun call => { call with receiver := f call.receiver }
    receiver := f m.receiver
    lastHolder := f m.lastHolder
    roots := m.roots.map f
    callbacks := m.callbacks.map f }

/-- Collects now. -/
def collect (m : Machine W) (full : Bool) : Machine W × CollectStats :=
  let (heap, moves, stats) := m.heap.collect m.heldValues full m.options.stringSlack
  let m := { m with heap := heap }
  (if moves.isEmpty then m else m.mapHeld (StringHeap.relocate moves), stats)

/-- Collects if an allocation asked for it and no native call is under way. -/
def collectIfNeeded (m : Machine W) : Machine W :=
  if m.heap.needsCollection && m.nativeCalls == 0 then (m.collect false).1 else m

/-! ## Work on the state -/

/-- Work that changes the machine and may fail. -/
abbrev Work (W : Type) := EStateM Error (Machine W)

/-- Work that changes nothing. -/
def ofExcept {α : Type} : Except Error α → Work W α
  | .ok a => pure a
  | .error e => throw e

/-- Looks at the machine. -/
def inspect {α : Type} (f : Machine W → Except Error α) : Work W α := fun m =>
  match f m with
  | .ok a => .ok a m
  | .error e => .error e m

/-- Changes the heap. -/
def onHeap {α : Type} (f : EStateM Error Heap α) : Work W α := fun m =>
  match f m.heap with
  | .ok a heap => .ok a { m with heap := heap }
  | .error e heap => .error e { m with heap := heap }

/-- Allocates. -/
def alloc (f : Heap → Heap × Value) : Work W Value := fun m =>
  let (heap, v) := f m.heap
  .ok v { m with heap := heap }

/-- A new string. -/
def allocString (bytes : List UInt8) : Work W Value :=
  onHeap fun h => h.newString bytes

/-- The value stack has fewer values than an instruction takes. -/
def stackUnderflow : Error := .internal "stack underflow"

/-- There is no scope. -/
def scopesUnderflow : Error := .internal "scopes underflow"

/-- Puts a value on the stack. -/
def push (v : Value) : Work W Unit :=
  modify fun m => { m with stack := m.stack.push v }

/-- Takes the top value off the stack. -/
def pop : Work W Value := fun m =>
  match m.stack.back? with
  | some v => .ok v { m with stack := m.stack.pop }
  | none => .error stackUnderflow m

/-- The value that many places below the top. -/
def below? (m : Machine W) (places : Nat) : Option Value :=
  if places < m.stack.size then m.stack[m.stack.size - 1 - places]? else none

/-- The value that many places below the top. -/
def peek (places : Nat) : Work W Value := fun m =>
  match m.below? places with
  | some v => .ok v m
  | none => .error stackUnderflow m

/-- Puts a value in place of the top one. -/
def replaceTop (v : Value) : Work W Unit := fun m =>
  if m.stack.isEmpty then .error stackUnderflow m
  else .ok () { m with stack := m.stack.setIfInBounds (m.stack.size - 1) v }

/-- The innermost scope. -/
def topScope : Work W Value := fun m =>
  match m.scopes.back? with
  | some v => .ok v m
  | none => .error scopesUnderflow m

end Machine

end ScriptEngine
