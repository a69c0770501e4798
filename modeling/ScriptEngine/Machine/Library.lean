import ScriptEngine.Machine.Foreign
import ScriptEngine.Machine.Property
/-!
What the functions that every machine has do.

A function takes the receiver and the arguments; an argument that is not given is undefined unless the
function asks for it.
-/

namespace ScriptEngine.Machine

variable {W : Type}

/-! ## Arguments -/

/-- The `i`th argument, undefined if it is not given. -/
def arg (args : List Value) (i : Nat) : Value :=
  args[i]?.getD .undefined

/-- The `i`th argument as text. -/
def textArg (h : Heap) (args : List Value) (i : Nat) (function : String) : Except Error String :=
  match h.text? (arg args i) with
  | some bytes => .ok (Text.Utf8.decodeLossy bytes)
  | none => .error (.type (function ++ ": string expected, " ++ (arg args i).typeName ++ " given"))

/-- The `i`th argument as a size, if it is given. -/
def sizeArg (args : List Value) (i : Nat) (what : String) : Except Error (Option Nat) :=
  match arg args i with
  | .undefined => .ok none
  | v =>
    match v.asNumber?.bind Number.nat? with
    | some n => .ok (some (min n (UInt64.size - 1)))
    | none => .error (.type (what ++ " should be a non-negative integer"))

/-- The `i`th argument as a signed index, if it is given. -/
def indexArg? (args : List Value) (i : Nat) (name : String) : Except Error (Option Int) :=
  match args[i]? with
  | none => .ok none
  | some (.number n) => .ok (some n.clampInt64)
  | some v => .error (.type (name ++ " should be a number, " ++ v.typeName ++ " given"))

/-- An argument has to be given. -/
def missingArg (name : String) : Error := .type ("missing argument " ++ name)

/-- The `i`th argument as a signed index; it has to be given. -/
def indexArg (args : List Value) (i : Nat) (name : String) : Except Error Int := do
  match ← indexArg? args i name with
  | some n => return n
  | none => throw (missingArg name)

/-- A signed index into `size` places; a negative one counts from the end. -/
def placeOf (index : Int) (size : Nat) : Nat :=
  let fromStart := if index < 0 then max (size + index) 0 else index
  min fromStart.toNat size

/-- The receiver as a string. -/
def receiverString (receiver : Value) : Except Error StringRef :=
  match receiver with
  | .string s => .ok s
  | _ => .error (.type ("this should be a string, " ++ receiver.typeName ++ " given"))

/-! ## Functions -/

/-- Writes a line. -/
def writeLine (line : String) : Work W Unit := fun m =>
  match m.output.broken with
  | some reason => .error (.internal ("print: " ++ reason)) m
  | none => .ok () { m with output := { m.output with text := m.output.text ++ line ++ "\n" } }

/-- Shows values on a line. -/
def printValues (env : Embedding W) (args : List Value) : Work W Value := do
  let line ← inspect fun m => .ok (String.intercalate " " (args.map (m.display env)))
  writeLine line
  return .undefined

/-- Fails with a text. -/
def die (args : List Value) : Work W Value := do
  let bytes ← inspect fun m => m.heap.textOf (arg args 0)
  throw (.type (Text.Utf8.decodeLossy bytes))

/-- Collects; the argument says whether in full. -/
def collectNow (args : List Value) : Work W Value :=
  modifyGet fun m => (.undefined, (m.collect (m.heap.truthy (arg args 0))).1)

/-- Makes a foreign function of a prototype. -/
def ffi (env : Embedding W) (args : List Value) : Work W Value := do
  let text ← inspect fun m => textArg m.heap args 0 "ffi"
  resolveForeign env text

/-- Frees a callback. -/
def freeCallback (args : List Value) : Work W Value :=
  modifyGet fun m =>
    let (callbacks, removed) := m.callbacks.remove (arg args 0) (arg args 1)
    (.ofNat (if removed then 1 else 0), { m with callbacks := callbacks })

/-- A buffer of zeros. -/
def newBuffer (args : List Value) : Work W Value := do
  let length ← ofExcept (sizeArg args 0 "length")
  alloc fun h => h.newBuffer (.zeros (length.getD 0))

/-- The offset and the length of a view of a buffer of some size. -/
def viewRange (args : List Value) (size : Nat) : Except Error (Nat × Nat) := do
  let offset := (← sizeArg args 1 "byteOffset").getD 0
  if size < offset then throw (.type "byteOffset is out of range")
  let length := (← sizeArg args 2 "byteLength").getD (size - offset)
  if size - offset < length then throw (.type "byteLength is out of range")
  return (offset, length)

/-- A view of a buffer. -/
def newView (args : List Value) : Work W Value :=
  match arg args 0 with
  | .arrayBuffer id => do
    let bytes ← inspect fun m => m.heap.buffer id
    let (offset, length) ← ofExcept (viewRange args bytes.size)
    alloc fun h => h.newView id offset length
  | v => throw (.type ("DataView: array_buf expected, " ++ v.typeName ++ " given"))

/-- Loads a file. -/
def load (env : Embedding W) (m : Machine W) (args : List Value) : Action W Value :=
  match textArg m.heap args 0 "load" with
  | .ok path => loadFile env m path
  | .error e => .done m (.error e)

/-- Calls the receiver with the first argument as its receiver and the items of the second. -/
def applyReceiver (m : Machine W) (receiver : Value) (args : List Value) : Action W Value :=
  match m.argumentsOf (arg args 1) with
  | .ok items => .call m (.value receiver) (arg args 0) items .done
  | .error e => .done m (.error e)

/-- Appends the arguments to an array: its new length. -/
def pushItems (receiver : Value) (args : List Value) : Work W Value :=
  match receiver with
  | .array id => do
    onHeap fun h => h.modifyItems id fun items => items ++ args.toArray
    let items ← inspect fun m => m.heap.items id
    return .ofNat items.size
  | _ => throw (.type "push: this should be an array")

/-- The byte of text at an index; a negative one counts from the end. -/
def charCodeAt (h : Heap) (receiver : Value) (args : List Value) : Except Error Value := do
  let s ← receiverString receiver
  let index ← indexArg args 0 "index"
  let place := if index < 0 then h.strings.length s + index else index
  if place < 0 then return .undefined
  else return (h.strings.byte? s place.toNat).elim .undefined byteValue

/-- Where bytes occur first in others. -/
def firstMatch? (needle : List UInt8) : List UInt8 → Option Nat
  | [] => if needle.isEmpty then some 0 else none
  | b :: rest =>
    if needle.isPrefixOf (b :: rest) then some 0 else (firstMatch? needle rest).map (· + 1)

/-- The place of text in text, from a place on, or minus one. -/
def indexOf (h : Heap) (receiver : Value) (args : List Value) : Except Error Value := do
  let s ← receiverString receiver
  let needle ←
    match args[0]? with
    | none => throw (missingArg "searchValue")
    | some v =>
      match h.text? v with
      | some needle => pure needle
      | none => throw (.type ("searchValue should be a string, " ++ v.typeName ++ " given"))
  let start := min ((← indexArg? args 1 "fromIndex").getD 0).toNat (h.strings.length s)
  match firstMatch? needle ((h.strings.bytes s).drop start) with
  | some place => return .ofNat (start + place)
  | none => return .number (.ofInt (-1))

/-- The bytes of text between two places. -/
def sliceOf (h : Heap) (receiver : Value) (args : List Value) : Except Error (List UInt8) := do
  let s ← receiverString receiver
  let length := h.strings.length s
  let start := placeOf (← indexArg args 0 "beginSlice") length
  let stop := ((← indexArg? args 1 "endSlice").map fun i => placeOf i length).getD length
  return h.strings.between s start stop

/-- Part of a text. -/
def slice (receiver : Value) (args : List Value) : Work W Value := do
  let bytes ← inspect fun m => sliceOf m.heap receiver args
  allocString bytes

/-- The receiver as text. -/
def toText (receiver : Value) : Work W Value := do
  let bytes ← inspect fun m => m.heap.textOf receiver
  allocString bytes

/-- What a function does. -/
def builtin (env : Embedding W) (m : Machine W) (b : Builtin) (receiver : Value)
    (args : List Value) : Action W Value :=
  match b with
  | .print => Action.ofWork (printValues env args) m
  | .die => Action.ofWork (die args) m
  | .gc => Action.ofWork (collectNow args) m
  | .ffi => Action.ofWork (ffi env args) m
  | .freeCallback => Action.ofWork (freeCallback args) m
  | .arrayBuffer => Action.ofWork (newBuffer args) m
  | .dataView => Action.ofWork (newView args) m
  | .load => load env m args
  | .apply => applyReceiver m receiver args
  | .push => Action.ofWork (pushItems receiver args) m
  | .charCodeAt => .done m (charCodeAt m.heap receiver args)
  | .indexOf => .done m (indexOf m.heap receiver args)
  | .slice => Action.ofWork (slice receiver args) m
  | .toText => Action.ofWork (toText receiver) m

/-- What a function outside of the code does, whoever made it. -/
def callHost (env : Embedding W) (m : Machine W) (callee receiver : Value) (args : List Value) :
    Action W Value :=
  match callee with
  | .native id =>
    match Builtin.ofId? id with
    | some b => builtin env m b receiver args
    | none =>
      match env.native? id with
      | some f => f.call m receiver args
      | none =>
        .done m (.error (.internal ("unknown native function #" ++ toString id.index.toNat)))
  | .signature id => callForeign env m id args
  | _ => .done m (.error (.type "calling non-callable"))

end ScriptEngine.Machine
