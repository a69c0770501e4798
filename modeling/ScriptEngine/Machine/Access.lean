import ScriptEngine.Code.Listing
import ScriptEngine.Machine.Embedding
import ScriptEngine.Heap.Properties
/-!
What an embedder can do with a machine besides running code: make it, reach its variables and values,
pin values, and look at its state.
-/

namespace ScriptEngine.Machine

variable {W : Type}

/-! ## Global variables -/

/-- The object of global variables. -/
def globalId (m : Machine W) : Except Error ObjectId :=
  match m.globalObject.propertyHolder? with
  | some id => .ok id
  | none => .error (.internal "global scope is missing")

/-- Sets a global variable whose name the engine itself holds. -/
def setBuiltin (b : Builtin) : Work W Unit := do
  let id ← inspect globalId
  let key ← onHeap fun h => h.lendString .engine (Text.bytesOf b.name)
  onHeap fun h => h.set id key b.value

/-- Sets a global variable. -/
def setGlobal (name : String) (v : Value) : Work W Unit := do
  let id ← inspect globalId
  let key ← allocString (Text.bytesOf name)
  onHeap fun h => h.set id key v

/-- The value of a global variable. -/
def global? (m : Machine W) (name : String) : Option Value :=
  match m.globalId with
  | .ok id =>
    match m.heap.getOwn id (Text.bytesOf name) with
    | .ok v => v
    | .error _ => none
  | .error _ => none

/-- Sets a global variable for each function of the embedder, in order, from the `i`th on. -/
def setNatives (i : Nat) : List (Native W) → Work W Unit
  | [] => pure ()
  | f :: rest => do
    setGlobal f.name (.native (Embedding.nativeId i))
    setNatives (i + 1) rest

/-- Makes the functions of the embedder global variables. -/
def registerNatives (env : Embedding W) : Work W Unit :=
  setNatives 0 env.natives.toList

/-- A machine without anything in it. -/
def bare (o : Options) (output : Output) (world : W) : Machine W where
  options := o
  heap := .empty o
  program := .empty
  stack := #[]
  frames := #[]
  pending := #[]
  scopes := #[]
  loops := #[]
  receiver := .undefined
  lastHolder := .undefined
  roots := .empty
  callbacks := .empty
  nativeCalls := 0
  depth := 0
  failedAt := 0
  trace := []
  interrupted := false
  output := output
  lastError := none
  world := world

/-- Opens the scope of global variables and puts the functions into it that every machine has. -/
def install : Work W Unit := do
  let global ← alloc Heap.newObject
  modify fun m => { m with scopes := m.scopes.push global }
  Builtin.globals.forM setBuiltin

/-- A new machine. -/
def new (o : Options) (output : Output) (world : W) : Except Error (Machine W) :=
  match install (bare o output world) with
  | .ok () m => .ok m
  | .error e _ => .error e

/-! ## Values -/

/-- A string that refers to a text of the embedder. -/
def lendString (bytes : List UInt8) : Work W Value :=
  onHeap fun h => h.lendString .embedder bytes

/-- The object whose properties a value carries. -/
def holder (v : Value) : Except Error ObjectId :=
  match v.propertyHolder? with
  | some id => .ok id
  | none => .error (.type (v.typeName ++ " cannot hold properties"))

/-- The value under a name, delegation included. -/
def get (m : Machine W) (v : Value) (name : String) : Except Error Value := do
  let id ← holder v
  return (← m.heap.get id (Text.bytesOf name)).getD .undefined

/-- The value that an object itself has under a name. -/
def getOwn (m : Machine W) (v : Value) (name : String) : Except Error (Option Value) := do
  let id ← holder v
  m.heap.getOwn id (Text.bytesOf name)

/-- Sets the value under a name. -/
def set (obj : Value) (name : String) (v : Value) : Work W Unit := do
  let id ← ofExcept (holder obj)
  let key ← allocString (Text.bytesOf name)
  onHeap fun h => h.set id key v

/-- Removes what is under a name. The flag says whether there was something. -/
def delete (obj : Value) (name : String) : Work W Bool := do
  let id ← ofExcept (holder obj)
  let key ← allocString (Text.bytesOf name)
  onHeap fun h => h.delete id key

/-- The names of an object's own properties, in order. -/
def keys (m : Machine W) (v : Value) : Except Error (List Value) := do
  let id ← holder v
  m.heap.keys id

/-- The handle of an array. -/
def arrayId (v : Value) : Except Error ObjectId :=
  match v with
  | .array id => .ok id
  | _ => .error (.type ("array expected, " ++ v.typeName ++ " given"))

/-- The items of an array. -/
def arrayItems (m : Machine W) (v : Value) : Except Error (Array Value) := do
  let id ← arrayId v
  m.heap.items id

/-- Sets an item of an array. -/
def arraySet (arr : Value) (index : Nat) (v : Value) : Work W Unit := do
  let id ← ofExcept (arrayId arr)
  onHeap fun h => h.arraySet id index v

/-- Appends an item to an array. -/
def arrayPush (arr v : Value) : Work W Unit := do
  let id ← ofExcept (arrayId arr)
  onHeap fun h => h.modifyItems id fun items => items.push v

/-- The bytes of a buffer or of a view. -/
def bufferBytes (m : Machine W) (v : Value) : Except Error (List UInt8) :=
  match v with
  | .arrayBuffer id => (m.heap.buffer id).map Bytes.toList
  | .dataView id => do
    let (buffer, offset, length) ← m.heap.view id
    let bytes ← m.heap.buffer buffer
    if offset + length ≤ bytes.size then return bytes.between offset (offset + length)
    else return []
  | _ => .error (.type ("array_buf expected, " ++ v.typeName ++ " given"))

/-! ## Pinned values -/

/-- Pins a value. -/
def own (m : Machine W) (v : Value) : Machine W × RootId :=
  let (roots, id) := m.roots.add v
  ({ m with roots := roots }, id)

/-- Releases a pinned value. The flag says whether it was pinned. -/
def disown (m : Machine W) (id : RootId) : Machine W × Bool :=
  let (roots, live) := m.roots.remove id
  ({ m with roots := roots }, live)

/-- Pins another value in place of a pinned one. The flag says whether that was pinned. -/
def setRoot (m : Machine W) (id : RootId) (v : Value) : Machine W × Bool :=
  let (roots, live) := m.roots.set id v
  ({ m with roots := roots }, live)

/-! ## State -/

/-- Asks the code that is running, or that runs next, to stop. -/
def interrupt (m : Machine W) : Machine W :=
  { m with interrupted := true }

/-- The trace of the latest failure, a line for each entry. -/
def traceText (m : Machine W) : String :=
  String.intercalate "\n" (m.trace.map TraceEntry.text)

end ScriptEngine.Machine
