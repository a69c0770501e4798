import ScriptEngine.Ffi.Signature
import ScriptEngine.Heap.Arena
import ScriptEngine.Heap.Bytes
import ScriptEngine.Heap.Strings
import ScriptEngine.Options
/-!
The heap: objects, their properties, foreign functions and strings.

An object is plain, an array, an array buffer, or a view of one. Objects and properties have arenas
of their own; an object lists its properties in the order they were first set. Every allocation
notes when it is time for a collection. A change that fails gives the heap back as it was.
-/

namespace ScriptEngine

/-- What an object is besides its properties. -/
inductive ObjectKind where
  | plain
  | array (items : Array Value)
  | buffer (bytes : Bytes)
  /-- `length` bytes of a buffer from `offset` on. -/
  | view (buffer : ObjectId) (offset length : Nat)

/-- An object. -/
structure ObjectCell where
  properties : Array PropertyId
  kind : ObjectKind

/-- A property. -/
structure Property where
  name : Value
  value : Value

/-- The heap. -/
structure Heap where
  objects : Arena ObjectCell
  properties : Arena Property
  signatures : Arena Ffi.ForeignFunction
  strings : StringHeap
  /-- An allocation asked for a collection. -/
  needsCollection : Bool

namespace Heap

/-- A heap without objects. -/
def empty (o : Options) : Heap :=
  ⟨.empty o.objectCellsPerBlock o.objectReserve, .empty o.propertyCellsPerBlock o.propertyReserve,
    .empty o.signatureCellsPerBlock o.signatureReserve, .empty o.stringHeapSize o.stringRatio, false⟩

/-- A new object. -/
def newCell (h : Heap) (kind : ObjectKind) : Heap × ObjectId :=
  let (objects, id, low) := h.objects.alloc ⟨#[], kind⟩
  ({ h with objects := objects, needsCollection := h.needsCollection || low }, ⟨id⟩)

def newObject (h : Heap) : Heap × Value :=
  let (h, id) := h.newCell .plain
  (h, .object id)

def newArray (h : Heap) (items : List Value) : Heap × Value :=
  let (h, id) := h.newCell (.array items.toArray)
  (h, .array id)

def newBuffer (h : Heap) (bytes : Bytes) : Heap × Value :=
  let (h, id) := h.newCell (.buffer bytes)
  (h, .arrayBuffer id)

def newView (h : Heap) (buffer : ObjectId) (offset length : Nat) : Heap × Value :=
  let (h, id) := h.newCell (.view buffer offset length)
  (h, .dataView id)

/-- A new foreign function. -/
def newSignature (h : Heap) (f : Ffi.ForeignFunction) : Heap × Value :=
  let (signatures, id, low) := h.signatures.alloc f
  ({ h with signatures := signatures, needsCollection := h.needsCollection || low },
    .signature ⟨id⟩)

/-- Stores a string. Short texts too look at how full the buffer is. -/
def storeString (h : Heap) (store : EStateM Error StringHeap Value) : EStateM.Result Error Heap Value :=
  match store h.strings with
  | .ok v strings =>
    .ok v { h with
      strings := strings
      needsCollection := h.needsCollection || strings.overThreshold }
  | .error e strings => .error e { h with strings := strings }

/-- A new string. -/
def newString (h : Heap) (bytes : List UInt8) : EStateM.Result Error Heap Value :=
  h.storeString fun strings => strings.alloc bytes

/-- A new string of two others, one behind the other. -/
def concatStrings (h : Heap) (s t : StringRef) : EStateM.Result Error Heap Value :=
  h.storeString fun strings => strings.concat s t

/-- A string that refers to a borrowed text. -/
def lendString (h : Heap) (lender : Lender) (bytes : List UInt8) :
    EStateM.Result Error Heap Value :=
  match h.strings.lend lender bytes with
  | .ok v strings => .ok v { h with strings := strings }
  | .error e strings => .error e { h with strings := strings }

/-- The bytes of a string value. -/
def text? (h : Heap) (v : Value) : Option (List UInt8) :=
  h.strings.text? v

/-- The object of a handle. -/
def cell (h : Heap) (id : ObjectId) : Except Error ObjectCell :=
  match h.objects.get? id.cell with
  | some cell => .ok cell
  | none => .error .invalidHandle

/-- The foreign function of a handle. -/
def foreignFunction (h : Heap) (id : SignatureId) : Except Error Ffi.ForeignFunction :=
  match h.signatures.get? id.cell with
  | some f => .ok f
  | none => .error .invalidHandle

/-- Changes an object. -/
def modifyCell (h : Heap) (id : ObjectId) (f : ObjectCell → ObjectCell) : Heap :=
  { h with objects := h.objects.modify id.cell f }

/-! ## Arrays -/

/-- The items of an array. -/
def items (h : Heap) (id : ObjectId) : Except Error (Array Value) :=
  match h.cell id with
  | .ok ⟨_, .array items⟩ => .ok items
  | .ok _ => .error (.type "not an array")
  | .error e => .error e

/-- Changes the items of an array. -/
def modifyItems (h : Heap) (id : ObjectId) (f : Array Value → Array Value) :
    EStateM.Result Error Heap Unit :=
  match h.cell id with
  | .ok ⟨_, .array _⟩ =>
    .ok () (h.modifyCell id fun cell =>
      match cell with
      | ⟨properties, .array items⟩ => ⟨properties, .array (f items)⟩
      | other => other)
  | .ok _ => .error (.type "not an array") h
  | .error e => .error e h

/-- Items with one of them set; those between the end and a place behind it are undefined. -/
def setItem (items : Array Value) (index : Nat) (v : Value) : Array Value :=
  if index < items.size then items.setIfInBounds index v
  else (items ++ Array.replicate (index - items.size) Value.undefined).push v

/-- Sets an item of an array. -/
def arraySet (h : Heap) (id : ObjectId) (index : Nat) (v : Value) :
    EStateM.Result Error Heap Unit :=
  h.modifyItems id fun items => setItem items index v

/-! ## Buffers and views -/

/-- The bytes of a buffer. -/
def buffer (h : Heap) (id : ObjectId) : Except Error Bytes :=
  match h.cell id with
  | .ok ⟨_, .buffer bytes⟩ => .ok bytes
  | .ok _ => .error (.type "not an array buffer")
  | .error e => .error e

/-- The buffer, offset and length of a view. -/
def view (h : Heap) (id : ObjectId) : Except Error (ObjectId × Nat × Nat) :=
  match h.cell id with
  | .ok ⟨_, .view buffer offset length⟩ => .ok (buffer, offset, length)
  | .ok _ => .error (.type "not a data view")
  | .error e => .error e

/-- An index that is behind the end. -/
def outOfRange (index : Nat) : Error :=
  .type ("index " ++ toString index ++ " is out of range")

/-- Sets a byte of a buffer; `shown` is the index that an error names. -/
def setByte (h : Heap) (id : ObjectId) (index shown : Nat) (b : UInt8) :
    EStateM.Result Error Heap Unit :=
  match (h.buffer id).map Bytes.size with
  | .ok size =>
    if index < size then
      .ok () (h.modifyCell id fun cell =>
        match cell with
        | ⟨properties, .buffer bytes⟩ => ⟨properties, .buffer (bytes.set index b)⟩
        | other => other)
    else .error (outOfRange shown) h
  | .error e => .error e h

/-- How full the heap is. -/
structure Stats where
  objects : ArenaStats
  properties : ArenaStats
  signatures : ArenaStats
  stringBytes : Nat
  stringCapacity : Nat
  deriving DecidableEq, Repr

def stats (h : Heap) : Stats :=
  ⟨h.objects.stats, h.properties.stats, h.signatures.stats, h.strings.data.size, h.strings.size⟩

end Heap

end ScriptEngine
