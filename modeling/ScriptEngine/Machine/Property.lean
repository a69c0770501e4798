import ScriptEngine.Heap.Properties
import ScriptEngine.Machine.Embedding
/-!
Properties of values.

Every kind of value has properties of its own kind: the length of text and of arrays, methods, bytes of
buffers, views and foreign memory. They win over properties that were set; only plain objects and
arrays have those.
-/

namespace ScriptEngine

/-- Largest array index. Larger keys name ordinary properties. -/
def maxArrayIndex : Nat := UInt32.size - 2

/-- The index that a key names: a whole number, or text of digits. -/
def keyIndex? (key : Value) (name : List UInt8) : Option Nat :=
  match key with
  | .number n => n.nat?.filter (· ≤ maxArrayIndex)
  | _ =>
    let digits := name.map fun b => Char.ofNat b.toNat
    if digits.isEmpty || !digits.all Text.isDigit then none
    else Text.ofDigits? maxArrayIndex digits

/-- The names of properties that values have by their kind. -/
inductive KindProperty where
  | length
  | codeAt
  | indexOf
  | slice
  | apply
  | push
  | toText
  | byteLength
  | buffer
  | other
  deriving DecidableEq, Repr

/-- The names of the properties of a kind. -/
def KindProperty.names : List (List UInt8 × KindProperty) :=
  [("length", length), ("at", codeAt), ("charCodeAt", codeAt), ("indexOf", indexOf),
    ("slice", slice), ("apply", apply), ("push", push), ("toString", toText),
    ("byteLength", byteLength), ("buffer", buffer)].map fun (name, p) => (Text.asciiBytes name, p)

/-- The property of a kind that a name can mean. -/
def KindProperty.ofName (name : List UInt8) : KindProperty :=
  ((names.find? fun entry => entry.1 == name).map Prod.snd).getD other

/-- A byte as a number. -/
def byteValue (b : UInt8) : Value :=
  .ofNat b.toNat

/-- The one-byte string at an index of text. -/
def textItem (h : StringHeap) (s : StringRef) (i : Nat) : Value :=
  match h.byte? s i with
  | some b => (Value.ofInline? [b]).getD .undefined
  | none => .undefined

/-- A property of text. -/
def textProperty (h : StringHeap) (s : StringRef) (key : Value) (name : List UInt8) :
    Option Value :=
  match KindProperty.ofName name with
  | .length => some (.ofNat (h.length s))
  | .codeAt => some Builtin.charCodeAt.value
  | .indexOf => some Builtin.indexOf.value
  | .slice => some Builtin.slice.value
  | _ => (keyIndex? key name).map (textItem h s)

namespace Heap

/-- A property of a buffer. -/
def bufferProperty (h : Heap) (id : ObjectId) (key : Value) (name : List UInt8) :
    Except Error (Option Value) := do
  let bytes ← h.buffer id
  match KindProperty.ofName name with
  | .byteLength => return some (.ofNat bytes.size)
  | _ => return (keyIndex? key name).map fun i => (bytes.byte? i).elim .undefined byteValue

/-- A byte of a view, by its index in the view. -/
def viewItem (h : Heap) (buffer : ObjectId) (offset length i : Nat) : Except Error Value :=
  if i < length then do
    let bytes ← h.buffer buffer
    return byteValue ((bytes.byte? (offset + i)).getD 0)
  else .ok .undefined

/-- A property of a view. -/
def viewProperty (h : Heap) (id : ObjectId) (key : Value) (name : List UInt8) :
    Except Error (Option Value) := do
  let (buffer, offset, length) ← h.view id
  match KindProperty.ofName name with
  | .byteLength => do
    let bytes ← h.buffer buffer
    return some (.ofNat bytes.size)
  | .length => return some (.ofNat length)
  | .buffer => return some (.arrayBuffer buffer)
  | _ =>
    match keyIndex? key name with
    | some i => (h.viewItem buffer offset length i).map some
    | none => return none

/-- A property of an array. -/
def arrayProperty (h : Heap) (id : ObjectId) (name : List UInt8) : Except Error (Option Value) :=
  match KindProperty.ofName name with
  | .push => .ok (some Builtin.push.value)
  | .length => (h.items id).map fun items => some (.ofNat items.size)
  | _ => .ok none

end Heap

namespace Machine

variable {W : Type}

/-- A byte of foreign memory. -/
def foreignItem (env : Embedding W) (m : Machine W) (address : Address) (key : Value)
    (name : List UInt8) : Except Error Value :=
  match keyIndex? key name with
  | none => .error (.type "index must be a number")
  | some i => do
    let host ← env.requireHost
    let b ← host.readByte m.world (address.word + UInt64.ofNat i)
    return byteValue b

/-- The property that a value has by its kind. -/
def kindProperty (env : Embedding W) (m : Machine W) (holder key : Value) (name : List UInt8) :
    Except Error (Option Value) :=
  match holder with
  | .string s => .ok (textProperty m.heap.strings s key name)
  | _ =>
    if KindProperty.ofName name = .apply then .ok (some Builtin.apply.value)
    else
      match holder with
      | .number _ =>
        .ok (if KindProperty.ofName name = .toText then some Builtin.toText.value else none)
      | .array id => m.heap.arrayProperty id name
      | .foreign address => (foreignItem env m address key name).map some
      | .arrayBuffer id => m.heap.bufferProperty id key name
      | .dataView id => m.heap.viewProperty id key name
      | _ => .ok none

/-- The property that an object has because it was set, under a name that is no property of its
kind. -/
def ownProperty (m : Machine W) (holder key : Value) (name : List UInt8) : Except Error Value :=
  match holder with
  | .object id => (m.heap.get id name).map fun v => v.getD .undefined
  | .array id =>
    match keyIndex? key name with
    | some i => (m.heap.items id).map fun items => items[i]?.getD .undefined
    | none => (m.heap.get id name).map fun v => v.getD .undefined
  | .arrayBuffer _ | .dataView _ => .ok .undefined
  | _ =>
    .error (.type ("cannot look up [" ++ Text.Utf8.decodeLossy name ++ "] in " ++ holder.typeName))

/-- The value under a key. -/
def property (env : Embedding W) (m : Machine W) (holder key : Value) : Except Error Value := do
  let name ← m.heap.textOf key
  match ← kindProperty env m holder key name with
  | some v => return v
  | none => ownProperty m holder key name

/-- A key as a string. -/
def keyString (key : Value) : Work W Value :=
  if key.isString then pure key
  else do
    let bytes ← inspect fun m => m.heap.textOf key
    allocString bytes

/-- Sets a property that has a name. -/
def setNamed (id : ObjectId) (key v : Value) : Work W Unit := do
  let key ← keyString key
  onHeap fun h => h.set id key v

/-- The index and the byte of an assignment to a place in memory. -/
def byteAssignment (key v : Value) : Except Error (Nat × UInt8) :=
  match key.asNumber?.bind Number.nat? with
  | none => .error (.type "index must be a number")
  | some i =>
    match (v.asNumber?.bind Number.nat?).filter (· ≤ 255) with
    | none => .error (.type "only number 0 .. 255 can be assigned")
    | some b => .ok (min i (UInt64.size - 1), UInt8.ofNat b)

/-- Sets a byte of a view. -/
def setViewItem (id : ObjectId) (i : Nat) (b : UInt8) : Work W Unit :=
  onHeap fun h =>
    match h.view id with
    | .ok (buffer, offset, length) =>
      if i < length then h.setByte buffer (offset + i) i b else .error (Heap.outOfRange i) h
    | .error e => .error e h

/-- Sets a byte of foreign memory. -/
def setForeignItem (env : Embedding W) (address : UInt64) (b : UInt8) : Work W Unit := do
  let host ← ofExcept env.requireHost
  let world ← inspect fun m => host.writeByte m.world address b
  modify fun m => { m with world := world }

/-- Sets the value under a key. -/
def setProperty (env : Embedding W) (holder key v : Value) : Work W Unit :=
  match holder with
  | .object id => setNamed id key v
  | .array id => do
    let name ← inspect fun m => m.heap.textOf key
    match keyIndex? key name with
    | some i => onHeap fun h => h.arraySet id i v
    | none => setNamed id key v
  | .arrayBuffer id => do
    let (i, b) ← ofExcept (byteAssignment key v)
    onHeap fun h => h.setByte id i i b
  | .dataView id => do
    let (i, b) ← ofExcept (byteAssignment key v)
    setViewItem id i b
  | .foreign address => do
    let (i, b) ← ofExcept (byteAssignment key v)
    setForeignItem env (address.word + UInt64.ofNat i) b
  | _ => throw (.type "unsupported object type")

/-- The `n`th key that a walk over an object or an array comes upon. -/
def walkKey (m : Machine W) (holder : Value) (n : Nat) : Except Error (Option Value) :=
  match holder with
  | .object id => m.heap.nthKey id n
  | .array id => (m.heap.items id).map fun items => if n < items.size then some (.ofNat n) else none
  | _ => .error (.type "can't iterate over non-object value")

/-- The innermost of the `n` outermost scopes that declares a name. -/
def declaringScope? (h : Heap) (name : List UInt8) (scopes : Array Value) :
    Nat → Except Error (Option Value)
  | 0 => .ok none
  | n + 1 =>
    let scope := scopes.getD n .undefined
    match scope.propertyHolder? with
    | none => declaringScope? h name scopes n
    | some id =>
      match h.getOwn id name with
      | .error e => .error e
      | .ok (some _) => .ok (some scope)
      | .ok none => declaringScope? h name scopes n

/-- The innermost scope that declares the variable. -/
def findScope (m : Machine W) (name : Value) : Except Error Value := do
  let bytes ← m.heap.keyBytes name
  match ← declaringScope? m.heap bytes m.scopes m.scopes.size with
  | some scope => return scope
  | none => throw (.reference ("[" ++ Text.Utf8.decodeLossy bytes ++ "] is not defined"))

end Machine

end ScriptEngine
