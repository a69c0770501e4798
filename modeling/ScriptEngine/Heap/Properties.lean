import ScriptEngine.Heap.Basic
/-!
Properties of objects.

The properties of an object have names that differ as byte strings, in the order they were first set;
a property that is removed and set again comes last. A look-up that does not find its name goes on in
the object under the delegation name, until there is none or an object comes up a second time.
-/

namespace ScriptEngine.Heap

/-- The name under which an object holds the one it delegates to. -/
def delegateKey : List UInt8 := Text.bytesOf "__p"

/-- The property of a handle. -/
def property (h : Heap) (id : PropertyId) : Except Error Property :=
  match h.properties.get? id.cell with
  | some p => .ok p
  | none => .error .invalidHandle

/-- Whether a property has a name. -/
def isNamed (h : Heap) (p : Property) (key : List UInt8) : Bool :=
  match p.name with
  | .string s => h.strings.spells s key
  | _ => false

/-- The first of the last `n` properties that has a name: its place and its handle. -/
def findIn (h : Heap) (key : List UInt8) (ids : Array PropertyId) :
    Nat → Except Error (Option (Nat × PropertyId))
  | 0 => .ok none
  | n + 1 =>
    let place := ids.size - (n + 1)
    match ids[place]? with
    | none => .ok none
    | some id =>
      match h.property id with
      | .error e => .error e
      | .ok p => if h.isNamed p key then .ok (some (place, id)) else findIn h key ids n

/-- The property of an object that has a name: its place and its handle. -/
def find (h : Heap) (obj : ObjectId) (key : List UInt8) :
    Except Error (Option (Nat × PropertyId)) :=
  match h.cell obj with
  | .ok cell => h.findIn key cell.properties cell.properties.size
  | .error e => .error e

/-- The value that an object itself has under a name. -/
def getOwn (h : Heap) (obj : ObjectId) (key : List UInt8) : Except Error (Option Value) :=
  match h.find obj key with
  | .ok (some (_, id)) => (h.property id).map fun p => some p.value
  | .ok none => .ok none
  | .error e => .error e

/-- The value under a name, delegation included. `seen` are the objects that were asked; no more
objects than there are slots can be asked. -/
def getFrom (h : Heap) (key : List UInt8) (seen : List ObjectId) (obj : ObjectId) :
    Nat → Except Error (Option Value)
  | 0 => .ok none
  | limit + 1 =>
    if seen.contains obj then .ok none
    else
      match h.getOwn obj key with
      | .error e => .error e
      | .ok (some v) => .ok (some v)
      | .ok none =>
        match h.getOwn obj delegateKey with
        | .error e => .error e
        | .ok holder =>
          match holder.bind Value.propertyHolder? with
          | some next => getFrom h key (obj :: seen) next limit
          | none => .ok none

/-- The value under a name, delegation included. -/
def get (h : Heap) (obj : ObjectId) (key : List UInt8) : Except Error (Option Value) :=
  h.getFrom key [] obj (h.objects.cells.size + 2)

/-- The name that a value spells. -/
def keyBytes (h : Heap) (key : Value) : Except Error (List UInt8) :=
  match h.text? key with
  | some bytes => .ok bytes
  | none => .error (.internal "property key is not a string")

/-- Adds a property behind the others. -/
def addProperty (h : Heap) (obj : ObjectId) (name value : Value) : Heap :=
  let (properties, id, low) := h.properties.alloc ⟨name, value⟩
  let h := { h with properties := properties, needsCollection := h.needsCollection || low }
  h.modifyCell obj fun cell => { cell with properties := cell.properties.push ⟨id⟩ }

/-- Sets a property of an object. -/
def set (h : Heap) (obj : ObjectId) (key value : Value) : EStateM.Result Error Heap Unit :=
  match h.keyBytes key with
  | .error e => .error e h
  | .ok bytes =>
    match h.find obj bytes with
    | .error e => .error e h
    | .ok (some (_, id)) =>
      .ok () { h with properties := h.properties.modify id.cell fun p => { p with value := value } }
    | .ok none => .ok () (h.addProperty obj key value)

/-- Removes a property of an object. Its cell goes with the next sweep. The flag says whether there
was one. -/
def delete (h : Heap) (obj : ObjectId) (key : Value) : EStateM.Result Error Heap Bool :=
  match h.keyBytes key with
  | .error e => .error e h
  | .ok bytes =>
    match h.find obj bytes with
    | .error e => .error e h
    | .ok none => .ok false h
    | .ok (some (place, _)) =>
      .ok true (h.modifyCell obj fun cell =>
        { cell with properties := cell.properties.eraseIdxIfInBounds place })

/-- The names of properties. -/
def namesOf (h : Heap) : List PropertyId → Except Error (List Value)
  | [] => .ok []
  | id :: rest =>
    match h.property id with
    | .error e => .error e
    | .ok p => (namesOf h rest).map fun names => p.name :: names

/-- The names of an object's properties, in order. -/
def keys (h : Heap) (obj : ObjectId) : Except Error (List Value) :=
  match h.cell obj with
  | .ok cell => h.namesOf cell.properties.toList
  | .error e => .error e

/-- The name of the `n`th property of an object. -/
def nthKey (h : Heap) (obj : ObjectId) (n : Nat) : Except Error (Option Value) :=
  match h.cell obj with
  | .ok cell =>
    match cell.properties[n]? with
    | some id => (h.property id).map fun p => some p.name
    | none => .ok none
  | .error e => .error e

end ScriptEngine.Heap
