import Mathlib.Data.Fin.Basic
import ScriptEngine.Ffi.Arg
import ScriptEngine.Heap.Conversion
import ScriptEngine.Heap.Properties
import ScriptEngine.Proofs.Heap.Collection
/-!
Functions under other offsets.

A `Renaming` gives every function another offset. Whatever the engine does to a heap, it does the same to
the heap with its functions renamed: nothing but the offset itself tells one function from another. The
statements follow the operations of the heap, up to collections (`collect_heap`).
-/

namespace ScriptEngine

/-- Other offsets for functions, no two of them alike. -/
structure Renaming where
  offset : Payload → Payload
  injective : Function.Injective offset

namespace Renaming

variable (r : Renaming)

/-! ## Values -/

/-- A value with functions renamed. -/
def value : Value → Value
  | .function offset => .function (r.offset offset)
  | v => v

/-- What an object is, with functions renamed. -/
def kind : ObjectKind → ObjectKind
  | .array items => .array (items.map r.value)
  | k => k

/-- An object with functions renamed. -/
def cell (cell : ObjectCell) : ObjectCell :=
  ⟨cell.properties, r.kind cell.kind⟩

/-- A property with functions renamed. -/
def property (p : Property) : Property :=
  ⟨r.value p.name, r.value p.value⟩

/-- A heap with functions renamed. -/
def heap (h : Heap) : Heap :=
  { h with objects := h.objects.map r.cell, properties := h.properties.map r.property }

/-- What comes of work on a heap, with functions renamed. -/
def result {α β : Type} (f : α → β) : EStateM.Result Error Heap α → EStateM.Result Error Heap β
  | .ok a h => .ok (f a) (r.heap h)
  | .error e h => .error e (r.heap h)

@[simp] theorem value_undefined : r.value .undefined = .undefined := rfl

@[simp] theorem value_string (s : StringRef) : r.value (.string s) = .string s := rfl

@[simp] theorem value_number (n : Number) : r.value (.number n) = .number n := rfl

@[simp] theorem value_ofNat (n : Nat) : r.value (.ofNat n) = .ofNat n := rfl

theorem value_injective : Function.Injective r.value := by
  intro v w h
  cases v <;> cases w <;> simp_all [value, r.injective.eq_iff]

@[simp] theorem value_beq (v w : Value) : (r.value v == r.value w) = (v == w) := by
  rw [Bool.eq_iff_iff]
  simp [r.value_injective.eq_iff]

@[simp] theorem propertyHolder?_value (v : Value) : (r.value v).propertyHolder? = v.propertyHolder? := by
  cases v <;> rfl

@[simp] theorem asNumber?_value (v : Value) : (r.value v).asNumber? = v.asNumber? := by
  cases v <;> rfl

@[simp] theorem toNumber_value (v : Value) : (r.value v).toNumber = v.toNumber := by
  cases v <;> rfl

@[simp] theorem isString_value (v : Value) : (r.value v).isString = v.isString := by
  cases v <;> rfl

@[simp] theorem typeName_value (v : Value) : (r.value v).typeName = v.typeName := by
  cases v <;> rfl

/-! ## Reading -/

variable (h : Heap)

@[simp] theorem strings_heap : (r.heap h).strings = h.strings := rfl

@[simp] theorem signatures_heap : (r.heap h).signatures = h.signatures := rfl

@[simp] theorem needsCollection_heap : (r.heap h).needsCollection = h.needsCollection := rfl

@[simp] theorem text?_value (strings : StringHeap) (v : Value) :
    strings.text? (r.value v) = strings.text? v := by
  cases v <;> rfl

@[simp] theorem text?_heap (v : Value) : (r.heap h).text? (r.value v) = h.text? v :=
  r.text?_value h.strings v

@[simp] theorem truthy_heap (v : Value) : (r.heap h).truthy (r.value v) = h.truthy v := by
  cases v <;> rfl

@[simp] theorem textOf_heap (v : Value) : (r.heap h).textOf (r.value v) = h.textOf v := by
  cases v <;> rfl

@[simp] theorem strictEquals_heap (v w : Value) :
    (r.heap h).strictEquals (r.value v) (r.value w) = h.strictEquals v w := by
  cases v <;> cases w <;> first | rfl | exact r.value_beq _ _

@[simp] theorem foreignFunction_heap (id : SignatureId) :
    (r.heap h).foreignFunction id = h.foreignFunction id := rfl

@[simp] theorem keyBytes_heap (key : Value) : (r.heap h).keyBytes (r.value key) = h.keyBytes key := by
  unfold Heap.keyBytes
  rw [text?_heap]

@[simp] theorem cell_heap (id : ObjectId) : (r.heap h).cell id = (h.cell id).map r.cell := by
  unfold Heap.cell heap
  simp only [Arena.get?_map]
  cases h.objects.get? id.cell <;> rfl

@[simp] theorem property_heap (id : PropertyId) :
    (r.heap h).property id = (h.property id).map r.property := by
  unfold Heap.property heap
  simp only [Arena.get?_map]
  cases h.properties.get? id.cell <;> rfl

@[simp] theorem items_heap (id : ObjectId) :
    (r.heap h).items id = (h.items id).map (Array.map r.value) := by
  unfold Heap.items
  rw [cell_heap]
  rcases h.cell id with e | ⟨properties, kind⟩
  · rfl
  · cases kind <;> rfl

@[simp] theorem buffer_heap (id : ObjectId) : (r.heap h).buffer id = h.buffer id := by
  unfold Heap.buffer
  rw [cell_heap]
  rcases h.cell id with e | ⟨properties, kind⟩
  · rfl
  · cases kind <;> rfl

@[simp] theorem view_heap (id : ObjectId) : (r.heap h).view id = h.view id := by
  unfold Heap.view
  rw [cell_heap]
  rcases h.cell id with e | ⟨properties, kind⟩
  · rfl
  · cases kind <;> rfl

@[simp] theorem isNamed_heap (p : Property) (key : List UInt8) :
    (r.heap h).isNamed (r.property p) key = h.isNamed p key := by
  rcases p with ⟨name, v⟩
  cases name <;> rfl

@[simp] theorem findIn_heap (key : List UInt8) (ids : Array PropertyId) (n : Nat) :
    (r.heap h).findIn key ids n = h.findIn key ids n := by
  induction n with
  | zero => rfl
  | succ n ih =>
    simp only [Heap.findIn]
    cases ids[ids.size - (n + 1)]? with
    | none => rfl
    | some id =>
      simp only [property_heap]
      cases h.property id with
      | error e => rfl
      | ok p => simp only [Except.map, isNamed_heap, ih]

@[simp] theorem find_heap (obj : ObjectId) (key : List UInt8) :
    (r.heap h).find obj key = h.find obj key := by
  unfold Heap.find
  rw [cell_heap]
  cases h.cell obj with
  | error e => rfl
  | ok cell => simp only [Except.map, findIn_heap, Renaming.cell]

@[simp] theorem getOwn_heap (obj : ObjectId) (key : List UInt8) :
    (r.heap h).getOwn obj key = (h.getOwn obj key).map (Option.map r.value) := by
  unfold Heap.getOwn
  rw [find_heap]
  rcases h.find obj key with e | _ | ⟨place, id⟩
  · rfl
  · rfl
  · simp only [property_heap]
    cases h.property id <;> rfl

theorem getFrom_heap (key : List UInt8) (seen : List ObjectId) (obj : ObjectId) (limit : Nat) :
    (r.heap h).getFrom key seen obj limit = (h.getFrom key seen obj limit).map (Option.map r.value) := by
  induction limit generalizing seen obj with
  | zero => rfl
  | succ limit ih =>
    unfold Heap.getFrom
    simp only [getOwn_heap]
    cases seen.contains obj with
    | true => rfl
    | false =>
      rcases h.getOwn obj key with e | _ | v
      · rfl
      · rcases h.getOwn obj Heap.delegateKey with e | _ | v
        · rfl
        · rfl
        · simp only [Except.map, Option.map_some, Option.bind_some, propertyHolder?_value]
          cases v.propertyHolder? with
          | none => rfl
          | some next => exact ih (obj :: seen) next
      · rfl

@[simp] theorem get_heap (obj : ObjectId) (key : List UInt8) :
    (r.heap h).get obj key = (h.get obj key).map (Option.map r.value) := by
  unfold Heap.get
  rw [getFrom_heap]
  simp [heap, Arena.map]

theorem namesOf_heap (ids : List PropertyId) :
    (r.heap h).namesOf ids = (h.namesOf ids).map (List.map r.value) := by
  induction ids with
  | nil => rfl
  | cons id rest ih =>
    unfold Heap.namesOf
    simp only [property_heap, ih]
    cases h.property id with
    | error e => rfl
    | ok p => cases h.namesOf rest <;> rfl

@[simp] theorem nthKey_heap (obj : ObjectId) (n : Nat) :
    (r.heap h).nthKey obj n = (h.nthKey obj n).map (Option.map r.value) := by
  unfold Heap.nthKey
  rw [cell_heap]
  cases h.cell obj with
  | error e => rfl
  | ok cell =>
    simp only [Except.map, Renaming.cell]
    cases cell.properties[n]? with
    | none => rfl
    | some id =>
      simp only [property_heap]
      cases h.property id <;> rfl

/-! ## Changes of arenas -/

end Renaming

namespace Arena

variable {α : Type} (f : α → α) (a : Arena α)

theorem grow_map (cells : Array (Option α)) (size : Nat) :
    grow (cells.map (Option.map f)) size none = (grow cells size none).map (Option.map f) := by
  simp [grow]

theorem addBlock_map : (a.map f).addBlock = a.addBlock.map f := by
  unfold addBlock map
  simp only [grow_map]
  rfl

theorem alloc_map (cell : α) :
    (a.map f).alloc (f cell) = ((a.alloc cell).1.map f, (a.alloc cell).2) := by
  have hready : (if (a.map f).free.isEmpty then (a.map f).addBlock else a.map f)
      = (if a.free.isEmpty then a.addBlock else a).map f := by
    show (if a.free.isEmpty then (a.map f).addBlock else a.map f) = _
    split
    · exact addBlock_map f a
    · rfl
  simp only [alloc, hready]
  simp [map]

theorem modify_map {g k : α → α} (h : ∀ cell, k (f cell) = f (g cell)) (id : CellId) :
    (a.map f).modify id k = (a.modify id g).map f := by
  show (if a.isCurrent id then _ else _) = _
  unfold modify
  split
  · simp only [map]
    congr 1
    apply Array.ext_getElem?
    intro i
    simp only [Array.getElem?_map, Array.getElem?_modify]
    split
    · rcases a.cells[i]? with _ | _ | cell <;> simp [h]
    · rfl
  · rfl

theorem mark_map (id : CellId) : (a.map f).mark id = ((a.mark id).1.map f, (a.mark id).2) := by
  have hcontains : (a.map f).contains id = a.contains id := by
    rw [contains_eq, contains_eq, get?_map, Option.isSome_map]
  simp only [mark, hcontains]
  show (if a.contains id && !a.isMarked id.index.toNat then _ else _) = _
  split <;> rfl

theorem isSome_comp_map : (Option.isSome ∘ Option.map f : Option α → Bool) = Option.isSome := by
  funext cell
  cases cell <;> rfl

theorem keptCells_map : (a.map f).keptCells = a.keptCells.map (Option.map f) := by
  apply Array.ext_getElem?
  intro i
  simp only [keptCells, map, isMarked, Array.getElem?_mapIdx, Array.getElem?_map]
  cases a.cells[i]? with
  | none => rfl
  | some cell =>
    by_cases hmark : a.marks.getD i false = true
    · simp [hmark]
    · simp [hmark]

theorem isGarbage_map (slot : Nat) : (a.map f).isGarbage slot = a.isGarbage slot := by
  simp only [isGarbage, map, isMarked, Array.getD_eq_getD_getElem?, Array.getElem?_map]
  rcases a.cells[slot]? with _ | _ | cell <;> rfl

theorem sweptUsed_map : (a.map f).sweptUsed = a.sweptUsed := by
  have hgarbage : (a.map f).isGarbage = a.isGarbage := funext (isGarbage_map f a)
  unfold sweptUsed
  rw [hgarbage]
  rfl

theorem freeSlots_map (cells : Array (Option α)) (present : Array Bool) :
    (a.map f).freeSlots (cells.map (Option.map f)) present = a.freeSlots cells present := by
  have hvacant (slot : Nat) : ((cells.map (Option.map f)).getD slot none).isNone
      = (cells.getD slot none).isNone := by
    simp only [Array.getD_eq_getD_getElem?, Array.getElem?_map]
    rcases cells[slot]? with _ | _ | cell <;> rfl
  simp only [freeSlots, hvacant, Array.size_map]
  rfl

theorem countP_map (cells : Array (Option α)) :
    (cells.map (Option.map f)).countP Option.isSome = cells.countP Option.isSome := by
  rw [Array.countP_map, isSome_comp_map]

theorem sweep_map : (a.map f).sweep = (a.sweep.1.map f, a.sweep.2) := by
  have hgenerations : (a.map f).sweptGenerations = a.sweptGenerations := by
    simp only [sweptGenerations, isGarbage_map]
    rfl
  have hcount : (a.map f).cells.countP Option.isSome = a.cells.countP Option.isSome :=
    countP_map f a.cells
  have hblocks (used : Array Nat) : (a.map f).keptBlocks used = a.keptBlocks used := rfl
  simp only [sweep, keptCells_map, sweptUsed_map, hblocks, freeSlots_map, countP_map, hgenerations, hcount]
  rfl

end Arena

namespace Renaming

variable (r : Renaming) (h : Heap)

/-! ## Allocation and change -/

theorem newCell_heap (kind : ObjectKind) :
    (r.heap h).newCell (r.kind kind) = (r.heap (h.newCell kind).1, (h.newCell kind).2) := by
  have halloc : (r.heap h).objects.alloc ⟨#[], r.kind kind⟩ = _ :=
    Arena.alloc_map r.cell h.objects ⟨#[], kind⟩
  unfold Heap.newCell
  rw [halloc]
  rfl

theorem newObject_heap : (r.heap h).newObject = (r.heap h.newObject.1, r.value h.newObject.2) := by
  unfold Heap.newObject
  have hcell := r.newCell_heap h .plain
  simp only [kind] at hcell
  rw [hcell]
  rfl

theorem newArray_heap (items : List Value) :
    (r.heap h).newArray (items.map r.value) = (r.heap (h.newArray items).1, r.value (h.newArray items).2) := by
  unfold Heap.newArray
  have hcell := r.newCell_heap h (.array items.toArray)
  simp only [kind, List.map_toArray] at hcell
  rw [hcell]
  rfl

theorem newBuffer_heap (bytes : Bytes) :
    (r.heap h).newBuffer bytes = (r.heap (h.newBuffer bytes).1, r.value (h.newBuffer bytes).2) := by
  unfold Heap.newBuffer
  have hcell := r.newCell_heap h (.buffer bytes)
  simp only [kind] at hcell
  rw [hcell]
  rfl

theorem newView_heap (buffer : ObjectId) (offset length : Nat) :
    (r.heap h).newView buffer offset length
      = (r.heap (h.newView buffer offset length).1, r.value (h.newView buffer offset length).2) := by
  unfold Heap.newView
  have hcell := r.newCell_heap h (.view buffer offset length)
  simp only [kind] at hcell
  rw [hcell]
  rfl

theorem newSignature_heap (f : Ffi.ForeignFunction) :
    (r.heap h).newSignature f = (r.heap (h.newSignature f).1, r.value (h.newSignature f).2) := rfl

theorem modifyCell_heap {f g : ObjectCell → ObjectCell} (hfg : ∀ cell, g (r.cell cell) = r.cell (f cell))
    (id : ObjectId) : (r.heap h).modifyCell id g = r.heap (h.modifyCell id f) := by
  unfold Heap.modifyCell heap
  simp only [Arena.modify_map r.cell h.objects hfg]

theorem modifyItems_heap {f g : Array Value → Array Value}
    (hfg : ∀ items, g (items.map r.value) = (f items).map r.value) (id : ObjectId) :
    (r.heap h).modifyItems id g = r.result (fun u => u) (h.modifyItems id f) := by
  unfold Heap.modifyItems
  rw [cell_heap]
  rcases h.cell id with e | ⟨properties, kind⟩
  · rfl
  · cases kind with
    | array items =>
      refine congrArg (EStateM.Result.ok ()) (r.modifyCell_heap h ?_ id)
      rintro ⟨properties, kind⟩
      cases kind with
      | array items => exact congrArg (fun items => (⟨properties, .array items⟩ : ObjectCell)) (hfg items)
      | _ => rfl
    | _ => rfl

theorem setItem_map (items : Array Value) (index : Nat) (v : Value) :
    Heap.setItem (items.map r.value) index (r.value v) = (Heap.setItem items index v).map r.value := by
  unfold Heap.setItem
  simp only [Array.size_map]
  split
  · simp [Array.map_setIfInBounds]
  · simp

theorem arraySet_heap (id : ObjectId) (index : Nat) (v : Value) :
    (r.heap h).arraySet id index (r.value v) = r.result (fun u => u) (h.arraySet id index v) :=
  r.modifyItems_heap h (fun items => r.setItem_map items index v) id

theorem setByte_heap (id : ObjectId) (index shown : Nat) (b : UInt8) :
    (r.heap h).setByte id index shown b = r.result (fun u => u) (h.setByte id index shown b) := by
  unfold Heap.setByte
  rw [buffer_heap]
  cases (h.buffer id).map Bytes.size with
  | error e => rfl
  | ok size =>
    simp only
    split
    · refine congrArg (EStateM.Result.ok ()) (r.modifyCell_heap h ?_ id)
      rintro ⟨properties, kind⟩
      cases kind <;> rfl
    · rfl

theorem addProperty_heap (obj : ObjectId) (name v : Value) :
    (r.heap h).addProperty obj (r.value name) (r.value v) = r.heap (h.addProperty obj name v) := by
  have halloc : (r.heap h).properties.alloc ⟨r.value name, r.value v⟩ = _ :=
    Arena.alloc_map r.property h.properties ⟨name, v⟩
  unfold Heap.addProperty
  rw [halloc]
  refine r.modifyCell_heap { h with
    properties := (h.properties.alloc ⟨name, v⟩).1
    needsCollection := h.needsCollection || (h.properties.alloc ⟨name, v⟩).2.2 } ?_ obj
  intro cell
  rfl

theorem set_heap (obj : ObjectId) (key v : Value) :
    (r.heap h).set obj (r.value key) (r.value v) = r.result (fun u => u) (h.set obj key v) := by
  unfold Heap.set
  rw [keyBytes_heap]
  cases h.keyBytes key with
  | error e => rfl
  | ok bytes =>
    simp only [find_heap]
    rcases h.find obj bytes with e | _ | ⟨place, id⟩
    · rfl
    · exact congrArg (EStateM.Result.ok ()) (r.addProperty_heap h obj key v)
    · have hmodify := Arena.modify_map r.property h.properties
        (g := fun p => { p with value := v }) (k := fun p => { p with value := r.value v }) (fun p => rfl) id.cell
      exact congrArg (fun properties => EStateM.Result.ok () { r.heap h with properties := properties }) hmodify

theorem delete_heap (obj : ObjectId) (key : Value) :
    (r.heap h).delete obj (r.value key) = r.result (fun known => known) (h.delete obj key) := by
  unfold Heap.delete
  rw [keyBytes_heap]
  cases h.keyBytes key with
  | error e => rfl
  | ok bytes =>
    simp only [find_heap]
    rcases h.find obj bytes with e | _ | ⟨place, id⟩
    · rfl
    · rfl
    · refine congrArg (EStateM.Result.ok true) (r.modifyCell_heap h ?_ obj)
      intro cell
      rfl

/-- Strings are no functions. -/
theorem storeString_heap {store : EStateM Error StringHeap Value}
    (hstore : ∀ strings v strings', store strings = .ok v strings' → r.value v = v) :
    (r.heap h).storeString store = r.result r.value (h.storeString store) := by
  unfold Heap.storeString
  rw [strings_heap]
  cases hs : store h.strings with
  | ok v strings => simp only [result, hstore _ _ _ hs]; rfl
  | error e strings => rfl

theorem value_ofInline? {bytes : List UInt8} {v : Value} (h : Value.ofInline? bytes = some v) :
    r.value v = v := by
  obtain ⟨text, -, rfl⟩ := Option.map_eq_some_iff.mp h
  rfl

theorem value_allocRecord {strings strings' : StringHeap} {text : ByteArray} {v : Value}
    (h : strings.allocRecord text = .ok v strings') : r.value v = v := by
  unfold StringHeap.allocRecord Value.ofOwned? at h
  cases hword : Payload.ofWord? (UInt64.ofNat strings.data.size) with
  | error e => simp [hword, Except.map] at h
  | ok p =>
    simp only [hword, Except.map] at h
    cases h
    rfl

theorem value_alloc {strings strings' : StringHeap} {bytes : List UInt8} {v : Value}
    (h : strings.alloc bytes = .ok v strings') : r.value v = v := by
  unfold StringHeap.alloc at h
  split at h
  · rename_i w hw
    cases h
    exact r.value_ofInline? hw
  · exact r.value_allocRecord h

theorem newString_heap (bytes : List UInt8) :
    (r.heap h).newString bytes = r.result r.value (h.newString bytes) :=
  r.storeString_heap h fun _ _ _ hstore => r.value_alloc hstore

theorem concatStrings_heap (s t : StringRef) :
    (r.heap h).concatStrings s t = r.result r.value (h.concatStrings s t) := by
  refine r.storeString_heap h fun strings v strings' hstore => ?_
  unfold StringHeap.concat at hstore
  split at hstore
  · exact r.value_alloc hstore
  · exact r.value_allocRecord hstore

theorem lendString_heap (lender : Lender) (bytes : List UInt8) :
    (r.heap h).lendString lender bytes = r.result r.value (h.lendString lender bytes) := by
  unfold Heap.lendString StringHeap.lend
  rw [strings_heap]
  cases hinline : Value.ofInline? bytes with
  | some v => simp only [result, r.value_ofInline? hinline]; rfl
  | none =>
    unfold Value.ofForeignText?
    simp only
    cases Payload.ofWord? _ with
    | error e => rfl
    | ok p => rfl

theorem toValue_heap (type : Ffi.CType) (arg : Ffi.Arg) :
    Ffi.Arg.toValue (r.heap h) type arg = r.result r.value (Ffi.Arg.toValue h type arg) := by
  unfold Ffi.Arg.toValue
  split
  case h_7 | h_8 => exact r.newString_heap h _
  case h_9 => split <;> rfl
  case h_10 address =>
    split
    · rfl
    · unfold Value.ofAddress?
      cases Address.ofWord? address <;> rfl
  all_goals rfl

theorem ofValue_heap (trampoline : Option UInt64) (withCallback : Bool) (i : Nat) (type : Ffi.CType)
    (v : Value) : Ffi.Arg.ofValue (r.heap h) trampoline withCallback i type (r.value v)
      = Ffi.Arg.ofValue h trampoline withCallback i type v := by
  cases type <;> cases v <;> rfl

/-! ## Collections -/

theorem markProperties_heap (work : List Value) (ids : List PropertyId) :
    (r.heap h).markProperties (work.map r.value) ids
      = (r.heap (h.markProperties work ids).1, (h.markProperties work ids).2.map r.value) := by
  induction ids generalizing h work with
  | nil => rfl
  | cons id rest ih =>
    have hmark : (r.heap h).properties.mark id.cell = _ := Arena.mark_map r.property h.properties id.cell
    unfold Heap.markProperties
    rw [hmark]
    cases hfresh : (h.properties.mark id.cell).2 with
    | false => simp only [hfresh]; rfl
    | true =>
      simp only [hfresh, if_true, Arena.get?_map]
      cases (h.properties.mark id.cell).1.get? id.cell with
      | none => exact ih { h with properties := (h.properties.mark id.cell).1 } work
      | some p => exact ih { h with properties := (h.properties.mark id.cell).1 } (p.value :: p.name :: work)

theorem held_kind (work : List Value) (kind : ObjectKind) :
    Heap.ObjectKind.held (work.map r.value) (r.kind kind) = (Heap.ObjectKind.held work kind).map r.value := by
  cases kind with
  | array items =>
    simp only [Renaming.kind, Heap.ObjectKind.held]
    rw [← Array.foldl_toList, ← Array.foldl_toList, Array.toList_map]
    induction items.toList generalizing work with
    | nil => rfl
    | cons v vs ih => exact ih (v :: work)
  | _ => rfl

theorem markObject_heap (work : List Value) (id : ObjectId) :
    (r.heap h).markObject (work.map r.value) id
      = (r.heap (h.markObject work id).1, (h.markObject work id).2.map r.value) := by
  have hmark : (r.heap h).objects.mark id.cell = _ := Arena.mark_map r.cell h.objects id.cell
  unfold Heap.markObject
  rw [hmark]
  cases hfresh : (h.objects.mark id.cell).2 with
  | false => simp only [hfresh]; rfl
  | true =>
    simp only [hfresh, if_true, Arena.get?_map]
    cases (h.objects.mark id.cell).1.get? id.cell with
    | none => rfl
    | some cell =>
      simp only [Option.map_some, Renaming.cell, held_kind]
      exact r.markProperties_heap { h with objects := (h.objects.mark id.cell).1 } _ _

theorem markAll_heap (offsets : List Nat) (work : List Value) (limit : Nat) :
    (r.heap h).markAll offsets (work.map r.value) limit
      = (r.heap (h.markAll offsets work limit).1, (h.markAll offsets work limit).2) := by
  induction limit generalizing h offsets work with
  | zero => rfl
  | succ limit ih =>
    cases work with
    | nil => rfl
    | cons v work =>
      have hobject (id : ObjectId) : ((r.heap h).markObject (work.map r.value) id).1.markAll offsets
          ((r.heap h).markObject (work.map r.value) id).2 limit
            = (r.heap ((h.markObject work id).1.markAll offsets (h.markObject work id).2 limit).1,
              ((h.markObject work id).1.markAll offsets (h.markObject work id).2 limit).2) := by
        rw [r.markObject_heap h work id]
        exact ih _ offsets _
      cases v with
      | object id | array id | arrayBuffer id | dataView id => exact hobject id
      | signature id =>
        exact ih { h with signatures := (h.signatures.mark id.cell).1 } offsets work
      | string s =>
        cases s with
        | owned offset => exact ih h (offset.val :: offsets) work
        | _ => exact ih h offsets work
      | _ => exact ih h offsets work

theorem markLimit_heap (roots : List Value) :
    (r.heap h).markLimit (roots.map r.value) = h.markLimit roots := by
  have hweight (cell : ObjectCell) : Heap.cellWeight (r.cell cell) = Heap.cellWeight cell := by
    rcases cell with ⟨properties, kind⟩
    cases kind <;> simp [Heap.cellWeight, Renaming.cell, kind]
  unfold Heap.markLimit heap Arena.map
  simp only [List.length_map, Array.foldl_map]
  congr 2
  funext n cell
  cases cell <;> simp [hweight]

theorem relocate_value (moves : StringHeap.Relocation) (v : Value) :
    StringHeap.relocate moves (r.value v) = r.value (StringHeap.relocate moves v) := by
  cases v with
  | string s =>
    cases s with
    | owned offset =>
      simp only [value_string, StringHeap.relocate]
      split
      · split <;> rfl
      · rfl
    | _ => rfl
  | _ => rfl

theorem relocate_heap (moves : StringHeap.Relocation) :
    (r.heap h).relocate moves = r.heap (h.relocate moves) := by
  unfold Heap.relocate
  split
  · rfl
  · simp only [heap, Arena.map, Array.map_map]
    congr 2
    · congr 1
      funext cell
      cases cell with
      | none => rfl
      | some cell =>
        rcases cell with ⟨properties, kind⟩
        cases kind <;> simp [Renaming.cell, kind, relocate_value]
    · congr 1
      funext p
      cases p <;> simp [Renaming.property, relocate_value]

theorem collect_heap (roots : List Value) (full : Bool) (slack : Nat) :
    (r.heap h).collect (roots.map r.value) full slack
      = (r.heap (h.collect roots full slack).1, (h.collect roots full slack).2) := by
  have hmarked := r.markAll_heap h [] roots (h.markLimit roots)
  unfold Heap.collect
  rw [markLimit_heap, hmarked]
  generalize h.markAll [] roots (h.markLimit roots) = marked
  have hobjects : (r.heap marked.1).objects.sweep = _ := Arena.sweep_map r.cell marked.1.objects
  have hproperties : (r.heap marked.1).properties.sweep = _ :=
    Arena.sweep_map r.property marked.1.properties
  simp only [hobjects, hproperties]
  have hrelocate := r.relocate_heap ⟨marked.1.objects.sweep.1, marked.1.properties.sweep.1,
    marked.1.signatures.sweep.1, (marked.1.strings.compact marked.2).1, false⟩
    (marked.1.strings.compact marked.2).2.1
  have hswept : (⟨marked.1.objects.sweep.1.map r.cell, marked.1.properties.sweep.1.map r.property,
      (r.heap marked.1).signatures.sweep.1, ((r.heap marked.1).strings.compact marked.2).1, false⟩ : Heap)
      = r.heap ⟨marked.1.objects.sweep.1, marked.1.properties.sweep.1, marked.1.signatures.sweep.1,
        (marked.1.strings.compact marked.2).1, false⟩ := rfl
  rw [hswept, strings_heap, hrelocate]
  cases full <;> rfl

end Renaming

end ScriptEngine
