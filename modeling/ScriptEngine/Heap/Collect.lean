import ScriptEngine.Heap.Basic
/-!
Collections.

Marking starts from root values and follows array items, property names and values, and the buffers
of views, with a list of values still to be looked at. Strings have no marks; the offsets that
marking comes upon are the records that compaction keeps, and every value that stays is rewritten to
where its record went.
-/

namespace ScriptEngine

/-- What a collection did. -/
structure CollectStats where
  objectsFreed : Nat
  propertiesFreed : Nat
  signaturesFreed : Nat
  blocksReleased : Nat
  stringBytesReclaimed : Nat
  deriving DecidableEq, Repr

namespace Heap

/-- Marks properties up to the first that was marked before; their names and values go in front of
the values still to be looked at. -/
def markProperties (h : Heap) (work : List Value) : List PropertyId → Heap × List Value
  | [] => (h, work)
  | id :: rest =>
    let (properties, fresh) := h.properties.mark id.cell
    if fresh then
      let work := match properties.get? id.cell with
        | some p => p.value :: p.name :: work
        | none => work
      markProperties { h with properties := properties } work rest
    else ({ h with properties := properties }, work)

/-- The values that an object holds besides its properties, in front of those still to be looked
at. -/
def ObjectKind.held (work : List Value) : ObjectKind → List Value
  | .array items => items.foldl (fun work v => v :: work) work
  | .view buffer _ _ => .arrayBuffer buffer :: work
  | .plain | .buffer _ => work

/-- Marks an object; what it holds goes in front of the values still to be looked at. -/
def markObject (h : Heap) (work : List Value) (id : ObjectId) : Heap × List Value :=
  let (objects, fresh) := h.objects.mark id.cell
  let h := { h with objects := objects }
  if fresh then
    match h.objects.get? id.cell with
    | some cell => h.markProperties (ObjectKind.held work cell.kind) cell.properties.toList
    | none => (h, work)
  else (h, work)

/-- Looks at values until there are none: the heap with its marks, and the offsets of the records come
upon. -/
def markAll (h : Heap) (offsets : List Nat) (work : List Value) : Nat → Heap × List Nat
  | 0 => (h, offsets)
  | limit + 1 =>
    match work with
    | [] => (h, offsets)
    | v :: work =>
      match v with
      | .string (.owned offset) => markAll h (offset.val :: offsets) work limit
      | .object id | .array id | .arrayBuffer id | .dataView id =>
        let (h, work) := h.markObject work id
        markAll h offsets work limit
      | .signature id =>
        let (signatures, _) := h.signatures.mark id.cell
        markAll { h with signatures := signatures } offsets work limit
      | _ => markAll h offsets work limit

/-- How many values a cell can put on the list of those to be looked at. -/
def cellWeight (cell : ObjectCell) : Nat :=
  let held := match cell.kind with
    | .array items => items.size
    | .view _ _ _ => 1
    | .plain | .buffer _ => 0
  held + 2 * cell.properties.size

/-- More values than can be looked at, however they hang together: every object puts what it holds on
the list once. -/
def markLimit (h : Heap) (roots : List Value) : Nat :=
  roots.length + 1
    + h.objects.cells.foldl (fun n cell => n + (cell.map cellWeight).getD 0) 0

/-- Rewrites the values in cells to where their records went. -/
def relocate (h : Heap) (moves : StringHeap.Relocation) : Heap :=
  if moves.isEmpty then h
  else
    { h with
      properties := h.properties.map fun p =>
        ⟨StringHeap.relocate moves p.name, StringHeap.relocate moves p.value⟩
      objects := h.objects.map fun cell =>
        match cell with
        | ⟨properties, .array items⟩ => ⟨properties, .array (items.map (StringHeap.relocate moves))⟩
        | other => other }

/-- Keeps what the roots reach. The moves tell the holders of the roots where records went. A full
collection also gives back string storage beyond `slack`. -/
def collect (h : Heap) (roots : List Value) (full : Bool) (slack : Nat) :
    Heap × StringHeap.Relocation × CollectStats :=
  let (h, offsets) := h.markAll [] roots (h.markLimit roots)
  let (objects, objectStats) := h.objects.sweep
  let (properties, propertyStats) := h.properties.sweep
  let (signatures, signatureStats) := h.signatures.sweep
  let (strings, moves, reclaimed) := h.strings.compact offsets
  let h := Heap.relocate ⟨objects, properties, signatures, strings, false⟩ moves
  let h := if full then { h with strings := h.strings.trim slack } else h
  (h, moves,
    ⟨objectStats.freed, propertyStats.freed, signatureStats.freed,
      objectStats.releasedBlocks + propertyStats.releasedBlocks + signatureStats.releasedBlocks,
      reclaimed⟩)

end Heap

end ScriptEngine
