import ScriptEngine.Value
/-!
Values that the embedder keeps alive.

A root is a slot with a generation that moves on when the root is released, so that the name of a
released root never stands for a later one. Released slots are used again, the latest first.
-/

namespace ScriptEngine

/-- One slot. -/
structure RootSlot where
  generation : UInt16
  value : Option Value

/-- The roots of the embedder. -/
structure Roots where
  slots : Array RootSlot
  /-- The released slots; the next one to be used comes last. -/
  free : Array Nat

namespace Roots

def empty : Roots := ⟨#[], #[]⟩

/-- The slot of a root, if the name is still good. -/
def slot? (r : Roots) (id : RootId) : Option RootSlot :=
  (r.slots[id.cell.index.toNat]?).filter fun slot => slot.generation == id.cell.generation

/-- The value of a root. -/
def get? (r : Roots) (id : RootId) : Option Value :=
  (r.slot? id).bind RootSlot.value

/-- A new root. -/
def add (r : Roots) (v : Value) : Roots × RootId :=
  match r.free.back? with
  | some i =>
    let generation := ((r.slots[i]?).map RootSlot.generation).getD 0
    (⟨r.slots.setIfInBounds i ⟨generation, some v⟩, r.free.pop⟩, ⟨⟨UInt32.ofNat i, generation⟩⟩)
  | none => (⟨r.slots.push ⟨0, some v⟩, r.free⟩, ⟨⟨UInt32.ofNat r.slots.size, 0⟩⟩)

/-- Puts another value under a root. The flag says whether the root is live. -/
def set (r : Roots) (id : RootId) (v : Value) : Roots × Bool :=
  if (r.get? id).isSome then
    ({ r with slots := r.slots.setIfInBounds id.cell.index.toNat ⟨id.cell.generation, some v⟩ }, true)
  else (r, false)

/-- Releases a root. The flag says whether it was live. -/
def remove (r : Roots) (id : RootId) : Roots × Bool :=
  if (r.get? id).isSome then
    let i := id.cell.index.toNat
    (⟨r.slots.setIfInBounds i ⟨id.cell.generation + 1, none⟩, r.free.push i⟩, true)
  else (r, false)

/-- The values of all roots. -/
def values (r : Roots) : List Value :=
  r.slots.toList.filterMap RootSlot.value

/-- How many roots there are. -/
def count (r : Roots) : Nat :=
  r.values.length

/-- Changes the value of every root. -/
def map (r : Roots) (f : Value → Value) : Roots :=
  { r with slots := r.slots.map fun slot => { slot with value := slot.value.map f } }

end Roots

end ScriptEngine
