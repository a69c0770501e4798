import ScriptEngine.Handle
/-!
Arenas of cells.

Cells come in blocks of a fixed number. A slot is free or holds a cell; a handle is good while its
slot holds the cell it was made for, which its generation tells. A sweep frees the cells that were
not marked, moves their generations on and gives back blocks that hold nothing, the first one
excepted. Generations and marks outlive a block that is given back, so a handle into it stays bad.
-/

namespace ScriptEngine

/-- How full an arena is. -/
structure ArenaStats where
  blocks : Nat
  live : Nat
  free : Nat
  deriving DecidableEq, Repr

/-- What a sweep did. -/
structure SweepStats where
  freed : Nat
  releasedBlocks : Nat
  deriving DecidableEq, Repr

/-- Cells of one kind. -/
structure Arena (α : Type) where
  cellsPerBlock : Nat
  /-- An allocation that leaves fewer free cells reports it. -/
  reserve : Nat
  /-- Which blocks are held. -/
  present : Array Bool
  /-- How many cells of each block are taken. -/
  used : Array Nat
  /-- The cells of all blocks, those given back included, which hold nothing. -/
  cells : Array (Option α)
  generations : Array UInt16
  marks : Array Bool
  /-- The free slots of the blocks held; the next one to be used comes last. -/
  free : Array Nat

namespace Arena

variable {α : Type}

/-- The slots of a block. -/
def slotsOf (a : Arena α) (block : Nat) : List Nat :=
  (List.range a.cellsPerBlock).map fun i => block * a.cellsPerBlock + i

/-- Lengthens an array. -/
def grow {β : Type} (xs : Array β) (size : Nat) (x : β) : Array β :=
  xs ++ Array.replicate (size - xs.size) x

/-- Takes the first block that is not held, or one more. Its slots are used in rising order. -/
def addBlock (a : Arena α) : Arena α :=
  let block := (a.present.findIdx? fun held => !held).getD a.present.size
  let present :=
    if block < a.present.size then a.present.setIfInBounds block true else a.present.push true
  let slots := present.size * a.cellsPerBlock
  { a with
    present := present
    used := (grow a.used present.size 0).setIfInBounds block 0
    cells := grow a.cells slots none
    generations := grow a.generations slots 0
    marks := grow a.marks slots false
    free := a.free ++ (a.slotsOf block).reverse.toArray }

/-- An arena with one block; a block has at least one cell. -/
def empty (cellsPerBlock reserve : Nat) : Arena α :=
  addBlock ⟨max cellsPerBlock 1, reserve, #[], #[], #[], #[], #[], #[]⟩

/-- Whether a handle's generation is that of its slot. -/
def isCurrent (a : Arena α) (id : CellId) : Bool :=
  (a.generations[id.index.toNat]?).any (· == id.generation)

/-- The cell of a handle. -/
def get? (a : Arena α) (id : CellId) : Option α :=
  if a.isCurrent id then a.cells.getD id.index.toNat none else none

/-- Whether a handle has a cell. -/
def contains (a : Arena α) (id : CellId) : Bool :=
  a.isCurrent id && (a.cells.getD id.index.toNat none).isSome

/-- Changes the cell of a handle, if there is one. -/
def modify (a : Arena α) (id : CellId) (f : α → α) : Arena α :=
  if a.isCurrent id then
    { a with cells := a.cells.modify id.index.toNat fun cell => cell.map f }
  else a

/-- Puts a cell into the next free slot. The flag says that fewer slots are free than the reserve. -/
def alloc (a : Arena α) (cell : α) : Arena α × CellId × Bool :=
  let a := if a.free.isEmpty then a.addBlock else a
  let slot := a.free.back?.getD 0
  let id : CellId := ⟨UInt32.ofNat slot, (a.generations[slot]?).getD 0⟩
  let free := a.free.pop
  let low := free.size < a.reserve
  ({ a with
      used := a.used.modify (slot / a.cellsPerBlock) (· + 1)
      cells := a.cells.setIfInBounds slot (some cell)
      free := free },
    id, low)

/-- Whether the cell of a slot is marked. -/
def isMarked (a : Arena α) (slot : Nat) : Bool :=
  a.marks.getD slot false

/-- Marks the cell of a handle. The flag says that it was there and not marked before. -/
def mark (a : Arena α) (id : CellId) : Arena α × Bool :=
  let slot := id.index.toNat
  if a.contains id && !a.isMarked slot then
    ({ a with marks := a.marks.setIfInBounds slot true }, true)
  else (a, false)

/-- The cells that a sweep keeps. -/
def keptCells (a : Arena α) : Array (Option α) :=
  a.cells.mapIdx fun slot cell => if a.isMarked slot then cell else none

/-- Whether a slot holds a cell that a sweep frees. -/
def isGarbage (a : Arena α) (slot : Nat) : Bool :=
  (a.cells.getD slot none).isSome && !a.isMarked slot

/-- The generations behind a sweep. -/
def sweptGenerations (a : Arena α) : Array UInt16 :=
  a.generations.mapIdx fun slot g => if a.isGarbage slot then g + 1 else g

/-- How many cells of each block are taken behind a sweep. -/
def sweptUsed (a : Arena α) : Array Nat :=
  a.used.mapIdx fun block n => n - (a.slotsOf block).countP a.isGarbage

/-- The blocks that a sweep keeps, by how many of their cells are taken behind it. -/
def keptBlocks (a : Arena α) (used : Array Nat) : Array Bool :=
  a.present.mapIdx fun block held => held && (block == 0 || used.getD block 0 != 0)

/-- The free slots of the blocks held, in falling order. -/
def freeSlots (a : Arena α) (cells : Array (Option α)) (present : Array Bool) : Array Nat :=
  ((Array.range cells.size).filter fun slot =>
    (cells.getD slot none).isNone && present.getD (slot / a.cellsPerBlock) false).reverse

/-- The blocks up to the last one that is held. -/
def trimBlocks (present : Array Bool) : Array Bool :=
  present.popWhile fun held => !held

/-- Frees what is not marked and takes all marks away. -/
def sweep (a : Arena α) : Arena α × SweepStats :=
  let cells := a.keptCells
  let used := a.sweptUsed
  let present := a.keptBlocks used
  let freed := a.cells.countP Option.isSome - cells.countP Option.isSome
  ({ a with
      present := trimBlocks present
      used := used
      cells := cells
      generations := a.sweptGenerations
      marks := Array.replicate a.marks.size false
      free := a.freeSlots cells present },
    ⟨freed, a.present.count true - present.count true⟩)

/-- Changes every cell. -/
def map (a : Arena α) (f : α → α) : Arena α :=
  { a with cells := a.cells.map fun cell => cell.map f }

/-- How full the arena is. -/
def stats (a : Arena α) : ArenaStats :=
  let live := a.present.zipWith (fun held n => if held then n else 0) a.used
  ⟨a.present.count true, live.foldl (· + ·) 0, a.free.size⟩

end Arena

end ScriptEngine
