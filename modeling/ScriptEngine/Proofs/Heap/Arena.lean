import Mathlib.Data.List.Nodup
import ScriptEngine.Heap.Arena
/-!
Arenas as partial maps from handles to cells.

`Arena.Sound` is what every arena keeps to: the free slots are exactly the vacant ones of the blocks
held, each once. Each operation has one statement about the arena's answers (`get?_alloc`,
`get?_modify`, `get?_mark`, `get?_sweep`) and one about what it keeps.
-/

namespace ScriptEngine.Arena

variable {α : Type}

/-- Whether a slot holds a cell. -/
def isTaken (a : Arena α) (slot : Nat) : Bool :=
  (a.cells.getD slot none).isSome

/-- How many slots of a block hold cells. -/
def takenIn (a : Arena α) (block : Nat) : Nat :=
  (a.slotsOf block).countP a.isTaken

/-- What every arena keeps to, marks aside. -/
structure Sound (a : Arena α) : Prop where
  perBlock_pos : 0 < a.cellsPerBlock
  generations_size : a.generations.size = a.cells.size
  marks_size : a.marks.size = a.cells.size
  room : a.present.size * a.cellsPerBlock ≤ a.cells.size
  /-- A cell is in a block that is held. -/
  held : ∀ slot cell, a.cells[slot]? = some (some cell) →
    a.present[slot / a.cellsPerBlock]? = some true
  used_eq : ∀ block : Nat, a.present[block]? = some true → a.used[block]? = some (a.takenIn block)
  mem_free : ∀ slot, slot ∈ a.free.toList ↔
    a.cells[slot]? = some none ∧ a.present[slot / a.cellsPerBlock]? = some true
  free_nodup : a.free.toList.Nodup

/-- Between collections nothing is marked. -/
def Unmarked (a : Arena α) : Prop :=
  ∀ slot, a.isMarked slot = false

/-- Every slot has a number that a handle can carry. -/
def Addressable (a : Arena α) : Prop :=
  a.cells.size ≤ UInt32.size

instance (a : Arena α) : Decidable a.Addressable :=
  inferInstanceAs (Decidable (a.cells.size ≤ UInt32.size))

/-! ## Taken slots -/

theorem isTaken_eq_true {a : Arena α} {slot : Nat} :
    a.isTaken slot = true ↔ ∃ cell, a.cells[slot]? = some (some cell) := by
  unfold isTaken
  rw [Array.getD_eq_getD_getElem?]
  rcases a.cells[slot]? with _ | _ | cell <;> simp

/-- A count depends on which slots are taken only. -/
theorem takenIn_congr (a b : Arena α) (hper : b.cellsPerBlock = a.cellsPerBlock)
    (htaken : ∀ slot, b.isTaken slot = a.isTaken slot) (block : Nat) : b.takenIn block = a.takenIn block := by
  have hsame : b.isTaken = a.isTaken := funext htaken
  unfold takenIn slotsOf
  rw [hper, hsame]

/-! ## Answers -/

theorem id_ext {id id' : CellId} (hindex : id.index.toNat = id'.index.toNat)
    (hgen : id.generation = id'.generation) : id = id' := by
  cases id; cases id'
  simp only [CellId.mk.injEq]
  exact ⟨UInt32.toNat_inj.1 hindex, hgen⟩

theorem get?_eq_some {a : Arena α} {id : CellId} {cell : α} :
    a.get? id = some cell ↔
      a.generations[id.index.toNat]? = some id.generation ∧
        a.cells[id.index.toNat]? = some (some cell) := by
  unfold get? isCurrent
  cases hg : a.generations[id.index.toNat]? with
  | none => simp
  | some g =>
    by_cases hgen : g = id.generation
    · subst hgen
      cases hc : a.cells[id.index.toNat]? with
      | none => simp [Array.getD_eq_getD_getElem?, hc]
      | some c => simp [Array.getD_eq_getD_getElem?, hc]
    · simp [hgen]

theorem contains_eq (a : Arena α) (id : CellId) : a.contains id = (a.get? id).isSome := by
  unfold contains get?
  cases a.isCurrent id <;> simp

/-- Two live handles of one slot are the same. -/
theorem eq_of_index_eq {a : Arena α} {id id' : CellId} {cell cell' : α}
    (h : a.get? id = some cell) (h' : a.get? id' = some cell') (hindex : id.index = id'.index) :
    id = id' := by
  obtain ⟨hg, -⟩ := get?_eq_some.1 h
  obtain ⟨hg', -⟩ := get?_eq_some.1 h'
  rw [hindex, hg', Option.some.injEq] at hg
  cases id; cases id'
  simp_all

/-- An answer depends on cells and generations only. -/
theorem get?_congr {a b : Arena α} (hcells : b.cells = a.cells)
    (hgens : b.generations = a.generations) (id : CellId) : b.get? id = a.get? id := by
  unfold get? isCurrent
  rw [hcells, hgens]

/-! ## More blocks -/

theorem size_grow {β : Type} (xs : Array β) (size : Nat) (x : β) :
    (grow xs size x).size = max xs.size size := by
  simp [grow]
  omega

theorem getElem?_grow {β : Type} (xs : Array β) (size : Nat) (x : β) (i : Nat) :
    (grow xs size x)[i]?
      = if i < xs.size then xs[i]? else if i < size then some x else none := by
  unfold grow
  rw [Array.getElem?_append]
  split
  · rfl
  · rw [Array.getElem?_replicate]
    split <;> split <;> first | rfl | omega

/-- The number of the block that `addBlock` takes. -/
def nextBlock (a : Arena α) : Nat :=
  (a.present.findIdx? fun held => !held).getD a.present.size

theorem nextBlock_le (a : Arena α) : a.nextBlock ≤ a.present.size := by
  unfold nextBlock
  cases h : a.present.findIdx? fun held => !held with
  | none => simp
  | some i =>
    have := (Array.findIdx?_eq_some_iff_getElem.1 h).1
    simp
    omega

/-- The block taken was not held. -/
theorem present_nextBlock (a : Arena α) : a.present[a.nextBlock]? ≠ some true := by
  unfold nextBlock
  cases h : a.present.findIdx? fun held => !held with
  | none => simp
  | some i =>
    obtain ⟨hi, hheld, -⟩ := Array.findIdx?_eq_some_iff_getElem.1 h
    simp only [Option.getD_some]
    rw [Array.getElem?_eq_getElem hi]
    simpa using hheld

theorem present_addBlock (a : Arena α) :
    a.addBlock.present = if a.nextBlock < a.present.size
      then a.present.setIfInBounds a.nextBlock true else a.present.push true := rfl

theorem size_present_addBlock (a : Arena α) :
    a.addBlock.present.size = max a.present.size (a.nextBlock + 1) := by
  have hle := a.nextBlock_le
  rw [present_addBlock]
  split <;> simp <;> omega

theorem getElem?_present_addBlock (a : Arena α) (block : Nat) :
    a.addBlock.present[block]? = if block = a.nextBlock then some true else a.present[block]? := by
  have hle := a.nextBlock_le
  rw [present_addBlock]
  by_cases hlt : a.nextBlock < a.present.size
  · rw [if_pos hlt, Array.getElem?_setIfInBounds]
    by_cases hb : a.nextBlock = block
    · simp [← hb, hlt]
    · simp [hb, Ne.symm hb]
  · have heq : a.nextBlock = a.present.size := by omega
    rw [if_neg hlt, Array.getElem?_push, heq]

theorem cells_addBlock (a : Arena α) :
    a.addBlock.cells = grow a.cells (a.addBlock.present.size * a.cellsPerBlock) none := rfl

theorem generations_addBlock (a : Arena α) :
    a.addBlock.generations = grow a.generations (a.addBlock.present.size * a.cellsPerBlock) 0 := rfl

theorem used_addBlock (a : Arena α) :
    a.addBlock.used = (grow a.used a.addBlock.present.size 0).setIfInBounds a.nextBlock 0 := rfl

theorem free_addBlock (a : Arena α) :
    a.addBlock.free.toList = a.free.toList ++ (a.slotsOf a.nextBlock).reverse := by
  simp [addBlock, nextBlock]

theorem size_cells_addBlock (a : Arena α) : a.cells.size ≤ a.addBlock.cells.size := by
  rw [cells_addBlock, size_grow]
  exact Nat.le_max_left _ _

theorem mem_slotsOf {a : Arena α} (hpos : 0 < a.cellsPerBlock) {block slot : Nat} :
    slot ∈ a.slotsOf block ↔ slot / a.cellsPerBlock = block := by
  unfold slotsOf
  simp only [List.mem_map, List.mem_range]
  constructor
  · rintro ⟨i, hi, rfl⟩
    rw [Nat.mul_comm, Nat.mul_add_div hpos, Nat.div_eq_of_lt hi, Nat.add_zero]
  · rintro rfl
    refine ⟨slot % a.cellsPerBlock, Nat.mod_lt _ hpos, ?_⟩
    rw [Nat.mul_comm]
    exact Nat.div_add_mod slot a.cellsPerBlock

theorem nodup_slotsOf (a : Arena α) (block : Nat) : (a.slotsOf block).Nodup := by
  unfold slotsOf
  refine List.Nodup.map ?_ List.nodup_range
  intro i j h
  simpa using h

/-- The new slots are vacant. -/
theorem getElem?_cells_addBlock (a : Arena α) (slot : Nat) :
    a.addBlock.cells[slot]? = if slot < a.cells.size then a.cells[slot]?
      else if slot < a.addBlock.present.size * a.cellsPerBlock then some none else none := by
  rw [cells_addBlock, getElem?_grow]

theorem isTaken_addBlock (a : Arena α) (slot : Nat) : a.addBlock.isTaken slot = a.isTaken slot := by
  unfold isTaken
  rw [Array.getD_eq_getD_getElem?, Array.getD_eq_getD_getElem?, getElem?_cells_addBlock]
  split
  · rfl
  · rename_i hge
    have hnone : a.cells[slot]? = none := Array.getElem?_eq_none (by omega)
    rw [hnone]
    split <;> rfl

theorem Sound.get?_addBlock {a : Arena α} (hs : a.Sound) (id : CellId) :
    a.addBlock.get? id = a.get? id := by
  apply Option.ext
  intro cell
  rw [get?_eq_some, get?_eq_some, getElem?_cells_addBlock, generations_addBlock, getElem?_grow,
    hs.generations_size]
  split
  · rfl
  · rename_i hlt
    have hnone : a.cells[id.index.toNat]? = none := Array.getElem?_eq_none (by omega)
    rw [hnone]
    split <;> simp

theorem Sound.addBlock {a : Arena α} (hs : a.Sound) (hfree : a.free = #[]) : a.addBlock.Sound := by
  have hpos := hs.perBlock_pos
  have hper : a.addBlock.cellsPerBlock = a.cellsPerBlock := rfl
  -- A slot of the block taken lies within the cells, and is vacant.
  have hslot : ∀ slot, slot / a.cellsPerBlock = a.nextBlock →
      a.addBlock.cells[slot]? = some none := by
    intro slot hblock
    have hlt : slot < a.addBlock.present.size * a.cellsPerBlock := by
      rw [size_present_addBlock]
      refine (Nat.div_lt_iff_lt_mul hpos).1 ?_
      omega
    rw [getElem?_cells_addBlock]
    split
    · rename_i hin
      rw [Array.getElem?_eq_getElem hin]
      cases hc : a.cells[slot] with
      | none => rfl
      | some cell =>
        have := hs.held slot cell (by rw [Array.getElem?_eq_getElem hin, hc])
        rw [hblock] at this
        exact absurd this a.present_nextBlock
    · rfl
  refine ⟨hpos, ?_, ?_, ?_, ?_, ?_, ?_, ?_⟩
  · rw [generations_addBlock, cells_addBlock, size_grow, size_grow, hs.generations_size]
  · show (grow a.marks (a.addBlock.present.size * a.cellsPerBlock) false).size = _
    rw [cells_addBlock, size_grow, size_grow, hs.marks_size]
  · rw [cells_addBlock, size_grow, hper]
    exact Nat.le_max_right _ _
  · intro slot cell hcell
    rw [hper, getElem?_present_addBlock]
    split
    · rfl
    · rw [getElem?_cells_addBlock] at hcell
      split at hcell
      · exact hs.held slot cell hcell
      · split at hcell <;> simp at hcell
  · intro block hheld
    have hcount : a.addBlock.takenIn block = a.takenIn block := takenIn_congr a a.addBlock rfl a.isTaken_addBlock block
    rw [used_addBlock, Array.getElem?_setIfInBounds, hcount]
    rw [getElem?_present_addBlock] at hheld
    by_cases hnext : block = a.nextBlock
    · have hlt : a.nextBlock < (grow a.used a.addBlock.present.size 0).size := by
        rw [size_grow, size_present_addBlock]
        omega
      have hnone : a.takenIn block = 0 := by
        refine List.countP_eq_zero.2 fun slot hmem htaken => ?_
        rw [← isTaken_addBlock] at htaken
        obtain ⟨cell, hcell⟩ := isTaken_eq_true.1 htaken
        rw [hslot slot (by rw [← hnext]; exact (mem_slotsOf hpos).1 hmem)] at hcell
        simp at hcell
      rw [if_pos hnext.symm, if_pos hlt, hnone]
    · rw [if_neg hnext] at hheld
      have hused := hs.used_eq block hheld
      rw [if_neg (Ne.symm hnext), getElem?_grow, if_pos (Array.getElem?_eq_some_iff.1 hused).1, hused]
  · intro slot
    rw [free_addBlock, hfree, hper]
    simp only [List.nil_append, List.mem_reverse, mem_slotsOf hpos]
    constructor
    · intro hblock
      exact ⟨hslot slot hblock, by rw [getElem?_present_addBlock, if_pos hblock]⟩
    · rintro ⟨hcell, hpresent⟩
      rw [getElem?_present_addBlock] at hpresent
      by_contra hne
      rw [if_neg hne] at hpresent
      -- No slot of the other blocks is free.
      have hin : slot < a.cells.size := by
        have hblock : slot / a.cellsPerBlock < a.present.size := by
          by_contra hge
          rw [Array.getElem?_eq_none (by omega)] at hpresent
          simp at hpresent
        have hroom := hs.room
        have := (Nat.div_lt_iff_lt_mul hpos).1 hblock
        omega
      rw [getElem?_cells_addBlock, if_pos hin] at hcell
      have hmem := (hs.mem_free slot).2 ⟨hcell, hpresent⟩
      simp [hfree] at hmem
  · rw [free_addBlock, hfree]
    simpa using a.nodup_slotsOf a.nextBlock

theorem Unmarked.addBlock {a : Arena α} (hu : a.Unmarked) : a.addBlock.Unmarked := by
  intro slot
  have h := hu slot
  show (grow a.marks (a.addBlock.present.size * a.cellsPerBlock) false).getD slot false = false
  unfold isMarked at h
  rw [Array.getD_eq_getD_getElem?] at h ⊢
  rw [getElem?_grow]
  split
  · exact h
  · split <;> rfl

theorem sound_empty (cellsPerBlock reserve : Nat) :
    (empty cellsPerBlock reserve : Arena α).Sound := by
  refine Sound.addBlock ?_ rfl
  refine ⟨by show 0 < max cellsPerBlock 1; omega, rfl, rfl, by simp, by simp, by simp, by simp, by simp⟩

theorem unmarked_empty (cellsPerBlock reserve : Nat) :
    (empty cellsPerBlock reserve : Arena α).Unmarked := by
  refine Unmarked.addBlock ?_
  intro slot
  simp [isMarked]

theorem get?_empty (cellsPerBlock reserve : Nat) (id : CellId) :
    (empty cellsPerBlock reserve : Arena α).get? id = none := by
  unfold empty
  rw [Sound.get?_addBlock]
  · simp [get?]
  · refine ⟨by show 0 < max cellsPerBlock 1; omega, rfl, rfl, by simp, by simp, by simp, by simp, by simp⟩

/-! ## Allocation -/

/-- The arena with a free slot at hand. -/
def ready (a : Arena α) : Arena α :=
  if a.free.isEmpty then a.addBlock else a

/-- The slot that the next cell gets. -/
def nextSlot (a : Arena α) : Nat :=
  a.ready.free.back?.getD 0

theorem Sound.ready {a : Arena α} (hs : a.Sound) : a.ready.Sound := by
  unfold Arena.ready
  split
  · rename_i h
    exact hs.addBlock (by simpa using h)
  · exact hs

theorem Sound.get?_ready {a : Arena α} (hs : a.Sound) (id : CellId) :
    a.ready.get? id = a.get? id := by
  unfold Arena.ready
  split
  · exact hs.get?_addBlock id
  · rfl

theorem size_cells_ready (a : Arena α) : a.cells.size ≤ a.ready.cells.size := by
  unfold ready
  split
  · exact a.size_cells_addBlock
  · exact Nat.le_refl _

/-- There is a free slot, and it is used up from the end. -/
theorem Sound.free_ready {a : Arena α} (hs : a.Sound) :
    a.ready.free.toList = a.ready.free.pop.toList ++ [a.nextSlot] := by
  have hne : a.ready.free.toList ≠ [] := by
    unfold Arena.ready
    split
    · rw [free_addBlock]
      have hblock : a.nextBlock * a.cellsPerBlock ∈ a.slotsOf a.nextBlock :=
        (mem_slotsOf hs.perBlock_pos).2 (Nat.mul_div_cancel _ hs.perBlock_pos)
      intro h
      simp only [List.append_eq_nil_iff, List.reverse_eq_nil_iff] at h
      rw [h.2] at hblock
      simp at hblock
    · rename_i h
      simpa using h
  unfold nextSlot
  rw [← Array.getLast?_toList, Array.toList_pop, List.getLast?_eq_some_getLast hne, Option.getD_some,
    List.dropLast_append_getLast]

theorem Sound.nextSlot_free {a : Arena α} (hs : a.Sound) :
    a.ready.cells[a.nextSlot]? = some none ∧
      a.ready.present[a.nextSlot / a.ready.cellsPerBlock]? = some true := by
  refine (hs.ready.mem_free _).1 ?_
  rw [hs.free_ready]
  simp

theorem cells_alloc (a : Arena α) (cell : α) :
    (a.alloc cell).1.cells = a.ready.cells.setIfInBounds a.nextSlot (some cell) := rfl

theorem size_cells_alloc (a : Arena α) (cell : α) :
    (a.alloc cell).1.cells.size = a.ready.cells.size := by
  rw [cells_alloc, Array.size_setIfInBounds]

theorem Sound.index_alloc {a : Arena α} (hs : a.Sound) {cell : α}
    (haddr : (a.alloc cell).1.Addressable) : (a.alloc cell).2.1.index.toNat = a.nextSlot := by
  have hlt : a.nextSlot < a.ready.cells.size := by
    by_contra hge
    have := hs.nextSlot_free.1
    rw [Array.getElem?_eq_none (by omega)] at this
    simp at this
  unfold Addressable at haddr
  rw [size_cells_alloc] at haddr
  show (UInt32.ofNat a.nextSlot).toNat = a.nextSlot
  exact UInt32.toNat_ofNat_of_lt' (by omega)

theorem Sound.generation_alloc {a : Arena α} (hs : a.Sound) (cell : α) :
    a.ready.generations[a.nextSlot]? = some (a.alloc cell).2.1.generation := by
  have hlt : a.nextSlot < a.ready.generations.size := by
    rw [hs.ready.generations_size]
    by_contra hge
    have := hs.nextSlot_free.1
    rw [Array.getElem?_eq_none (by omega)] at this
    simp at this
  show _ = some ((a.ready.generations[a.nextSlot]?).getD 0)
  rw [Array.getElem?_eq_getElem hlt]
  rfl

/-- The handle of a new cell was not live. -/
theorem Sound.get?_alloc_id {a : Arena α} (hs : a.Sound) {cell : α}
    (haddr : (a.alloc cell).1.Addressable) : a.get? (a.alloc cell).2.1 = none := by
  rw [← hs.get?_ready]
  cases h : a.ready.get? (a.alloc cell).2.1 with
  | none => rfl
  | some c =>
    obtain ⟨-, hcell⟩ := get?_eq_some.1 h
    rw [hs.index_alloc haddr, hs.nextSlot_free.1] at hcell
    simp at hcell

/-- A new cell is found under its handle, and every other handle leads where it led. -/
theorem Sound.get?_alloc {a : Arena α} (hs : a.Sound) {cell : α}
    (haddr : (a.alloc cell).1.Addressable) (id : CellId) :
    (a.alloc cell).1.get? id = if id = (a.alloc cell).2.1 then some cell else a.get? id := by
  have hindex := hs.index_alloc haddr
  have hfree := hs.nextSlot_free.1
  have hlt : a.nextSlot < a.ready.cells.size := by
    by_contra hge
    rw [Array.getElem?_eq_none (by omega)] at hfree
    simp at hfree
  apply Option.ext
  intro c
  rw [get?_eq_some, cells_alloc, Array.getElem?_setIfInBounds]
  show a.ready.generations[id.index.toNat]? = _ ∧ _ ↔ _
  by_cases hslot : a.nextSlot = id.index.toNat
  · rw [if_pos hslot, if_pos hlt, ← hslot, hs.generation_alloc cell]
    by_cases hid : id = (a.alloc cell).2.1
    · rw [if_pos hid, hid]
      simp
    · have hgen : (a.alloc cell).2.1.generation ≠ id.generation := by
        intro hgen
        exact hid (id_ext (by rw [hindex, hslot]) hgen.symm)
      have hnone : a.get? id = none := by
        rw [← hs.get?_ready]
        cases h : a.ready.get? id with
        | none => rfl
        | some c =>
          obtain ⟨-, hcell⟩ := get?_eq_some.1 h
          rw [← hslot, hfree] at hcell
          simp at hcell
      rw [if_neg hid, hnone]
      simp [hgen]
  · have hid : id ≠ (a.alloc cell).2.1 := by
      rintro rfl
      exact hslot hindex.symm
    rw [if_neg hslot, if_neg hid, ← hs.get?_ready, get?_eq_some]

theorem Sound.isTaken_alloc {a : Arena α} (hs : a.Sound) (cell : α) (slot : Nat) :
    (a.alloc cell).1.isTaken slot = (a.ready.isTaken slot || slot == a.nextSlot) := by
  have hlt := (Array.getElem?_eq_some_iff.1 hs.nextSlot_free.1).1
  unfold isTaken
  rw [cells_alloc, Array.getD_eq_getD_getElem?, Array.getD_eq_getD_getElem?, Array.getElem?_setIfInBounds]
  by_cases hslot : a.nextSlot = slot
  · subst hslot
    simp [hlt]
  · simp [hslot, Ne.symm hslot]

/-- The count of the block of a new cell goes up by one. -/
theorem Sound.takenIn_alloc {a : Arena α} (hs : a.Sound) (cell : α) (block : Nat) :
    (a.alloc cell).1.takenIn block
      = a.ready.takenIn block + if block = a.nextSlot / a.ready.cellsPerBlock then 1 else 0 := by
  have hslots : (a.alloc cell).1.slotsOf block = a.ready.slotsOf block := rfl
  have hvacant : a.ready.isTaken a.nextSlot = false := by
    rw [← Bool.not_eq_true, isTaken_eq_true, hs.nextSlot_free.1]
    simp
  unfold takenIn
  rw [hslots]
  by_cases hblock : block = a.nextSlot / a.ready.cellsPerBlock
  · have hmem : a.nextSlot ∈ a.ready.slotsOf block := (mem_slotsOf hs.ready.perBlock_pos).2 hblock.symm
    obtain ⟨before, behind, hsplit⟩ := List.append_of_mem hmem
    have hnodup := a.ready.nodup_slotsOf block
    rw [hsplit] at hnodup ⊢
    have hother : ∀ slot ∈ before ++ behind, (a.alloc cell).1.isTaken slot = a.ready.isTaken slot := by
      intro slot hslot
      have hne : slot ≠ a.nextSlot := by
        rintro rfl
        exact (List.nodup_middle.1 hnodup).notMem hslot
      rw [hs.isTaken_alloc, beq_eq_false_iff_ne.2 hne, Bool.or_false]
    have hcount : ∀ slots : List Nat, (∀ slot ∈ slots, slot ∈ before ++ behind) →
        slots.countP (a.alloc cell).1.isTaken = slots.countP a.ready.isTaken := by
      intro slots hin
      refine List.countP_congr fun slot hslot => ?_
      rw [hother slot (hin slot hslot)]
    rw [if_pos hblock, List.countP_append, List.countP_append, List.countP_cons, List.countP_cons,
      hcount before (fun slot h => List.mem_append_left _ h), hcount behind (fun slot h => List.mem_append_right _ h),
      hs.isTaken_alloc, hvacant]
    simp
    omega
  · rw [if_neg hblock, Nat.add_zero]
    refine List.countP_congr fun slot hslot => ?_
    have hne : slot ≠ a.nextSlot := by
      rintro rfl
      exact hblock ((mem_slotsOf hs.ready.perBlock_pos).1 hslot).symm
    rw [hs.isTaken_alloc, beq_eq_false_iff_ne.2 hne, Bool.or_false]

theorem Sound.alloc {a : Arena α} (hs : a.Sound) (cell : α) : (a.alloc cell).1.Sound := by
  have hr := hs.ready
  have hsplit := hs.free_ready
  obtain ⟨hvacant, hheld⟩ := hs.nextSlot_free
  have hper : (a.alloc cell).1.cellsPerBlock = a.ready.cellsPerBlock := rfl
  have hpresent : (a.alloc cell).1.present = a.ready.present := rfl
  have hfree : (a.alloc cell).1.free = a.ready.free.pop := rfl
  have hnodup := hr.free_nodup
  rw [hsplit] at hnodup
  obtain ⟨hrest, -, hdisjoint⟩ := List.nodup_append.1 hnodup
  have hnot : a.nextSlot ∉ a.ready.free.pop.toList := fun h => hdisjoint _ h _ (by simp) rfl
  refine ⟨hr.perBlock_pos, ?_, ?_, ?_, ?_, ?_, ?_, ?_⟩
  · rw [cells_alloc, Array.size_setIfInBounds]
    exact hr.generations_size
  · rw [cells_alloc, Array.size_setIfInBounds]
    exact hr.marks_size
  · rw [cells_alloc, Array.size_setIfInBounds]
    exact hr.room
  · intro slot c hcell
    rw [cells_alloc, Array.getElem?_setIfInBounds] at hcell
    rw [hper, hpresent]
    split at hcell
    · rename_i hslot
      rw [← hslot]
      exact hheld
    · exact hr.held slot c hcell
  · intro block hblock
    rw [hpresent] at hblock
    have hused := hr.used_eq block hblock
    show (a.ready.used.modify (a.nextSlot / a.ready.cellsPerBlock) (· + 1))[block]? = _
    rw [Array.getElem?_modify, hs.takenIn_alloc, hused]
    by_cases hnext : a.nextSlot / a.ready.cellsPerBlock = block
    · simp [hnext]
    · simp [hnext, Ne.symm hnext]
  · intro slot
    rw [hfree, hper, hpresent, cells_alloc, Array.getElem?_setIfInBounds]
    have hiff := hr.mem_free slot
    rw [hsplit, List.mem_append, List.mem_singleton] at hiff
    by_cases hslot : a.nextSlot = slot
    · subst hslot
      have hlt := (Array.getElem?_eq_some_iff.1 hvacant).1
      rw [if_pos rfl, if_pos hlt]
      exact ⟨fun h => absurd h hnot, fun h => by simp at h⟩
    · rw [if_neg hslot, ← hiff]
      simp [Ne.symm hslot]
  · rw [hfree]
    exact hrest

theorem Unmarked.alloc {a : Arena α} (hu : a.Unmarked) (cell : α) :
    (a.alloc cell).1.Unmarked := by
  show a.ready.Unmarked
  unfold Arena.ready
  split
  · exact hu.addBlock
  · exact hu

/-! ## Changes of cells -/

theorem get?_modify (a : Arena α) (id : CellId) (f : α → α) (id' : CellId) :
    (a.modify id f).get? id' = if id' = id then (a.get? id).map f else a.get? id' := by
  unfold modify
  by_cases hcur : a.isCurrent id = true
  · rw [if_pos hcur]
    apply Option.ext
    intro c
    rw [get?_eq_some, Array.getElem?_modify]
    show a.generations[id'.index.toNat]? = _ ∧ _ ↔ _
    have hgen : a.generations[id.index.toNat]? = some id.generation := by
      unfold isCurrent at hcur
      cases h : a.generations[id.index.toNat]? with
      | none => simp [h] at hcur
      | some g => simpa [h] using hcur
    by_cases hid : id' = id
    · subst hid
      simp only [if_pos, Option.map_eq_some_iff, get?_eq_some, hgen, true_and]
      constructor
      · rintro ⟨cell, hcell, hmap⟩
        cases cell with
        | none => simp at hmap
        | some c' => exact ⟨c', hcell, by simpa using hmap⟩
      · rintro ⟨c', hcell, rfl⟩
        exact ⟨some c', hcell, c', rfl, rfl⟩
    · rw [if_neg hid, get?_eq_some]
      by_cases hindex : id.index.toNat = id'.index.toNat
      · have hne : id.generation ≠ id'.generation := by
          intro hne
          exact hid (id_ext hindex.symm hne.symm)
        rw [← hindex, hgen]
        simp [hne]
      · rw [if_neg hindex]
  · rw [if_neg hcur]
    split
    · rename_i hid
      subst hid
      simp [get?, hcur]
    · rfl

theorem get?_map (a : Arena α) (f : α → α) (id : CellId) :
    (a.map f).get? id = (a.get? id).map f := by
  apply Option.ext
  intro c
  rw [get?_eq_some]
  show a.generations[id.index.toNat]? = _ ∧ (a.cells.map fun cell => cell.map f)[id.index.toNat]? = _ ↔ _
  simp only [Array.getElem?_map, Option.map_eq_some_iff, get?_eq_some]
  constructor
  · rintro ⟨hgen, cell, hcell, c', rfl, rfl⟩
    exact ⟨c', ⟨hgen, hcell⟩, rfl⟩
  · rintro ⟨c', ⟨hgen, hcell⟩, rfl⟩
    exact ⟨hgen, some c', hcell, c', rfl, rfl⟩

/-- Vacancy is all that an arena's order depends on. -/
theorem Sound.of_cells {a : Arena α} (hs : a.Sound) {cells : Array (Option α)}
    (hsize : cells.size = a.cells.size)
    (hvacant : ∀ slot : Nat, cells[slot]? = some none ↔ a.cells[slot]? = some none) :
    ({ a with cells := cells } : Arena α).Sound := by
  have htaken (slot : Nat) : ({ a with cells := cells } : Arena α).isTaken slot = a.isTaken slot := by
    have hiff := hvacant slot
    have hbound : cells[slot]? = none ↔ a.cells[slot]? = none := by simp [hsize]
    unfold isTaken
    rw [Array.getD_eq_getD_getElem?, Array.getD_eq_getD_getElem?]
    rcases hnew : cells[slot]? with _ | _ | cell <;> rcases hold : a.cells[slot]? with _ | _ | cell' <;>
      simp [hnew, hold] at hiff hbound ⊢
  refine ⟨hs.perBlock_pos, ?_, ?_, ?_, ?_, ?_, ?_, hs.free_nodup⟩
  · rw [hsize]; exact hs.generations_size
  · rw [hsize]; exact hs.marks_size
  · rw [hsize]; exact hs.room
  · intro slot cell hcell
    obtain ⟨hlt, -⟩ := Array.getElem?_eq_some_iff.1 hcell
    rw [hsize] at hlt
    cases hold : a.cells[slot] with
    | none =>
      have := (hvacant slot).2 (by rw [Array.getElem?_eq_getElem hlt, hold])
      rw [hcell] at this
      simp at this
    | some c => exact hs.held slot c (by rw [Array.getElem?_eq_getElem hlt, hold])
  · intro block hblock
    exact (hs.used_eq block hblock).trans (congrArg some (takenIn_congr a { a with cells := cells } rfl htaken block).symm)
  · intro slot
    rw [hs.mem_free, hvacant]

theorem Sound.modify {a : Arena α} (hs : a.Sound) (id : CellId) (f : α → α) :
    (a.modify id f).Sound := by
  unfold Arena.modify
  split
  · refine hs.of_cells (by simp) fun slot => ?_
    rw [Array.getElem?_modify]
    split
    · rcases h : a.cells[slot]? with _ | _ | c <;> simp
    · rfl
  · exact hs

theorem Sound.map {a : Arena α} (hs : a.Sound) (f : α → α) : (a.map f).Sound := by
  refine hs.of_cells (by simp) fun slot => ?_
  rw [Array.getElem?_map]
  rcases h : a.cells[slot]? with _ | _ | c <;> simp

theorem Unmarked.modify {a : Arena α} (hu : a.Unmarked) (id : CellId) (f : α → α) :
    (a.modify id f).Unmarked := by
  unfold Arena.modify
  split
  · exact hu
  · exact hu

theorem size_cells_modify (a : Arena α) (id : CellId) (f : α → α) :
    (a.modify id f).cells.size = a.cells.size := by
  unfold modify
  split <;> simp

/-! ## Marks -/

/-- The same arena but for its marks. -/
def Remarked (a b : Arena α) : Prop :=
  b = { a with marks := b.marks } ∧ b.marks.size = a.marks.size

theorem Remarked.refl (a : Arena α) : a.Remarked a := ⟨rfl, rfl⟩

theorem Remarked.trans {a b c : Arena α} (hab : a.Remarked b) (hbc : b.Remarked c) :
    a.Remarked c := by
  refine ⟨?_, by rw [hbc.2, hab.2]⟩
  rw [hbc.1, hab.1]

theorem Remarked.cells_eq {a b : Arena α} (h : a.Remarked b) : b.cells = a.cells := by
  rw [h.1]

theorem Remarked.get? {a b : Arena α} (h : a.Remarked b) (id : CellId) : b.get? id = a.get? id :=
  get?_congr h.cells_eq (by rw [h.1]) id

theorem Remarked.sound {a b : Arena α} (h : a.Remarked b) (hs : a.Sound) : b.Sound := by
  rw [h.1]
  exact { hs with marks_size := h.2.trans hs.marks_size }

theorem remarked_mark (a : Arena α) (id : CellId) : a.Remarked (a.mark id).1 := by
  unfold mark
  simp only
  split
  · exact ⟨rfl, by simp⟩
  · exact Remarked.refl a

theorem snd_mark (a : Arena α) (id : CellId) :
    (a.mark id).2 = ((a.get? id).isSome && !a.isMarked id.index.toNat) := by
  unfold mark
  rw [← contains_eq]
  simp only
  split <;> simp_all

theorem Sound.isMarked_mark {a : Arena α} (hs : a.Sound) (id : CellId) (slot : Nat) :
    (a.mark id).1.isMarked slot
      = (a.isMarked slot || ((a.get? id).isSome && slot == id.index.toNat)) := by
  unfold mark
  rw [← contains_eq]
  simp only
  by_cases hc : a.contains id = true
  · have hlt : id.index.toNat < a.marks.size := by
      rw [contains_eq] at hc
      obtain ⟨c, hcell⟩ := Option.isSome_iff_exists.1 hc
      rw [hs.marks_size]
      exact (Array.getElem?_eq_some_iff.1 (get?_eq_some.1 hcell).2).1
    rw [hc]
    by_cases hm : a.isMarked id.index.toNat = true
    · rw [hm, Bool.not_true, Bool.and_false, if_neg (by simp)]
      by_cases hslot : slot = id.index.toNat
      · rw [hslot, hm]
        simp
      · simp [hslot]
    · rw [Bool.not_eq_true] at hm
      rw [hm, Bool.not_false, Bool.and_true, if_pos rfl]
      show (a.marks.setIfInBounds id.index.toNat true).getD slot false = _
      unfold isMarked
      rw [Array.getD_eq_getD_getElem?, Array.getD_eq_getD_getElem?, Array.getElem?_setIfInBounds]
      by_cases hslot : id.index.toNat = slot
      · subst hslot
        simp [hlt]
      · simp [hslot, Ne.symm hslot]
  · rw [Bool.not_eq_true] at hc
    simp [hc]

/-! ## Sweeps -/

theorem getElem?_keptCells (a : Arena α) (slot : Nat) :
    a.keptCells[slot]? = (a.cells[slot]?).map fun cell => if a.isMarked slot then cell else none := by
  unfold keptCells
  rw [Array.getElem?_mapIdx]

theorem getElem?_trimBlocks (present : Array Bool) (block : Nat) :
    (trimBlocks present)[block]? = some true ↔ present[block]? = some true := by
  unfold trimBlocks
  fun_induction Array.popWhile (fun held => !held) present with
  | case1 present hpos hlast ih =>
    rw [ih, Array.getElem?_pop]
    have hfalse : present[present.size - 1] = false := by simpa using hlast
    split
    · rfl
    · rename_i hge
      by_cases hsize : block = present.size - 1
      · rw [hsize, Array.getElem?_eq_getElem (by omega), hfalse]
        simp
      · rw [Array.getElem?_eq_none (by omega)]
  | case2 => rfl
  | case3 => rfl

theorem size_trimBlocks_le (present : Array Bool) : (trimBlocks present).size ≤ present.size := by
  unfold trimBlocks
  fun_induction Array.popWhile (fun held => !held) present with
  | case1 present hpos hlast ih =>
    rw [Array.size_pop] at ih
    omega
  | case2 => exact Nat.le_refl _
  | case3 => exact Nat.le_refl _

theorem mem_keptBlocks (a : Arena α) (used : Array Nat) (block : Nat) :
    (a.keptBlocks used)[block]? = some true ↔
      a.present[block]? = some true ∧ (block = 0 ∨ used.getD block 0 ≠ 0) := by
  unfold keptBlocks
  rw [Array.getElem?_mapIdx]
  cases h : a.present[block]? with
  | none => simp
  | some held => simp

/-- Whether no slot of a block holds a cell. -/
def isEmptyBlock (a : Arena α) (cells : Array (Option α)) (block : Nat) : Bool :=
  cells.all Option.isNone (block * a.cellsPerBlock) ((block + 1) * a.cellsPerBlock)

theorem isEmptyBlock_eq_false {a : Arena α} (hpos : 0 < a.cellsPerBlock) {cells : Array (Option α)}
    {block : Nat} :
    a.isEmptyBlock cells block = false ↔
      ∃ slot cell, slot / a.cellsPerBlock = block ∧ cells[slot]? = some (some cell) := by
  unfold isEmptyBlock
  rw [← Bool.not_eq_true, Array.all_iff_forall]
  constructor
  · intro h
    push Not at h
    obtain ⟨slot, hlt, ⟨hfirst, hlast⟩, hcell⟩ := h
    cases hold : cells[slot] with
    | none => simp [hold] at hcell
    | some cell =>
      refine ⟨slot, cell, ?_, by rw [Array.getElem?_eq_getElem hlt, hold]⟩
      exact Nat.div_eq_of_lt_le hfirst hlast
  · rintro ⟨slot, cell, rfl, hcell⟩ hall
    obtain ⟨hlt, hcell⟩ := Array.getElem?_eq_some_iff.1 hcell
    have hnone := hall slot hlt ⟨Nat.div_mul_le_self slot _, by
      rw [Nat.mul_comm]
      exact Nat.lt_mul_div_succ slot hpos⟩
    rw [hcell] at hnone
    simp at hnone

theorem takenIn_ne_zero {a : Arena α} (hpos : 0 < a.cellsPerBlock) {block : Nat} :
    a.takenIn block ≠ 0 ↔ ∃ slot cell, slot / a.cellsPerBlock = block ∧ a.cells[slot]? = some (some cell) := by
  unfold takenIn
  rw [← Nat.pos_iff_ne_zero, List.countP_pos_iff]
  simp only [mem_slotsOf hpos, isTaken_eq_true]
  constructor
  · rintro ⟨slot, hblock, cell, hcell⟩
    exact ⟨slot, cell, hblock, hcell⟩
  · rintro ⟨slot, cell, hblock, hcell⟩
    exact ⟨slot, hblock, cell, hcell⟩

theorem isTaken_sweep (a : Arena α) (slot : Nat) :
    a.sweep.1.isTaken slot = (a.isTaken slot && a.isMarked slot) := by
  have hcells : a.sweep.1.cells = a.keptCells := rfl
  unfold isTaken
  rw [hcells, Array.getD_eq_getD_getElem?, Array.getD_eq_getD_getElem?, getElem?_keptCells]
  cases a.isMarked slot <;> rcases a.cells[slot]? with _ | _ | cell <;> simp

/-- A slot that is taken is kept or freed. -/
theorem countP_isTaken_sweep (a : Arena α) (slots : List Nat) :
    slots.countP a.isTaken = slots.countP a.sweep.1.isTaken + slots.countP a.isGarbage := by
  rw [List.countP_eq_countP_filter_add _ a.isTaken a.isMarked, List.countP_filter, List.countP_filter]
  congr 1
  exact List.countP_congr fun slot _ => by rw [isTaken_sweep]

/-- The counts that a sweep goes by are those of the cells it keeps. -/
theorem Sound.used_sweep {a : Arena α} (hs : a.Sound) {block : Nat} (hheld : a.present[block]? = some true) :
    a.sweptUsed[block]? = some (a.sweep.1.takenIn block) := by
  unfold sweptUsed
  rw [Array.getElem?_mapIdx, hs.used_eq block hheld, takenIn, countP_isTaken_sweep, Option.map_some,
    Nat.add_sub_cancel_right]
  rfl

/-- A sweep keeps the blocks in which it keeps cells, and the first one. -/
theorem Sound.present_sweep {a : Arena α} (hs : a.Sound) (block : Nat) :
    a.sweep.1.present[block]? = some true ↔
      a.present[block]? = some true ∧ (block = 0 ∨ a.isEmptyBlock a.keptCells block = false) := by
  have hpresent : a.sweep.1.present = trimBlocks (a.keptBlocks a.sweptUsed) := rfl
  have hpos : 0 < a.sweep.1.cellsPerBlock := hs.perBlock_pos
  rw [hpresent, getElem?_trimBlocks, mem_keptBlocks]
  refine and_congr_right fun hheld => or_congr_right ?_
  rw [Array.getD_eq_getD_getElem?, hs.used_sweep hheld, Option.getD_some, takenIn_ne_zero hpos,
    isEmptyBlock_eq_false hs.perBlock_pos]
  rfl

/-- A sweep keeps what is marked, under the handles it had. -/
theorem get?_sweep (a : Arena α) (id : CellId) :
    a.sweep.1.get? id = if a.isMarked id.index.toNat then a.get? id else none := by
  have hcells : a.sweep.1.cells = a.keptCells := rfl
  have hgens : a.sweep.1.generations = a.sweptGenerations := rfl
  apply Option.ext
  intro c
  rw [get?_eq_some, hcells, hgens, getElem?_keptCells]
  by_cases hm : a.isMarked id.index.toNat = true
  · rw [if_pos hm, get?_eq_some]
    unfold sweptGenerations isGarbage
    rw [Array.getElem?_mapIdx]
    simp [hm]
  · rw [if_neg hm]
    simp only [if_neg hm]
    cases a.cells[id.index.toNat]? <;> simp

theorem Sound.sweep {a : Arena α} (hs : a.Sound) : a.sweep.1.Sound := by
  have hpos := hs.perBlock_pos
  have hsize : a.keptCells.size = a.cells.size := by simp [keptCells]
  have hcells : a.sweep.1.cells = a.keptCells := rfl
  have hper : a.sweep.1.cellsPerBlock = a.cellsPerBlock := rfl
  refine ⟨hpos, ?_, ?_, ?_, ?_, ?_, ?_, ?_⟩
  · rw [hcells, hsize, ← hs.generations_size]
    simp [Arena.sweep, sweptGenerations]
  · rw [hcells, hsize, ← hs.marks_size]
    simp [Arena.sweep]
  · rw [hcells, hsize]
    refine Nat.le_trans (Nat.mul_le_mul_right _ ?_) hs.room
    refine Nat.le_trans (size_trimBlocks_le _) ?_
    simp [keptBlocks]
  · intro slot cell hcell
    rw [hs.present_sweep]
    rw [hcells] at hcell
    refine ⟨?_, .inr ((isEmptyBlock_eq_false hpos).2 ⟨slot, cell, rfl, hcell⟩)⟩
    rw [getElem?_keptCells] at hcell
    obtain ⟨old, hold, hkept⟩ := Option.map_eq_some_iff.1 hcell
    split at hkept
    · subst hkept
      exact hs.held slot cell hold
    · simp at hkept
  · intro block hheld
    exact hs.used_sweep ((hs.present_sweep block).1 hheld).1
  · intro slot
    show slot ∈ (a.freeSlots a.keptCells (a.keptBlocks a.sweptUsed)).toList ↔
      a.keptCells[slot]? = some none ∧ (trimBlocks (a.keptBlocks a.sweptUsed))[slot / a.cellsPerBlock]? = some true
    rw [getElem?_trimBlocks]
    unfold freeSlots
    simp only [Array.toList_reverse, List.mem_reverse, Array.toList_filter, Array.toList_range,
      List.mem_filter, List.mem_range, Bool.and_eq_true, Array.getD_eq_getD_getElem?]
    constructor
    · rintro ⟨hlt, hcell, hheld⟩
      refine ⟨?_, ?_⟩
      · rw [Array.getElem?_eq_getElem hlt] at hcell ⊢
        simpa using hcell
      · cases h : (a.keptBlocks a.sweptUsed)[slot / a.cellsPerBlock]? with
        | none => simp [h] at hheld
        | some held => simpa [h] using hheld
    · rintro ⟨hcell, hheld⟩
      refine ⟨(Array.getElem?_eq_some_iff.1 hcell).1, by rw [hcell]; rfl, by rw [hheld]; rfl⟩
  · show (a.freeSlots a.keptCells (a.keptBlocks a.sweptUsed)).toList.Nodup
    unfold freeSlots
    simp only [Array.toList_reverse, Array.toList_filter, Array.toList_range]
    exact List.nodup_reverse.2 (List.nodup_range.filter _)

theorem unmarked_sweep (a : Arena α) : a.sweep.1.Unmarked := by
  intro slot
  show (Array.replicate a.marks.size false).getD slot false = false
  rw [Array.getD_eq_getD_getElem?, Array.getElem?_replicate]
  split <;> rfl

/-- Blocks other than the first hold cells. -/
def Tight (a : Arena α) : Prop :=
  ∀ block : Nat, a.present[block]? = some true →
    block = 0 ∨ a.isEmptyBlock a.cells block = false

theorem Sound.tight_sweep {a : Arena α} (hs : a.Sound) : a.sweep.1.Tight :=
  fun block hheld => ((hs.present_sweep block).1 hheld).2

/-- Where all cells are marked and no block is to be released, a sweep does nothing. -/
theorem Tight.snd_sweep {a : Arena α} (hs : a.Sound) (ht : a.Tight)
    (hall : ∀ slot cell, a.cells[slot]? = some (some cell) → a.isMarked slot = true) :
    a.sweep.2 = ⟨0, 0⟩ := by
  have hcells : a.keptCells = a.cells := by
    apply Array.ext_getElem?
    intro slot
    rw [getElem?_keptCells]
    rcases h : a.cells[slot]? with _ | _ | cell
    · rfl
    · simp
    · simp [hall slot cell h]
  have hblocks : a.keptBlocks a.sweptUsed = a.present := by
    apply Array.ext_getElem?
    intro block
    rcases h : a.present[block]? with _ | _ | _
    · simp [keptBlocks, h]
    · simp [keptBlocks, h]
    · rw [← getElem?_trimBlocks]
      refine (hs.present_sweep block).2 ⟨h, ?_⟩
      rw [hcells]
      exact ht block h
  show (⟨_, _⟩ : SweepStats) = _
  simp [hcells, hblocks]

theorem Unmarked.map {a : Arena α} (hu : a.Unmarked) (f : α → α) : (a.map f).Unmarked := hu

theorem Tight.map {a : Arena α} (hs : a.Sound) (ht : a.Tight) (f : α → α) : (a.map f).Tight := by
  intro block hheld
  refine (ht block hheld).imp_right fun hfull => ?_
  obtain ⟨slot, cell, hblock, hcell⟩ := (isEmptyBlock_eq_false hs.perBlock_pos).1 hfull
  refine (isEmptyBlock_eq_false (a := a.map f) hs.perBlock_pos).2 ⟨slot, f cell, hblock, ?_⟩
  show (a.cells.map fun cell => cell.map f)[slot]? = _
  rw [Array.getElem?_map, hcell]
  rfl

end ScriptEngine.Arena
