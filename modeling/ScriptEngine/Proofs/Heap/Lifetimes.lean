import Mathlib.Data.List.Perm.Basic
import ScriptEngine.Proofs.Heap.Arena
/-!
Histories of arenas.

Any row of requests makes cells, changes them, marks them and sweeps. Whatever the row, the free list and the counts
agree with the cells (`Balanced`), and live cells have handles of their own (`Handled`). A cell is found under the
handle it was made with until a sweep comes upon it unmarked (`Sound.get?_run`). From then on the handle is good for
nothing, whatever becomes of its slot and its block, because every time a slot is freed its generation moves on
(`Sound.generation_run`), as long as the generations do not come round.
-/

namespace ScriptEngine.Arena

variable {α : Type}

/-- What can be asked of an arena. -/
inductive Request (α : Type) where
  | alloc (cell : α)
  | modify (id : CellId) (f : α → α)
  /-- Every cell is changed. -/
  | map (f : α → α)
  | mark (id : CellId)
  | sweep

/-- The arena behind a request. -/
def after (a : Arena α) : Request α → Arena α
  | .alloc cell => (a.alloc cell).1
  | .modify id f => a.modify id f
  | .map f => a.map f
  | .mark id => (a.mark id).1
  | .sweep => a.sweep.1

/-- The arena behind a row of requests. -/
def run (a : Arena α) (requests : List (Request α)) : Arena α :=
  requests.foldl after a

/-- Whether a request takes the cell of a handle away. -/
def loses (a : Arena α) (id : CellId) : Request α → Bool
  | .sweep => !a.isMarked id.index.toNat
  | _ => false

/-- No sweep of a row comes upon the cell of a handle unmarked. -/
def Survives (a : Arena α) (id : CellId) : List (Request α) → Prop
  | [] => True
  | q :: qs => a.loses id q = false ∧ (a.after q).Survives id qs

/-- What a live cell is behind a request that does not take it away. -/
def changedBy (id : CellId) (cell : α) : Request α → α
  | .modify id' f => if id' = id then f cell else cell
  | .map f => f cell
  | _ => cell

/-- What a cell is behind a row of requests. -/
def lastChanged (id : CellId) (cell : α) (requests : List (Request α)) : α :=
  requests.foldl (changedBy id) cell

/-- Whether a request frees a slot, as a number. -/
def freesBy (a : Arena α) (slot : Nat) : Request α → Nat
  | .sweep => if a.isGarbage slot then 1 else 0
  | _ => 0

/-- How many times a row of requests frees a slot. -/
def frees (a : Arena α) (slot : Nat) : List (Request α) → Nat
  | [] => 0
  | q :: qs => a.freesBy slot q + (a.after q).frees slot qs

/-! ## Single requests -/

section Requests

variable {a : Arena α} {id : CellId} {cell : α} {slot : Nat}

theorem Sound.mark (h : a.Sound) (id : CellId) : (a.mark id).1.Sound :=
  (a.remarked_mark id).sound h

theorem Sound.after (h : a.Sound) (q : Request α) : (a.after q).Sound := by
  cases q with
  | alloc cell => exact h.alloc cell
  | modify id f => exact h.modify id f
  | map f => exact h.map f
  | mark id => exact h.mark id
  | sweep => exact h.sweep

theorem size_cells_after (a : Arena α) (q : Request α) : a.cells.size ≤ (a.after q).cells.size := by
  cases q with
  | alloc cell =>
    show _ ≤ (a.alloc cell).1.cells.size
    rw [size_cells_alloc]
    exact a.size_cells_ready
  | modify id f => exact Nat.le_of_eq (size_cells_modify a id f).symm
  | map f => simp [Arena.after, Arena.map]
  | mark id => exact Nat.le_of_eq (congrArg Array.size (a.remarked_mark id).cells_eq.symm)
  | sweep => simp [Arena.after, Arena.sweep, keptCells]

theorem generations_modify (a : Arena α) (id : CellId) (f : α → α) : (a.modify id f).generations = a.generations := by
  unfold modify
  split <;> rfl

theorem getElem?_generations_ready {generation : UInt16} (hslot : a.generations[slot]? = some generation) :
    a.ready.generations[slot]? = some generation := by
  unfold ready
  split
  · rw [generations_addBlock, getElem?_grow, if_pos (Array.getElem?_eq_some_iff.1 hslot).1, hslot]
  · exact hslot

/-- A slot moves on by a generation when it is freed, and only then. -/
theorem generation_after {generation : UInt16} (hslot : a.generations[slot]? = some generation) (q : Request α) :
    (a.after q).generations[slot]? = some (generation + UInt16.ofNat (a.freesBy slot q)) := by
  have hsame : generation + UInt16.ofNat 0 = generation := UInt16.add_zero _
  cases q with
  | alloc cell => exact (getElem?_generations_ready hslot).trans (congrArg some hsame.symm)
  | modify id f =>
    show (a.modify id f).generations[slot]? = some (generation + UInt16.ofNat 0)
    rw [generations_modify, hslot, hsame]
  | map f => exact hslot.trans (congrArg some hsame.symm)
  | mark id =>
    show (a.mark id).1.generations[slot]? = some (generation + UInt16.ofNat 0)
    rw [(a.remarked_mark id).1, hslot, hsame]
  | sweep =>
    show a.sweptGenerations[slot]? = some (generation + UInt16.ofNat (if a.isGarbage slot then 1 else 0))
    unfold sweptGenerations
    rw [Array.getElem?_mapIdx, hslot, Option.map_some]
    split
    · rfl
    · rw [hsame]

/-- A live cell that a request does not take away is found where it was, changed as the request says. -/
theorem Sound.get?_after (h : a.Sound) (hget : a.get? id = some cell) {q : Request α}
    (haddr : (a.after q).Addressable) (hkept : a.loses id q = false) :
    (a.after q).get? id = some (changedBy id cell q) := by
  cases q with
  | alloc new =>
    have hne : id ≠ (a.alloc new).2.1 := by
      intro heq
      have hfresh := h.get?_alloc_id haddr
      rw [← heq, hget] at hfresh
      cases hfresh
    show (a.alloc new).1.get? id = some cell
    rw [h.get?_alloc haddr, if_neg hne, hget]
  | modify id' f =>
    show (a.modify id' f).get? id = some (if id' = id then f cell else cell)
    rw [get?_modify]
    by_cases hid : id = id'
    · subst hid
      rw [if_pos rfl, if_pos rfl, hget, Option.map_some]
    · rw [if_neg hid, if_neg (Ne.symm hid), hget]
  | map f =>
    show (a.map f).get? id = some (f cell)
    rw [get?_map, hget, Option.map_some]
  | mark id' => exact ((a.remarked_mark id').get? id).trans hget
  | sweep =>
    have hmarked : a.isMarked id.index.toNat = true := by simpa [loses] using hkept
    show a.sweep.1.get? id = some cell
    rw [get?_sweep, if_pos hmarked, hget]

/-- A sweep that takes a live cell away frees its slot. -/
theorem freesBy_of_loses (hget : a.get? id = some cell) {q : Request α} (hlost : a.loses id q = true) :
    a.freesBy id.index.toNat q = 1 := by
  cases q with
  | sweep =>
    have hcell := (get?_eq_some.1 hget).2
    have hgarbage : a.isGarbage id.index.toNat = true := by
      unfold isGarbage
      rw [Array.getD_eq_getD_getElem?, hcell]
      exact hlost
    exact if_pos hgarbage
  | _ => cases hlost

/-- Where a handle has no cell, nothing is changed or marked through it. -/
theorem refused_of_get?_eq_none (hnone : a.get? id = none) : (∀ f, a.modify id f = a) ∧ a.mark id = (a, false) := by
  refine ⟨fun f => ?_, ?_⟩
  · unfold modify
    split
    case isFalse => rfl
    case isTrue hcurrent =>
      have hvacant : a.cells.getD id.index.toNat none = none := by
        unfold get? at hnone
        rwa [if_pos hcurrent] at hnone
      have hcells : (a.cells.modify id.index.toNat fun cell => cell.map f) = a.cells := by
        apply Array.ext_getElem?
        intro i
        rw [Array.getElem?_modify]
        split
        · subst i
          rw [Array.getD_eq_getD_getElem?] at hvacant
          rcases hcell : a.cells[id.index.toNat]? with _ | _ | cell
          · rfl
          · rfl
          · rw [hcell] at hvacant
            cases hvacant
        · rfl
      rw [hcells]
  · unfold Arena.mark
    simp [contains_eq, hnone]

end Requests

/-! ## Marks -/

/-- Only cells are marked. -/
def MarksTaken (a : Arena α) : Prop :=
  ∀ slot, a.isMarked slot = true → a.isTaken slot = true

theorem isMarked_ready (a : Arena α) (slot : Nat) : a.ready.isMarked slot = a.isMarked slot := by
  unfold ready
  split
  case isFalse => rfl
  case isTrue =>
    show (grow a.marks (a.addBlock.present.size * a.cellsPerBlock) false).getD slot false = a.marks.getD slot false
    rw [Array.getD_eq_getD_getElem?, Array.getD_eq_getD_getElem?, getElem?_grow]
    split
    · rfl
    · rename_i hge
      have hnone : a.marks[slot]? = none := Array.getElem?_eq_none (by omega)
      rw [hnone]
      split <;> rfl

theorem isTaken_ready (a : Arena α) (slot : Nat) : a.ready.isTaken slot = a.isTaken slot := by
  unfold ready
  split
  · exact a.isTaken_addBlock slot
  · rfl

theorem isTaken_modify (a : Arena α) (id : CellId) (f : α → α) (slot : Nat) :
    (a.modify id f).isTaken slot = a.isTaken slot := by
  unfold modify
  split
  case isFalse => rfl
  case isTrue =>
    unfold isTaken
    rw [Array.getD_eq_getD_getElem?, Array.getD_eq_getD_getElem?, Array.getElem?_modify]
    split
    · rcases a.cells[slot]? with _ | _ | cell <;> rfl
    · rfl

theorem isTaken_map (a : Arena α) (f : α → α) (slot : Nat) : (a.map f).isTaken slot = a.isTaken slot := by
  unfold isTaken map
  rw [Array.getD_eq_getD_getElem?, Array.getD_eq_getD_getElem?, Array.getElem?_map]
  rcases a.cells[slot]? with _ | _ | cell <;> rfl

theorem MarksTaken.after {a : Arena α} (hm : a.MarksTaken) (h : a.Sound) (q : Request α) :
    (a.after q).MarksTaken := by
  intro slot hmarked
  cases q with
  | alloc cell =>
    have hold : a.isMarked slot = true := (a.isMarked_ready slot).symm.trans hmarked
    show (a.alloc cell).1.isTaken slot = true
    rw [h.isTaken_alloc, isTaken_ready, hm slot hold, Bool.true_or]
  | modify id f =>
    have hold : a.isMarked slot = true := by
      change (a.modify id f).isMarked slot = true at hmarked
      unfold modify at hmarked
      split at hmarked <;> exact hmarked
    exact (isTaken_modify a id f slot).trans (hm slot hold)
  | map f => exact (isTaken_map a f slot).trans (hm slot hmarked)
  | mark id =>
    have htaken : (a.mark id).1.isTaken slot = a.isTaken slot := by
      unfold isTaken
      rw [(a.remarked_mark id).cells_eq]
    refine htaken.trans ?_
    rcases Bool.or_eq_true_iff.1 ((h.isMarked_mark id slot).symm.trans hmarked) with hold | hnew
    · exact hm slot hold
    · rw [Bool.and_eq_true, beq_iff_eq, Option.isSome_iff_exists] at hnew
      obtain ⟨⟨cell, hget⟩, rfl⟩ := hnew
      exact isTaken_eq_true.2 ⟨cell, (get?_eq_some.1 hget).2⟩
  | sweep =>
    have hnone := a.unmarked_sweep slot
    rw [show a.sweep.1.isMarked slot = true from hmarked] at hnone
    cases hnone

/-! ## Rows of requests -/

section Rows

variable {a : Arena α} {id : CellId} {cell : α} {slot : Nat}

theorem Sound.run (h : a.Sound) (qs : List (Request α)) : (a.run qs).Sound := by
  induction qs generalizing a with
  | nil => exact h
  | cons q qs ih => exact ih (h.after q)

theorem MarksTaken.run (hm : a.MarksTaken) (h : a.Sound) (qs : List (Request α)) : (a.run qs).MarksTaken := by
  induction qs generalizing a with
  | nil => exact hm
  | cons q qs ih => exact ih (hm.after h q) (h.after q)

/-- An arena never gets smaller. -/
theorem Addressable.of_run {qs : List (Request α)} (haddr : (a.run qs).Addressable) : a.Addressable := by
  induction qs generalizing a with
  | nil => exact haddr
  | cons q qs ih => exact Nat.le_trans (size_cells_after a q) (ih haddr)

/-- The generation of a slot counts how often it was freed. -/
theorem generation_run {generation : UInt16} (hslot : a.generations[slot]? = some generation)
    (qs : List (Request α)) :
    (a.run qs).generations[slot]? = some (generation + UInt16.ofNat (a.frees slot qs)) := by
  induction qs generalizing a generation with
  | nil => exact hslot.trans (congrArg some (UInt16.add_zero _).symm)
  | cons q qs ih =>
    rw [frees, UInt16.ofNat_add, ← UInt16.add_assoc]
    exact ih (generation_after hslot q)

/-- A cell that no sweep comes upon unmarked is found under its handle. -/
theorem Sound.get?_run (h : a.Sound) (hget : a.get? id = some cell) {qs : List (Request α)}
    (haddr : (a.run qs).Addressable) (hkept : a.Survives id qs) :
    (a.run qs).get? id = some (lastChanged id cell qs) := by
  induction qs generalizing a cell with
  | nil => exact hget
  | cons q qs ih =>
    exact ih (h.after q) (h.get?_after hget (Addressable.of_run haddr) hkept.1) haddr hkept.2

/-- A live cell is not lost without its slot being freed. -/
theorem Sound.frees_pos (h : a.Sound) (hget : a.get? id = some cell) {qs : List (Request α)}
    (haddr : (a.run qs).Addressable) (hlost : ¬a.Survives id qs) : 0 < a.frees id.index.toNat qs := by
  induction qs generalizing a cell with
  | nil => exact absurd trivial hlost
  | cons q qs ih =>
    rw [frees]
    cases hloses : a.loses id q with
    | true =>
      rw [freesBy_of_loses hget hloses]
      omega
    | false =>
      have hlater : ¬(a.after q).Survives id qs := fun hkept => hlost ⟨hloses, hkept⟩
      have := ih (h.after q) (h.get?_after hget (Addressable.of_run haddr) hloses) haddr hlater
      omega

/-- A handle whose cell was lost has none as long as the generations of its slot do not come round. -/
theorem Sound.get?_run_lost (h : a.Sound) (hget : a.get? id = some cell) {qs : List (Request α)}
    (haddr : (a.run qs).Addressable) (hlost : ¬a.Survives id qs)
    (hfew : a.frees id.index.toNat qs < UInt16.size) : (a.run qs).get? id = none := by
  have hgeneration := generation_run (get?_eq_some.1 hget).1 qs
  have hpos := h.frees_pos hget haddr hlost
  rw [Option.eq_none_iff_forall_ne_some]
  intro c hc
  rw [(get?_eq_some.1 hc).1, Option.some.injEq] at hgeneration
  have hzero := UInt16.add_eq_left.1 hgeneration.symm
  have hmod := congrArg UInt16.toNat hzero
  rw [UInt16.toNat_ofNat_of_lt' hfew] at hmod
  exact Nat.ne_of_gt hpos hmod

end Rows

/-! ## Counts -/

/-- Counting the places of a list by what stands there is counting its elements. -/
theorem countP_range_getElem? {β : Type} (p : Option β → Bool) (xs : List β) :
    (List.range xs.length).countP (fun i => p xs[i]?) = xs.countP fun x => p (some x) := by
  induction xs with
  | nil => rfl
  | cons x rest ih =>
    rw [List.length_cons, List.range_succ_eq_map, List.countP_cons, List.countP_map, List.countP_cons, ← ih]
    simp [Function.comp_def]

theorem countP_range_array {β : Type} (p : Option β → Bool) (xs : Array β) :
    (List.range xs.size).countP (fun i => p xs[i]?) = xs.countP fun x => p (some x) := by
  have hlist := countP_range_getElem? p xs.toList
  simpa using hlist

/-- The blocks held. -/
def heldBlocks (a : Arena α) : List Nat :=
  (List.range a.present.size).filter fun block => a.present[block]? == some true

/-- The slots of the blocks held. -/
def heldSlots (a : Arena α) : List Nat :=
  a.heldBlocks.flatMap a.slotsOf

section Counts

variable {a : Arena α} {slot block : Nat}

theorem mem_heldBlocks : block ∈ a.heldBlocks ↔ a.present[block]? = some true := by
  simp only [heldBlocks, List.mem_filter, List.mem_range, beq_iff_eq, and_iff_right_iff_imp]
  exact fun hheld => (Array.getElem?_eq_some_iff.1 hheld).1

theorem length_heldBlocks (a : Arena α) : a.heldBlocks.length = a.present.count true := by
  have hcount := countP_range_array (fun held => held == some true) a.present
  rw [heldBlocks, ← List.countP_eq_length_filter, hcount]
  simp [Array.count]

/-- Counting the blocks that a sweep keeps. -/
theorem count_keptBlocks (a : Arena α) : (a.keptBlocks a.sweptUsed).count true
    = a.heldBlocks.countP fun block => a.sweep.1.heldBlocks.contains block := by
  have hcount := countP_range_array (fun held => held == some true) (a.keptBlocks a.sweptUsed)
  have hsize : (a.keptBlocks a.sweptUsed).size = a.present.size := by simp [keptBlocks]
  have hkept (block : Nat) : a.sweep.1.heldBlocks.contains block = true ↔
      (a.keptBlocks a.sweptUsed)[block]? = some true := by
    rw [List.contains_iff_mem, mem_heldBlocks]
    exact getElem?_trimBlocks _ _
  have hheld : a.heldBlocks = (List.range a.present.size).filter fun block => a.present[block]? == some true := rfl
  rw [hheld, List.countP_filter]
  refine Eq.trans (hcount.trans ?_).symm ?_
  · simp [Array.count]
  · rw [hsize]
    refine List.countP_congr fun block _ => ?_
    rw [Bool.and_eq_true, hkept, beq_iff_eq, beq_iff_eq]
    exact ⟨fun h => ⟨h, ((a.mem_keptBlocks a.sweptUsed block).1 h).1⟩, And.left⟩

theorem mem_heldSlots (hpos : 0 < a.cellsPerBlock) :
    slot ∈ a.heldSlots ↔ a.present[slot / a.cellsPerBlock]? = some true := by
  simp only [heldSlots, List.mem_flatMap, mem_heldBlocks, mem_slotsOf hpos]
  constructor
  · rintro ⟨block, hheld, rfl⟩
    exact hheld
  · exact fun hheld => ⟨_, hheld, rfl⟩

theorem nodup_heldSlots (hpos : 0 < a.cellsPerBlock) : a.heldSlots.Nodup := by
  refine List.nodup_flatMap.2 ⟨fun block _ => a.nodup_slotsOf block, ?_⟩
  refine (List.nodup_range.filter _).imp fun {block block'} hne => ?_
  intro slot hmem hmem'
  exact hne (((mem_slotsOf hpos).1 hmem).symm.trans ((mem_slotsOf hpos).1 hmem'))

theorem length_heldSlots (a : Arena α) : a.heldSlots.length = a.present.count true * a.cellsPerBlock := by
  have hlength : ∀ block, (a.slotsOf block).length = a.cellsPerBlock := fun block => by simp [slotsOf]
  rw [heldSlots, List.length_flatMap, ← length_heldBlocks]
  simp only [hlength, List.map_const', List.sum_replicate_nat]

/-- The free slots are the vacant ones of the blocks held. -/
theorem Sound.free_perm (h : a.Sound) : a.free.toList.Perm (a.heldSlots.filter fun slot => !a.isTaken slot) := by
  refine (List.perm_ext_iff_of_nodup h.free_nodup ((nodup_heldSlots h.perBlock_pos).filter _)).2 fun slot => ?_
  rw [h.mem_free, List.mem_filter, mem_heldSlots h.perBlock_pos, and_comm]
  refine and_congr_right fun hheld => ?_
  have hblock := (Array.getElem?_eq_some_iff.1 hheld).1
  have hlt : slot < a.cells.size :=
    Nat.lt_of_lt_of_le ((Nat.div_lt_iff_lt_mul h.perBlock_pos).1 hblock) h.room
  unfold isTaken
  rw [Array.getD_eq_getD_getElem?, Array.getElem?_eq_getElem hlt]
  cases a.cells[slot] <;> simp

/-- Every cell is in a block held. -/
theorem Sound.taken_perm (h : a.Sound) :
    (a.heldSlots.filter a.isTaken).Perm ((List.range a.cells.size).filter a.isTaken) := by
  refine (List.perm_ext_iff_of_nodup ((nodup_heldSlots h.perBlock_pos).filter _)
    (List.nodup_range.filter _)).2 fun slot => ?_
  rw [List.mem_filter, List.mem_filter, mem_heldSlots h.perBlock_pos, List.mem_range]
  refine and_congr_left fun htaken => ?_
  obtain ⟨cell, hcell⟩ := isTaken_eq_true.1 htaken
  exact iff_of_true (h.held slot cell hcell) (Array.getElem?_eq_some_iff.1 hcell).1

theorem countP_cells (a : Arena α) : a.cells.countP Option.isSome = (List.range a.cells.size).countP a.isTaken := by
  have hcells := countP_range_array (fun cell => (cell.getD none).isSome) a.cells
  refine hcells.symm.trans (List.countP_congr fun slot _ => ?_)
  unfold isTaken
  rw [Array.getD_eq_getD_getElem?]

/-- The counts of the blocks held add up. -/
theorem foldl_zipWith_held (slots : Nat → List Nat) (p : Nat → Bool) (held : List Bool) (counts : List Nat)
    (hcounts : ∀ block : Nat, held[block]? = some true → counts[block]? = some ((slots block).countP p)) (n : Nat) :
    (held.zipWith (fun held n => if held then n else 0) counts).foldl (· + ·) n
      = n + (((List.range held.length).filter fun block => held[block]? == some true).flatMap slots).countP p := by
  induction held generalizing counts slots n with
  | nil => rfl
  | cons first rest ih =>
    rcases counts with _ | ⟨count, counts⟩
    · have hnone :
          ((List.range (first :: rest).length).filter fun block => (first :: rest)[block]? == some true) = [] := by
        refine List.filter_eq_nil_iff.2 fun block _ hheld => ?_
        have := hcounts block (by simpa using hheld)
        simp at this
      rw [hnone]
      rfl
    · have hrest := ih (fun block => slots (block + 1)) counts fun block hheld => by
        simpa using hcounts (block + 1) (by simpa using hheld)
      rw [List.zipWith_cons_cons, List.foldl_cons, hrest, List.length_cons, List.range_succ_eq_map, List.filter_cons,
        List.filter_map]
      cases first with
      | false => simp [Function.comp_def, List.flatMap_map]
      | true =>
        have hfirst : count = (slots 0).countP p := by simpa using hcounts 0 rfl
        simp [Function.comp_def, hfirst, List.flatMap_map, Nat.add_assoc]

end Counts

/-! ## The whole -/

/-- The numbers that an arena gives of itself are those of its cells and slots. -/
structure Balanced (a : Arena α) : Prop where
  blocks_eq : a.stats.blocks = a.heldBlocks.length
  live_eq : a.stats.live = a.cells.countP Option.isSome
  total_eq : a.stats.live + a.stats.free = a.stats.blocks * a.cellsPerBlock

/-- The handle that a slot has now. -/
def handleAt (a : Arena α) (slot : Nat) : CellId :=
  ⟨UInt32.ofNat slot, (a.generations[slot]?).getD 0⟩

/-- The live cells and the handles under which something is found are one to one. -/
structure Handled (a : Arena α) : Prop where
  get?_iff : ∀ id cell, a.get? id = some cell ↔ ∃ slot : Nat, a.cells[slot]? = some (some cell) ∧ a.handleAt slot = id
  distinct : ∀ slot slot' cell cell', a.cells[slot]? = some (some cell) → a.cells[slot']? = some (some cell') →
    a.handleAt slot = a.handleAt slot' → slot = slot'

/-- What it is to put a cell into an arena. -/
structure AllocSpec (a : Arena α) (cell : α) (b : Arena α) (id : CellId) : Prop where
  /-- There is a free slot, it is vacant, and its block is held. -/
  slot : ∃ slot : Nat, a.ready.free.back? = some slot ∧ a.ready.cells[slot]? = some none ∧
    a.ready.present[slot / a.ready.cellsPerBlock]? = some true ∧ a.ready.handleAt slot = id
  /-- The handle had no cell, and the new one is not marked. -/
  fresh : a.get? id = none ∧ b.isMarked id.index.toNat = false
  /-- The cell is found until a sweep comes upon it unmarked. -/
  kept : ∀ later, (b.run later).Addressable → b.Survives id later →
    (b.run later).get? id = some (lastChanged id cell later)
  /-- From then on the handle has no cell, and nothing is changed or marked through it. -/
  lost : ∀ later, (b.run later).Addressable → ¬b.Survives id later → b.frees id.index.toNat later < UInt16.size →
    (b.run later).get? id = none ∧ (∀ f, (b.run later).modify id f = b.run later) ∧
      (b.run later).mark id = (b.run later, false)

/-- What it is to mark the cell of a handle. -/
structure MarkSpec (a : Arena α) (id : CellId) (b : Arena α) (accepted : Bool) : Prop where
  /-- It is done once, and only where there is a cell. -/
  accepted_iff : accepted = true ↔ (a.get? id).isSome = true ∧ a.isMarked id.index.toNat = false
  isMarked_iff : ∀ slot, b.isMarked slot = true ↔ a.isMarked slot = true ∨ accepted = true ∧ slot = id.index.toNat
  get?_eq : ∀ id', b.get? id' = a.get? id'

/-- What a sweep does. -/
structure SweepSpec (a b : Arena α) (stats : SweepStats) : Prop where
  /-- What is marked stays, under the handle it has. -/
  get?_eq : ∀ id, b.get? id = if a.isMarked id.index.toNat then a.get? id else none
  unmarked : b.Unmarked
  /-- The blocks that stay are the first one and those of marked cells. -/
  held_iff : ∀ block : Nat, b.present[block]? = some true ↔ a.present[block]? = some true ∧
    (block = 0 ∨ ∃ slot cell, slot / a.cellsPerBlock = block ∧ a.cells[slot]? = some (some cell) ∧ a.isMarked slot = true)
  freed_eq : stats.freed = (List.range a.cells.size).countP a.isGarbage
  released_eq : stats.releasedBlocks = a.heldBlocks.countP fun block => !b.heldBlocks.contains block

section Whole

variable {a : Arena α}

theorem Sound.balanced (h : a.Sound) : a.Balanced := by
  have hlive : a.stats.live = a.heldSlots.countP a.isTaken := by
    have hcounts := foldl_zipWith_held a.slotsOf a.isTaken a.present.toList a.used.toList
      (fun block hheld => (Array.getElem?_toList ..).trans (h.used_eq block (by simpa using hheld))) 0
    show (a.present.zipWith _ a.used).foldl _ 0 = _
    rw [← Array.foldl_toList, Array.toList_zipWith, hcounts, Nat.zero_add]
    simp only [heldSlots, heldBlocks, Array.getElem?_toList, Array.length_toList]
  refine ⟨(length_heldBlocks a).symm, ?_, ?_⟩
  · rw [hlive, countP_cells, List.countP_eq_length_filter, h.taken_perm.length_eq, ← List.countP_eq_length_filter]
  · have hfree : a.stats.free = a.heldSlots.countP fun slot => !a.isTaken slot := by
      rw [List.countP_eq_length_filter, ← h.free_perm.length_eq]
      rfl
    have hall := List.length_eq_countP_add_countP a.isTaken (l := a.heldSlots)
    rw [length_heldSlots] at hall
    rw [hlive, hfree]
    show _ = a.present.count true * a.cellsPerBlock
    rw [hall]
    simp

theorem Sound.handled (h : a.Sound) (haddr : a.Addressable) : a.Handled := by
  have hindex {slot : Nat} {cell : α} (hcell : a.cells[slot]? = some (some cell)) :
      (a.handleAt slot).index.toNat = slot := by
    have hlt := (Array.getElem?_eq_some_iff.1 hcell).1
    exact UInt32.toNat_ofNat_of_lt' (Nat.lt_of_lt_of_le hlt haddr)
  refine ⟨fun id cell => ?_, fun slot slot' cell cell' hcell hcell' heq => ?_⟩
  · constructor
    · intro hget
      obtain ⟨hgeneration, hcell⟩ := get?_eq_some.1 hget
      refine ⟨_, hcell, id_ext (hindex hcell) ?_⟩
      simp only [handleAt, hgeneration, Option.getD_some]
    · rintro ⟨slot, hcell, rfl⟩
      have hlt := (Array.getElem?_eq_some_iff.1 hcell).1
      refine get?_eq_some.2 ?_
      rw [hindex hcell]
      refine ⟨?_, hcell⟩
      rw [← h.generations_size] at hlt
      simp [handleAt, hlt]
  · rw [← hindex hcell, heq, hindex hcell']

theorem Sound.allocSpec (h : a.Sound) (hm : a.MarksTaken) {cell : α} (haddr : (a.alloc cell).1.Addressable) :
    AllocSpec a cell (a.alloc cell).1 (a.alloc cell).2.1 := by
  have hsound := h.alloc cell
  have hget : (a.alloc cell).1.get? (a.alloc cell).2.1 = some cell := by rw [h.get?_alloc haddr, if_pos rfl]
  have hunmarked : a.isMarked a.nextSlot = false := by
    rw [← Bool.not_eq_true]
    intro hmarked
    obtain ⟨c, hc⟩ := isTaken_eq_true.1 ((isTaken_ready a _).trans (hm _ hmarked))
    rw [h.nextSlot_free.1] at hc
    cases hc
  refine ⟨⟨a.nextSlot, ?_, h.nextSlot_free.1, h.nextSlot_free.2, rfl⟩, ⟨h.get?_alloc_id haddr, ?_⟩,
    fun later hlater hkept => hsound.get?_run hget hlater hkept, fun later hlater hlost hfew => ?_⟩
  · rw [← Array.getLast?_toList, h.free_ready, List.getLast?_concat]
  · rw [h.index_alloc haddr]
    exact (isMarked_ready a _).trans hunmarked
  · have hnone := hsound.get?_run_lost hget hlater hlost hfew
    exact ⟨hnone, refused_of_get?_eq_none hnone⟩

theorem Sound.markSpec (h : a.Sound) (id : CellId) : MarkSpec a id (a.mark id).1 (a.mark id).2 := by
  refine ⟨by rw [snd_mark]; simp, fun slot => ?_, (a.remarked_mark id).get?⟩
  rw [h.isMarked_mark, snd_mark, Bool.or_eq_true_iff, Bool.and_eq_true, Bool.and_eq_true, beq_iff_eq]
  constructor
  · rintro (hold | ⟨hget, rfl⟩)
    · exact .inl hold
    · cases hm : a.isMarked id.index.toNat with
      | true => exact .inl rfl
      | false => exact .inr ⟨⟨hget, rfl⟩, rfl⟩
  · rintro (hold | ⟨⟨hget, -⟩, hslot⟩)
    · exact .inl hold
    · exact .inr ⟨hget, hslot⟩

theorem Sound.sweepSpec (h : a.Sound) : SweepSpec a a.sweep.1 a.sweep.2 := by
  refine ⟨a.get?_sweep, a.unmarked_sweep, fun block => ?_, ?_, ?_⟩
  · rw [h.present_sweep, isEmptyBlock_eq_false h.perBlock_pos]
    refine and_congr_right fun _ => or_congr_right ?_
    simp only [getElem?_keptCells, Option.map_eq_some_iff]
    constructor
    · rintro ⟨slot, cell, hblock, old, hold, hkept⟩
      split at hkept
      · subst hkept
        exact ⟨slot, cell, hblock, hold, ‹_›⟩
      · cases hkept
    · rintro ⟨slot, cell, hblock, hold, hmarked⟩
      exact ⟨slot, cell, hblock, some cell, hold, if_pos hmarked⟩
  · have hkept := countP_cells a.sweep.1
    have hsize : a.sweep.1.cells.size = a.cells.size := by simp [Arena.sweep, keptCells]
    show a.cells.countP Option.isSome - a.sweep.1.cells.countP Option.isSome = _
    rw [countP_cells, hkept, hsize, countP_isTaken_sweep, Nat.add_sub_cancel_left]
  · have hsplit := List.length_eq_countP_add_countP (fun block => a.sweep.1.heldBlocks.contains block)
      (l := a.heldBlocks)
    rw [length_heldBlocks] at hsplit
    show a.present.count true - (a.keptBlocks a.sweptUsed).count true = _
    rw [a.count_keptBlocks, hsplit]
    simp

/-- An arena is a partial map with handles of its own making, whatever was asked of it. -/
theorem history_spec (cellsPerBlock reserve : Nat) (history : List (Request α))
    (haddr : ((empty cellsPerBlock reserve : Arena α).run history).Addressable) :
    let a := (empty cellsPerBlock reserve : Arena α).run history
    a.Sound ∧ a.MarksTaken ∧ a.Balanced ∧ a.Handled ∧ SweepSpec a a.sweep.1 a.sweep.2 ∧
      (∀ id, MarkSpec a id (a.mark id).1 (a.mark id).2) ∧
      ∀ cell, (a.alloc cell).1.Addressable → AllocSpec a cell (a.alloc cell).1 (a.alloc cell).2.1 := by
  have hempty := sound_empty (α := α) cellsPerBlock reserve
  have hsound := hempty.run history
  have hmarks : ((empty cellsPerBlock reserve : Arena α).run history).MarksTaken := by
    refine MarksTaken.run (fun slot hmarked => ?_) hempty history
    rw [unmarked_empty] at hmarked
    cases hmarked
  exact ⟨hsound, hmarks, hsound.balanced, hsound.handled haddr, hsound.sweepSpec, hsound.markSpec,
    fun cell => hsound.allocSpec hmarks⟩

/-- The second block is given back, and taken again. -/
def renewal : List (Request Nat) :=
  [.mark ⟨0, 0⟩, .sweep, .alloc 7, .alloc 8]

/-- The handle into the block that was given back stays bad, although its slot has a cell again. -/
theorem history_spec_renewal :
    let a := (empty 2 0 : Arena Nat).run [.alloc 1, .alloc 2]
    let b := (a.alloc 3).1
    a.Addressable ∧ a.Balanced ∧ (a.alloc 3).2.1 = ⟨2, 0⟩ ∧ (b.run renewal).get? ⟨2, 1⟩ = some 8 ∧
      (b.run renewal).get? ⟨2, 0⟩ = none := by
  intro a b
  have haddr : a.Addressable := by decide +kernel
  have hid : (a.alloc 3).2.1 = ⟨2, 0⟩ := by decide +kernel
  obtain ⟨-, -, hbalanced, -, -, -, halloc⟩ := history_spec 2 0 [.alloc 1, .alloc 2] haddr
  have hlost : ¬b.Survives (a.alloc 3).2.1 renewal := fun hkept => absurd hkept.2.1 (by decide +kernel)
  have hnone := ((halloc 3 (by decide +kernel)).lost renewal (by decide +kernel) hlost (by decide +kernel)).1
  rw [show ((empty 2 0 : Arena Nat).run [.alloc 1, .alloc 2]).alloc 3 = a.alloc 3 from rfl, hid] at hnone
  exact ⟨haddr, hbalanced, hid, by decide +kernel, hnone⟩

end Whole

end ScriptEngine.Arena
