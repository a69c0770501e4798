import ScriptEngine.Proofs.Heap.Marking
/-!
What a collection does to a heap.

`Kept` and `Collected` list it: the cells that stay are those that can be reached, under the handles they
had and with the values they had, strings at their new places; the records that stay are those that can
be reached, in the order they had. A collection does the first in any case (`kept_collect`), and the
second when the strings it comes upon are records (`Recorded`, `Recorded.collect`).
-/

namespace ScriptEngine

namespace Heap

/-! ## Relocation -/

section Relocation

variable (moves : StringHeap.Relocation)

/-- An object with its items at their new places. -/
def relocateCell (cell : ObjectCell) : ObjectCell :=
  match cell with
  | ⟨properties, .array items⟩ => ⟨properties, .array (items.map (StringHeap.relocate moves))⟩
  | other => other

/-- A property with its name and value at their new places. -/
def relocateProperty (p : Property) : Property :=
  ⟨StringHeap.relocate moves p.name, StringHeap.relocate moves p.value⟩

@[simp] theorem properties_relocateCell (cell : ObjectCell) :
    (relocateCell moves cell).properties = cell.properties := by
  rcases cell with ⟨properties, kind⟩
  cases kind <;> rfl

theorem relocate_of_offset?_eq_none {v : Value} (h : v.offset? = none) :
    StringHeap.relocate moves v = v := by
  cases v with
  | string s => cases s <;> first | rfl | simp [Value.offset?] at h
  | _ => rfl

@[simp] theorem cellId?_relocate (v : Value) :
    (StringHeap.relocate moves v).cellId? = v.cellId? := by
  cases hv : v.offset? with
  | none => rw [relocate_of_offset?_eq_none moves hv]
  | some offset =>
    cases v with
    | string s =>
      cases s with
      | owned old =>
        simp only [StringHeap.relocate]
        split
        · split <;> rfl
        · rfl
      | _ => rfl
    | _ => simp [Value.offset?] at hv

theorem relocate_eq_self {moves : StringHeap.Relocation} (hempty : moves.isEmpty = true) (v : Value) :
    StringHeap.relocate moves v = v := by
  cases v with
  | string s =>
    cases s with
    | owned offset =>
      have hnone : moves[offset.val]? = none := Std.HashMap.getElem?_of_isEmpty hempty
      simp only [StringHeap.relocate, hnone]
    | _ => rfl
  | _ => rfl

theorem relocateCell_eq_self {moves : StringHeap.Relocation} (hempty : moves.isEmpty = true)
    (cell : ObjectCell) : relocateCell moves cell = cell := by
  have hid : StringHeap.relocate moves = id := funext (relocate_eq_self hempty)
  rcases cell with ⟨properties, kind⟩
  cases kind <;> simp [relocateCell, hid]

theorem relocateProperty_eq_self {moves : StringHeap.Relocation} (hempty : moves.isEmpty = true)
    (p : Property) : relocateProperty moves p = p := by
  simp [relocateProperty, relocate_eq_self hempty]

theorem get?_objects_relocate (h : Heap) (id : CellId) :
    (h.relocate moves).objects.get? id = (h.objects.get? id).map (relocateCell moves) := by
  unfold Heap.relocate
  split
  · rename_i hempty
    rw [show relocateCell moves = fun cell => cell from funext (relocateCell_eq_self hempty)]
    simp
  · exact Arena.get?_map _ _ _

theorem get?_properties_relocate (h : Heap) (id : CellId) :
    (h.relocate moves).properties.get? id = (h.properties.get? id).map (relocateProperty moves) := by
  unfold Heap.relocate
  split
  · rename_i hempty
    rw [show relocateProperty moves = fun p => p from funext (relocateProperty_eq_self hempty)]
    simp
  · exact Arena.get?_map _ _ _

theorem signatures_relocate (h : Heap) : (h.relocate moves).signatures = h.signatures := by
  unfold Heap.relocate
  split <;> rfl

theorem strings_relocate (h : Heap) : (h.relocate moves).strings = h.strings := by
  unfold Heap.relocate
  split <;> rfl

end Relocation

/-! ## What a collection does -/

/-- Strings of the heap that a collection comes upon are records: those in root slots and in live
cells. -/
structure Rooted (h : Heap) (roots : List Value) : Prop where
  roots : ∀ v ∈ roots, ∀ offset, v.offset? = some offset → h.strings.IsRecord offset
  items : ∀ id cell, h.objects.get? id = some cell →
    ∀ v ∈ cell.kind.values, ∀ offset, v.offset? = some offset → h.strings.IsRecord offset
  properties : ∀ id p, h.properties.get? id = some p →
    ∀ v ∈ [p.name, p.value], ∀ offset, v.offset? = some offset → h.strings.IsRecord offset

/-- The offsets of the strings that a collection comes upon. -/
def heldOffsets (h : Heap) (roots : List Value) : List Nat :=
  (roots ++ h.objects.cells.toList.flatMap (fun cell => (cell.map fun c => c.kind.values).getD [])
    ++ h.properties.cells.toList.flatMap fun p => (p.map fun p => [p.name, p.value]).getD []).filterMap
      Value.offset?

theorem rooted_of_heldOffsets {h : Heap} {roots : List Value}
    (hrecord : ∀ offset ∈ h.heldOffsets roots, h.strings.IsRecord offset) : h.Rooted roots := by
  refine ⟨fun v hv offset hoffset => ?_, fun id cell hcell v hv offset hoffset => ?_,
    fun id p hp v hv offset hoffset => ?_⟩
  · exact hrecord offset (List.mem_filterMap.2 ⟨v, by simp [hv], hoffset⟩)
  · have hmem : some cell ∈ h.objects.cells.toList :=
      Array.mem_toList_iff.2 (Array.mem_of_getElem? (Arena.get?_eq_some.1 hcell).2)
    refine hrecord offset (List.mem_filterMap.2 ⟨v, ?_, hoffset⟩)
    exact List.mem_append_left _ (List.mem_append_right _ (List.mem_flatMap.2 ⟨some cell, hmem, hv⟩))
  · have hmem : some p ∈ h.properties.cells.toList :=
      Array.mem_toList_iff.2 (Array.mem_of_getElem? (Arena.get?_eq_some.1 hp).2)
    refine hrecord offset (List.mem_filterMap.2 ⟨v, ?_, hoffset⟩)
    exact List.mem_append_right _ (List.mem_flatMap.2 ⟨some p, hmem, hv⟩)

theorem mem_propertyValues {h : Heap} {ids : List PropertyId} {v : Value} :
    v ∈ h.propertyValues ids ↔
      ∃ id ∈ ids, ∃ p, h.properties.get? id.cell = some p ∧ v ∈ [p.name, p.value] := by
  unfold propertyValues
  rw [List.mem_flatMap]
  refine exists_congr fun id => and_congr_right fun _ => ?_
  cases h.properties.get? id.cell with
  | none => simp
  | some p => simp

/-- Strings that can be reached are records. -/
def Recorded (h : Heap) (roots : List Value) : Prop :=
  ∀ {v : Value}, h.Reaches roots v → ∀ {offset : Nat}, v.offset? = some offset → h.strings.IsRecord offset

theorem Rooted.isRecord {h : Heap} {roots : List Value} (hr : h.Rooted roots) : h.Recorded roots := by
  intro v hv offset hoffset
  cases hv with
  | root hroot => exact hr.roots v hroot offset hoffset
  | @held v' _ cell _ hcell hmem =>
    cases hid : v'.cellId? with
    | none => simp [cellOf?, hid] at hcell
    | some id =>
      rw [cellOf?, hid, Option.bind_some] at hcell
      rcases List.mem_append.1 hmem with hmem | hmem
      · exact hr.items _ cell hcell v hmem offset hoffset
      · obtain ⟨p, -, prop, hprop, hmem⟩ := mem_propertyValues.1 hmem
        exact hr.properties _ prop hprop v hmem offset hoffset

open Classical in
/-- The offsets that can be reached, in order. -/
noncomputable def reachedOffsets (h : Heap) (roots : List Value) : List Nat :=
  (List.range h.strings.data.size).filter fun offset => decide (h.ReachesRecord roots offset)

open Classical in
/-- The entries that can be reached among those of some texts, in order. -/
noncomputable def reachedEntries (h : Heap) (roots : List Value) (texts : List (List UInt8)) :
    List (Nat × List UInt8) :=
  (StringHeap.entriesFrom 0 texts).filter fun e => decide (h.ReachesRecord roots e.1)

/-- What a collection makes of the cells of a heap: `moves` says where the records that moved went. -/
structure Kept (h : Heap) (roots : List Value) (h' : Heap) (moves : StringHeap.Relocation) :
    Prop where
  object_iff : ∀ id cell', h'.objects.get? id = some cell' ↔
    ∃ cell, h.objects.get? id = some cell ∧ h.ReachesObject roots ⟨id⟩ ∧
      cell' = relocateCell moves cell
  property_iff : ∀ p prop', h'.properties.get? p = some prop' ↔
    ∃ prop, h.properties.get? p = some prop ∧ h.ReachesProperty roots ⟨p⟩ ∧
      prop' = relocateProperty moves prop
  signature_iff : ∀ id f, h'.signatures.get? id = some f ↔
    h.signatures.get? id = some f ∧ h.Reaches roots (.signature ⟨id⟩)
  objects_sound : h'.objects.Sound
  properties_sound : h'.properties.Sound
  signatures_sound : h'.signatures.Sound
  unmarked : h'.Unmarked
  tight : h'.objects.Tight ∧ h'.properties.Tight ∧ h'.signatures.Tight

/-- What a collection makes of a heap whose strings are records. -/
structure Collected (h : Heap) (roots : List Value) (h' : Heap) (moves : StringHeap.Relocation) : Prop
    extends Kept h roots h' moves where
  holds : ∀ texts, h.strings.Holds texts →
    h'.strings.Holds ((h.reachedEntries roots texts).map Prod.snd)
  /-- A record that stays goes where the records that stay before it end. -/
  place : ∀ texts, h.strings.Holds texts → ∀ (offset : Payload) before t behind,
    h.reachedEntries roots texts = before ++ (offset.val, t) :: behind →
    ∃ new : Payload, new.val = (before.flatMap fun e => StringHeap.record e.2).length ∧
      StringHeap.relocate moves (.string (.owned offset)) = .string (.owned new)
  data_eq : h'.strings.data.data.toList = (h.reachedOffsets roots).flatMap h.strings.recordAt
  borrowed : h'.strings.borrowed = h.strings.borrowed
  /-- A string that can be reached is a record afterwards, with the bytes it had. -/
  string : ∀ offset, h.Reaches roots (.string (.owned offset)) →
    ∃ new : Payload, StringHeap.relocate moves (.string (.owned offset)) = .string (.owned new) ∧
      h'.strings.IsRecord new.val ∧ h'.strings.bytes (.owned new) = h.strings.bytes (.owned offset)

theorem isMarked_iff {α : Type} {a : Arena α} {id : CellId} {cell : α} {P : Prop}
    (h : ∀ c, a.get? id = some c → (a.isMarked id.index.toNat = true ↔ P)) :
    (if a.isMarked id.index.toNat then a.get? id else none) = some cell ↔ a.get? id = some cell ∧ P := by
  cases hget : a.get? id with
  | none => simp
  | some c =>
    have hiff := h c hget
    by_cases hm : a.isMarked id.index.toNat = true
    · rw [if_pos hm]
      simp [hiff.1 hm]
    · rw [if_neg hm]
      constructor
      · intro hnone
        simp at hnone
      · exact fun hp => absurd (hiff.2 hp.2) hm

theorem Marked.get?_sweep_objects {h₀ h : Heap} {roots : List Value} {offsets : List Nat}
    (hm : Marked h₀ roots h offsets) (id : CellId) (cell : ObjectCell) :
    h.objects.sweep.1.get? id = some cell ↔
      h₀.objects.get? id = some cell ∧ h₀.ReachesObject roots ⟨id⟩ := by
  rw [Arena.get?_sweep, ← hm.objects.get?]
  exact isMarked_iff fun c hc => hm.isMarked_object ⟨id⟩ c (by rw [← hm.objects.get?]; exact hc)

theorem Marked.get?_sweep_properties {h₀ h : Heap} {roots : List Value} {offsets : List Nat}
    (hm : Marked h₀ roots h offsets) (id : CellId) (p : Property) :
    h.properties.sweep.1.get? id = some p ↔
      h₀.properties.get? id = some p ∧ h₀.ReachesProperty roots ⟨id⟩ := by
  rw [Arena.get?_sweep, ← hm.properties.get?]
  exact isMarked_iff fun c hc => hm.isMarked_property ⟨id⟩ c (by rw [← hm.properties.get?]; exact hc)

theorem Marked.get?_sweep_signatures {h₀ h : Heap} {roots : List Value} {offsets : List Nat}
    (hm : Marked h₀ roots h offsets) (id : CellId) (f : Ffi.ForeignFunction) :
    h.signatures.sweep.1.get? id = some f ↔
      h₀.signatures.get? id = some f ∧ h₀.Reaches roots (.signature ⟨id⟩) := by
  rw [Arena.get?_sweep, ← hm.signatures.get?]
  exact isMarked_iff fun c hc => hm.isMarked_signature ⟨id⟩ c (by rw [← hm.signatures.get?]; exact hc)

/-- Behind the sweeps and the compaction, before values are rewritten. -/
def swept (h : Heap) (live : List Nat) : Heap :=
  ⟨h.objects.sweep.1, h.properties.sweep.1, h.signatures.sweep.1, (h.strings.compact live).1, false⟩

/-- What the sweeps and the compaction report. -/
def sweptStats (h : Heap) (live : List Nat) : CollectStats :=
  ⟨h.objects.sweep.2.freed, h.properties.sweep.2.freed, h.signatures.sweep.2.freed,
    h.objects.sweep.2.releasedBlocks + h.properties.sweep.2.releasedBlocks
      + h.signatures.sweep.2.releasedBlocks, (h.strings.compact live).2.2⟩

/-- The heap that a collection leaves, before storage is given back. -/
def compacted (h : Heap) (live : List Nat) : Heap :=
  (h.swept live).relocate (h.strings.compact live).2.1

/-- A collection marks, sweeps, compacts and rewrites; a full one gives storage back. -/
theorem collect_eq {h : Heap} {roots : List Value} {marked : Heap × List Nat}
    (hmarked : h.markAll [] roots (h.markLimit roots) = marked) (full : Bool) (slack : Nat) :
    h.collect roots full slack
      = (if full then { marked.1.compacted marked.2 with
            strings := (marked.1.compacted marked.2).strings.trim slack }
          else marked.1.compacted marked.2,
        (marked.1.strings.compact marked.2).2.1, marked.1.sweptStats marked.2) := by
  unfold collect
  rw [hmarked]
  rfl

theorem data_trim (h : StringHeap) (slack : Nat) : (h.trim slack).data = h.data := by
  unfold StringHeap.trim
  split <;> rfl

theorem borrowed_trim (h : StringHeap) (slack : Nat) : (h.trim slack).borrowed = h.borrowed := by
  unfold StringHeap.trim
  split <;> rfl

theorem holds_congr {h h' : StringHeap} (hdata : h'.data = h.data) {texts : List (List UInt8)} :
    h'.Holds texts ↔ h.Holds texts := by
  constructor
  · exact fun ⟨hbytes, hshort⟩ => ⟨hdata ▸ hbytes, hshort⟩
  · exact fun ⟨hbytes, hshort⟩ => ⟨hdata ▸ hbytes, hshort⟩

theorem bytes_owned_congr {h h' : StringHeap} (hdata : h'.data = h.data) (offset : Payload) :
    h'.bytes (.owned offset) = h.bytes (.owned offset) := by
  simp only [StringHeap.bytes, StringHeap.span?, hdata]

theorem isRecord_of_mem {h : StringHeap} {texts : List (List UInt8)} (hholds : h.Holds texts)
    {offset : Nat} (hrecord : h.IsRecord offset) :
    ∃ t, (offset, t) ∈ StringHeap.entriesFrom 0 texts := by
  obtain ⟨texts', hholds', t, ht⟩ := hrecord
  rw [hholds.unique hholds']
  exact ⟨t, ht⟩

/-- A string that is kept is a record of the compacted heap, with the bytes it had. -/
theorem string_compact {h : StringHeap} {texts : List (List UInt8)} (hholds : h.Holds texts)
    {live : List Nat} (hlive : ∀ o ∈ live, ∃ t, (o, t) ∈ StringHeap.entriesFrom 0 texts)
    {offset : Payload} (hmem : offset.val ∈ live) :
    ∃ new : Payload, StringHeap.relocate (h.compact live).2.1 (.string (.owned offset))
        = .string (.owned new) ∧ (h.compact live).1.IsRecord new.val ∧
      (h.compact live).1.bytes (.owned new) = h.bytes (.owned offset) := by
  obtain ⟨t, ht⟩ := hlive _ hmem
  have hkept : (offset.val, t) ∈ StringHeap.keptEntries texts live :=
    List.mem_filter.2 ⟨ht, by simpa using hmem⟩
  obtain ⟨before, behind, hsplit⟩ := List.append_of_mem hkept
  obtain ⟨new, hnew, hrelocate⟩ := hholds.relocate_compact hlive hsplit
  have hholds' := hholds.compact hlive
  have hentry : (new.val, t) ∈ StringHeap.entriesFrom 0
      ((StringHeap.keptEntries texts live).map Prod.snd) := by
    refine StringHeap.mem_entriesFrom.2 ⟨before.map Prod.snd, behind.map Prod.snd, ?_, ?_⟩
    · rw [hsplit]
      simp
    · rw [hnew, List.flatMap_map, Nat.zero_add]
  exact ⟨new, hrelocate, ⟨_, hholds', t, hentry⟩, by rw [hholds'.bytes_of_mem hentry, hholds.bytes_of_mem ht]⟩

/-- What holds of arenas whatever their values are holds behind the rewriting of values. -/
theorem relocate_objects_of (moves : StringHeap.Relocation) {P : Arena ObjectCell → Prop} {h : Heap}
    (hsame : P h.objects) (hmap : ∀ f, P (h.objects.map f)) : P (h.relocate moves).objects := by
  unfold Heap.relocate
  split
  · exact hsame
  · exact hmap _

theorem relocate_properties_of (moves : StringHeap.Relocation) {P : Arena Property → Prop} {h : Heap}
    (hsame : P h.properties) (hmap : ∀ f, P (h.properties.map f)) : P (h.relocate moves).properties := by
  unfold Heap.relocate
  split
  · exact hsame
  · exact hmap _

theorem borrowed_compact (h : StringHeap) (live : List Nat) :
    (h.compact live).1.borrowed = h.borrowed := rfl

/-- With no record asked for, none stays. -/
theorem data_compact_nil (h : StringHeap) : (h.compact []).1.data.data.toList = [] := by
  have hascending : StringHeap.ascending h.data.size [] = [] :=
    List.eq_nil_iff_forall_not_mem.2 fun i hi => by simpa using (StringHeap.mem_ascending.1 hi).2
  simp only [StringHeap.compact, hascending, StringHeap.slide, Buffer.toList_front, List.take_zero]

section Compaction

variable {h h₁ : Heap} {roots : List Value} {live : List Nat}

theorem Marked.records_of_mem (hm : Marked h roots h₁ live) (hr : h.Recorded roots)
    {texts : List (List UInt8)} (hholds : h.strings.Holds texts) :
    ∀ offset ∈ live, ∃ t, (offset, t) ∈ StringHeap.entriesFrom 0 texts := by
  intro offset hmem
  obtain ⟨v, hv, hoffset⟩ := (hm.mem_offsets offset).1 hmem
  exact isRecord_of_mem hholds (hr hv hoffset)

open Classical in
theorem Marked.keptEntries_eq (hm : Marked h roots h₁ live) (texts : List (List UInt8)) :
    StringHeap.keptEntries texts live = h.reachedEntries roots texts := by
  refine List.filter_congr fun e _ => ?_
  rw [Bool.eq_iff_iff, List.contains_iff_mem, hm.mem_offsets, decide_eq_true_iff]

open Classical in
theorem Marked.reachedOffsets_eq (hm : Marked h roots h₁ live) :
    h.reachedOffsets roots = StringHeap.ascending h.strings.data.size live := by
  refine List.Pairwise.eq_of_mem_iff (r := fun a b : Nat => a < b)
    (List.pairwise_lt_range.filter _) (StringHeap.ascending_pairwise _ _) fun offset => ?_
  rw [StringHeap.mem_ascending, reachedOffsets, List.mem_filter, List.mem_range, decide_eq_true_iff,
    hm.mem_offsets]

/-- The buffer behind compaction: the records that can be reached, as they stood. -/
theorem Marked.data_compact (hm : Marked h roots h₁ live) (hr : h.Recorded roots) :
    (h.strings.compact live).1.data.data.toList
      = (h.reachedOffsets roots).flatMap h.strings.recordAt := by
  rw [hm.reachedOffsets_eq]
  by_cases hparse : ∃ texts, h.strings.Holds texts
  · obtain ⟨texts, hholds⟩ := hparse
    have hlive := hm.records_of_mem hr hholds
    have hcompact := (hholds.compact hlive).bytes_eq
    rw [hcompact, hholds.ascending_eq hlive, List.flatMap_map, List.flatMap_map]
    refine List.flatMap_congr fun e he => ?_
    exact (hholds.recordAt_of_mem (List.mem_filter.1 he).1).symm
  · -- A buffer that is no row of records has no record that could be reached.
    have hnone : live = [] := List.eq_nil_iff_forall_not_mem.2 fun offset hmem => by
      obtain ⟨v, hv, hoffset⟩ := (hm.mem_offsets offset).1 hmem
      obtain ⟨texts, hholds, -⟩ := hr hv hoffset
      exact hparse ⟨texts, hholds⟩
    have hascending : StringHeap.ascending h.strings.data.size [] = [] :=
      List.eq_nil_iff_forall_not_mem.2 fun i hi => by simpa using (StringHeap.mem_ascending.1 hi).2
    rw [hnone, data_compact_nil, hascending, List.flatMap_nil]

theorem signatures_compacted (h : Heap) (live : List Nat) :
    (h.compacted live).signatures = h.signatures.sweep.1 := signatures_relocate _ _

theorem unmarked_compacted (h : Heap) (live : List Nat) : (h.compacted live).Unmarked := by
  refine ⟨?_, ?_, ?_⟩
  · exact relocate_objects_of _ (Arena.unmarked_sweep _) (Arena.unmarked_sweep _).map
  · exact relocate_properties_of _ (Arena.unmarked_sweep _) (Arena.unmarked_sweep _).map
  · rw [signatures_compacted]
    exact Arena.unmarked_sweep _

theorem kept_compacted (hs : h.Sound) (hm : Marked h roots h₁ live) :
    Kept h roots (h₁.compacted live) (h₁.strings.compact live).2.1 := by
  have hmarkedObjects := hm.objects.sound hs.objects
  have hmarkedProperties := hm.properties.sound hs.properties
  have hmarkedSignatures := hm.signatures.sound hs.signatures
  have hobjects := hmarkedObjects.sweep
  have hproperties := hmarkedProperties.sweep
  refine ⟨?_, ?_, ?_, ?_, ?_, ?_, unmarked_compacted h₁ live, ?_, ?_, ?_⟩
  · intro id cell'
    rw [compacted, get?_objects_relocate, Option.map_eq_some_iff]
    simp only [swept, hm.get?_sweep_objects, and_assoc, eq_comm]
  · intro id p'
    rw [compacted, get?_properties_relocate, Option.map_eq_some_iff]
    simp only [swept, hm.get?_sweep_properties, and_assoc, eq_comm]
  · intro id f
    rw [signatures_compacted]
    exact hm.get?_sweep_signatures id f
  · exact relocate_objects_of _ hobjects hobjects.map
  · exact relocate_properties_of _ hproperties hproperties.map
  · rw [signatures_compacted]
    exact hmarkedSignatures.sweep
  · exact relocate_objects_of _ hmarkedObjects.tight_sweep (hmarkedObjects.tight_sweep.map hobjects)
  · exact relocate_properties_of _ hmarkedProperties.tight_sweep (hmarkedProperties.tight_sweep.map hproperties)
  · rw [signatures_compacted]
    exact hmarkedSignatures.tight_sweep

theorem collected_compacted (hs : h.Sound) (hr : h.Recorded roots) (hm : Marked h roots h₁ live) :
    Collected h roots (h₁.compacted live) (h₁.strings.compact live).2.1 := by
  have hstrings : (h₁.compacted live).strings = (h.strings.compact live).1 := by
    rw [compacted, strings_relocate, swept, hm.strings]
  have hmoves : (h₁.strings.compact live).2.1 = (h.strings.compact live).2.1 := by
    rw [hm.strings]
  refine ⟨kept_compacted hs hm, ?_, ?_, ?_, ?_, ?_⟩
  · intro texts hholds
    rw [hstrings, ← hm.keptEntries_eq]
    exact hholds.compact (hm.records_of_mem hr hholds)
  · intro texts hholds offset before t behind hsplit
    rw [← hm.keptEntries_eq] at hsplit
    rw [hmoves]
    exact hholds.relocate_compact (hm.records_of_mem hr hholds) hsplit
  · rw [hstrings]
    exact hm.data_compact hr
  · rw [hstrings]
    exact borrowed_compact _ _
  · intro offset hreach
    obtain ⟨texts, hholds, -⟩ := hr hreach rfl
    rw [hstrings, hmoves]
    exact string_compact hholds (hm.records_of_mem hr hholds) ((hm.mem_offsets _).2 ⟨_, hreach, rfl⟩)

end Compaction

/-- Giving storage back changes no string. -/
theorem Kept.trim {h h' : Heap} {roots : List Value} {moves : StringHeap.Relocation}
    (hk : Kept h roots h' moves) (slack : Nat) :
    Kept h roots { h' with strings := h'.strings.trim slack } moves :=
  { hk with unmarked := ⟨hk.unmarked.objects, hk.unmarked.properties, hk.unmarked.signatures⟩ }

theorem Collected.trim {h h' : Heap} {roots : List Value} {moves : StringHeap.Relocation}
    (hc : Collected h roots h' moves) (slack : Nat) :
    Collected h roots { h' with strings := h'.strings.trim slack } moves :=
  { hc.toKept.trim slack with
    holds := fun texts hholds => (holds_congr (data_trim _ _)).2 (hc.holds texts hholds)
    place := hc.place
    data_eq := by
      rw [data_trim]
      exact hc.data_eq
    borrowed := (borrowed_trim _ _).trans hc.borrowed
    string := by
      intro offset hreach
      obtain ⟨new, hmove, ⟨texts, hholds, hentry⟩, hbytes⟩ := hc.string offset hreach
      refine ⟨new, hmove, ⟨texts, (holds_congr (data_trim _ _)).2 hholds, hentry⟩, ?_⟩
      rw [← hbytes]
      exact bytes_owned_congr (data_trim _ _) new }

theorem kept_collect {h : Heap} (hs : h.Sound) (hu : h.Unmarked) (roots : List Value) (full : Bool)
    (slack : Nat) :
    Kept h roots (h.collect roots full slack).1 (h.collect roots full slack).2.1 := by
  obtain ⟨marked, hmarked⟩ : ∃ marked, h.markAll [] roots (h.markLimit roots) = marked := ⟨_, rfl⟩
  have hm := marked_markAll hs hu roots
  rw [hmarked] at hm
  have hk := kept_compacted hs hm
  rw [collect_eq hmarked]
  cases full with
  | false => exact hk
  | true => exact hk.trim slack

/-- A collection keeps what can be reached, and nothing else. -/
theorem Recorded.collect {h : Heap} {roots : List Value} (hr : h.Recorded roots) (hs : h.Sound)
    (hu : h.Unmarked) (full : Bool) (slack : Nat) :
    Collected h roots (h.collect roots full slack).1 (h.collect roots full slack).2.1 := by
  obtain ⟨marked, hmarked⟩ : ∃ marked, h.markAll [] roots (h.markLimit roots) = marked := ⟨_, rfl⟩
  have hm := marked_markAll hs hu roots
  rw [hmarked] at hm
  have hc := collected_compacted hs hr hm
  rw [collect_eq hmarked]
  cases full with
  | false => exact hc
  | true => exact hc.trim slack

theorem collected_collect {h : Heap} {roots : List Value} (hs : h.Sound) (hu : h.Unmarked)
    (hr : h.Rooted roots) (full : Bool) (slack : Nat) :
    Collected h roots (h.collect roots full slack).1 (h.collect roots full slack).2.1 :=
  Recorded.collect hr.isRecord hs hu full slack

end Heap

end ScriptEngine
