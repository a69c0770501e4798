import ScriptEngine.Proofs.Heap.Collection
/-!
What a collection preserves.

Everything here follows from `Collected`: values that can be reached unfold as before
(`Collected.unfold_eq`), what can be reached afterwards is what could be reached before
(`Kept.reaches_iff`), the heap keeps to its order (`Kept.sound`, `Collected.rooted`), and a
second collection finds nothing to do (`Settled.collect`).
-/

namespace ScriptEngine

/-! ## Values as graphs -/

/-- A value unfolded down to some depth. Handles are kept, strings are their bytes. -/
inductive Graph where
  /-- A value that leads nowhere, a dead handle among them. -/
  | leaf (v : Value)
  | text (kind : StringKind) (bytes : List UInt8)
  | foreign (id : SignatureId) (f : Ffi.ForeignFunction)
  /-- A handle at the depth where unfolding stops. -/
  | cut (v : Value)
  | object (v : Value) (names values : List Graph)
  | array (v : Value) (items names values : List Graph)
  | buffer (v : Value) (bytes : List UInt8) (names values : List Graph)
  | view (v : Value) (buffer : Graph) (offset length : Nat) (names values : List Graph)

namespace Heap

/-- The names of an object's properties, in order. -/
def propertyNames (h : Heap) (cell : ObjectCell) : List Value :=
  cell.properties.toList.filterMap fun id => (h.properties.get? id.cell).map Property.name

/-- The values of an object's properties, in order. -/
def propertyContents (h : Heap) (cell : ObjectCell) : List Value :=
  cell.properties.toList.filterMap fun id => (h.properties.get? id.cell).map Property.value

/-- A value that is not a live handle of an object. -/
def leafGraph (h : Heap) (v : Value) : Graph :=
  match v with
  | .string s => .text s.kind (h.strings.bytes s)
  | .signature id =>
    match h.signatures.get? id.cell with
    | some f => .foreign id f
    | none => .leaf v
  | _ => .leaf v

/-- A live handle of an object, what the object holds as `below` has it. -/
def cellGraph (h : Heap) (below : Value → Graph) (v : Value) (cell : ObjectCell) : Graph :=
  let names := (h.propertyNames cell).map below
  let values := (h.propertyContents cell).map below
  match cell.kind with
  | .plain => .object v names values
  | .array items => .array v (items.toList.map below) names values
  | .buffer bytes => .buffer v bytes.toList names values
  | .view id offset length => .view v (below (.arrayBuffer id)) offset length names values

/-- A value as a graph, down to a depth. -/
def unfold (h : Heap) : Nat → Value → Graph
  | 0, v => if (h.cellOf? v).isSome then .cut v else h.leafGraph v
  | depth + 1, v =>
    match h.cellOf? v with
    | some cell => h.cellGraph (h.unfold depth) v cell
    | none => h.leafGraph v

/-! ## Values behind a collection -/

section Values

variable {h h' : Heap} {roots : List Value} {moves : StringHeap.Relocation}

theorem cellOf?_eq_some {h : Heap} {v : Value} {cell : ObjectCell} :
    h.cellOf? v = some cell ↔ ∃ id, v.cellId? = some id ∧ h.objects.get? id.cell = some cell :=
  Option.bind_eq_some_iff

theorem Kept.cellOf?_relocate (hc : Kept h roots h' moves) {v : Value}
    (hv : h.Reaches roots v) :
    h'.cellOf? (StringHeap.relocate moves v) = (h.cellOf? v).map (relocateCell moves) := by
  apply Option.ext
  intro cell'
  rw [cellOf?_eq_some, Option.map_eq_some_iff]
  constructor
  · rintro ⟨id, hid, hcell'⟩
    obtain ⟨cell, hcell, -, rfl⟩ := (hc.object_iff _ _).1 hcell'
    rw [cellId?_relocate] at hid
    exact ⟨cell, cellOf?_eq_some.2 ⟨id, hid, hcell⟩, rfl⟩
  · rintro ⟨cell, hof, rfl⟩
    obtain ⟨id, hid, hcell⟩ := cellOf?_eq_some.1 hof
    exact ⟨id, by rw [cellId?_relocate, hid], (hc.object_iff _ _).2 ⟨cell, hcell, ⟨v, hv, hid⟩, rfl⟩⟩

/-- A property of an object that can be reached stays. -/
theorem Kept.get?_property (hc : Kept h roots h' moves) {v : Value} {cell : ObjectCell}
    (hv : h.Reaches roots v) (hof : h.cellOf? v = some cell) {p : PropertyId}
    (hp : p ∈ cell.properties.toList) :
    h'.properties.get? p.cell = (h.properties.get? p.cell).map (relocateProperty moves) := by
  obtain ⟨id, hid, hcell⟩ := cellOf?_eq_some.1 hof
  have hreach : h.ReachesProperty roots p := ⟨id, cell, ⟨v, hv, hid⟩, hcell, hp⟩
  apply Option.ext
  intro prop'
  rw [hc.property_iff, Option.map_eq_some_iff]
  constructor
  · rintro ⟨prop, hprop, -, rfl⟩
    exact ⟨prop, hprop, rfl⟩
  · rintro ⟨prop, hprop, rfl⟩
    exact ⟨prop, hprop, hreach, rfl⟩

theorem Kept.propertyNames_eq (hc : Kept h roots h' moves) {v : Value} {cell : ObjectCell}
    (hv : h.Reaches roots v) (hof : h.cellOf? v = some cell) :
    h'.propertyNames (relocateCell moves cell)
      = (h.propertyNames cell).map (StringHeap.relocate moves) := by
  unfold propertyNames
  rw [properties_relocateCell, List.map_filterMap]
  refine List.filterMap_congr fun p hp => ?_
  rw [hc.get?_property hv hof hp]
  cases h.properties.get? p.cell <;> rfl

theorem Kept.propertyContents_eq (hc : Kept h roots h' moves) {v : Value} {cell : ObjectCell}
    (hv : h.Reaches roots v) (hof : h.cellOf? v = some cell) :
    h'.propertyContents (relocateCell moves cell)
      = (h.propertyContents cell).map (StringHeap.relocate moves) := by
  unfold propertyContents
  rw [properties_relocateCell, List.map_filterMap]
  refine List.filterMap_congr fun p hp => ?_
  rw [hc.get?_property hv hof hp]
  cases h.properties.get? p.cell <;> rfl

theorem values_relocateCell (cell : ObjectCell) :
    (relocateCell moves cell).kind.values = cell.kind.values.map (StringHeap.relocate moves) := by
  rcases cell with ⟨properties, kind⟩
  cases kind with
  | array items => simp [relocateCell, ObjectKind.values]
  | _ => rfl

theorem Kept.heldBy_eq (hc : Kept h roots h' moves) {v : Value} {cell : ObjectCell}
    (hv : h.Reaches roots v) (hof : h.cellOf? v = some cell) :
    h'.heldBy (relocateCell moves cell) = (h.heldBy cell).map (StringHeap.relocate moves) := by
  unfold heldBy propertyValues
  rw [values_relocateCell, properties_relocateCell, List.map_append, List.map_flatMap]
  congr 1
  refine List.flatMap_congr fun p hp => ?_
  rw [hc.get?_property hv hof hp]
  cases h.properties.get? p.cell <;> rfl

/-- What can be reached behind a collection is what could be reached before. -/
theorem Kept.reaches_iff (hc : Kept h roots h' moves) (w : Value) :
    h'.Reaches (roots.map (StringHeap.relocate moves)) w ↔
      ∃ v, h.Reaches roots v ∧ StringHeap.relocate moves v = w := by
  constructor
  · intro hw
    induction hw with
    | root hroot =>
      obtain ⟨v, hv, rfl⟩ := List.mem_map.1 hroot
      exact ⟨v, .root hv, rfl⟩
    | held _ hof hmem ih =>
      obtain ⟨v, hv, rfl⟩ := ih
      rw [hc.cellOf?_relocate hv, Option.map_eq_some_iff] at hof
      obtain ⟨cell, hof, rfl⟩ := hof
      rw [hc.heldBy_eq hv hof] at hmem
      obtain ⟨w, hw, rfl⟩ := List.mem_map.1 hmem
      exact ⟨w, .held hv hof hw, rfl⟩
  · rintro ⟨v, hv, rfl⟩
    induction hv with
    | root hroot => exact .root (List.mem_map.2 ⟨_, hroot, rfl⟩)
    | @held v w cell hv hof hmem ih =>
      have hof' : h'.cellOf? (StringHeap.relocate moves v) = some (relocateCell moves cell) := by
        rw [hc.cellOf?_relocate hv, hof]
        rfl
      refine .held ih hof' ?_
      rw [hc.heldBy_eq hv hof]
      exact List.mem_map.2 ⟨w, hmem, rfl⟩

theorem relocate_of_cellOf? {v : Value} {cell : ObjectCell} (hof : h.cellOf? v = some cell) :
    StringHeap.relocate moves v = v := by
  obtain ⟨id, hid, -⟩ := cellOf?_eq_some.1 hof
  refine relocate_of_offset?_eq_none moves ?_
  cases v <;> simp_all [Value.cellId?, Value.offset?]

theorem Collected.leafGraph_eq (hc : Collected h roots h' moves) {v : Value}
    (hv : h.Reaches roots v) : h'.leafGraph (StringHeap.relocate moves v) = h.leafGraph v := by
  cases v with
  | string s =>
    cases s with
    | owned offset =>
      obtain ⟨new, hmove, -, hbytes⟩ := hc.string offset hv
      rw [hmove]
      simp only [leafGraph, hbytes, StringRef.kind]
    | inline text => rfl
    | foreign index =>
      simp only [StringHeap.relocate, leafGraph, StringHeap.bytes, StringHeap.borrowedText, hc.borrowed]
  | signature id =>
    have hget : h'.signatures.get? id.cell = h.signatures.get? id.cell := by
      apply Option.ext
      intro f
      rw [hc.signature_iff]
      exact and_iff_left hv
    simp only [StringHeap.relocate, leafGraph, hget]
  | _ => rfl

/-- An object that can be reached is the same as before, if what it holds is. -/
theorem Collected.cellGraph_eq (hc : Collected h roots h' moves) {v : Value} {cell : ObjectCell}
    (hv : h.Reaches roots v) (hof : h.cellOf? v = some cell) {below below' : Value → Graph}
    (hbelow : ∀ w, h.Reaches roots w → below' (StringHeap.relocate moves w) = below w) :
    h'.cellGraph below' v (relocateCell moves cell) = h.cellGraph below v cell := by
  have hheld : ∀ w ∈ h.heldBy cell, below' (StringHeap.relocate moves w) = below w := fun w hw =>
    hbelow w (.held hv hof hw)
  have hprops : ∀ w ∈ h.propertyValues cell.properties.toList,
      below' (StringHeap.relocate moves w) = below w := fun w hw =>
    hheld w (List.mem_append_right _ hw)
  have hnames : ((h.propertyNames cell).map (StringHeap.relocate moves)).map below'
      = (h.propertyNames cell).map below := by
    rw [List.map_map]
    refine List.map_congr_left fun w hw => hprops w ?_
    obtain ⟨id, hid, hname⟩ := List.mem_filterMap.1 hw
    obtain ⟨p, hp, rfl⟩ := Option.map_eq_some_iff.1 hname
    exact mem_propertyValues.2 ⟨id, hid, p, hp, by simp⟩
  have hcontents : ((h.propertyContents cell).map (StringHeap.relocate moves)).map below'
      = (h.propertyContents cell).map below := by
    rw [List.map_map]
    refine List.map_congr_left fun w hw => hprops w ?_
    obtain ⟨id, hid, hvalue⟩ := List.mem_filterMap.1 hw
    obtain ⟨p, hp, rfl⟩ := Option.map_eq_some_iff.1 hvalue
    exact mem_propertyValues.2 ⟨id, hid, p, hp, by simp⟩
  unfold cellGraph
  simp only [hc.propertyNames_eq hv hof, hc.propertyContents_eq hv hof, hnames, hcontents]
  rcases cell with ⟨properties, kind⟩
  cases kind with
  | plain => rfl
  | buffer bytes => rfl
  | array items =>
    have hitems : (items.map (StringHeap.relocate moves)).toList.map below' = items.toList.map below := by
      rw [Array.toList_map, List.map_map]
      exact List.map_congr_left fun w hw => hheld w (List.mem_append_left _ hw)
    simp only [relocateCell, hitems]
  | view id offset length =>
    have hbuffer : below' (.arrayBuffer id) = below (.arrayBuffer id) :=
      hheld (.arrayBuffer id) (List.mem_append_left _ (by simp [ObjectKind.values]))
    simp only [relocateCell, hbuffer]

/-- Values that can be reached unfold as before, however deep. -/
theorem Collected.unfold_eq (hc : Collected h roots h' moves) (depth : Nat) {v : Value}
    (hv : h.Reaches roots v) :
    h'.unfold depth (StringHeap.relocate moves v) = h.unfold depth v := by
  induction depth generalizing v with
  | zero =>
    unfold unfold
    rw [hc.cellOf?_relocate hv, Option.isSome_map, hc.leafGraph_eq hv]
    split
    · rename_i hsome
      obtain ⟨cell, hof⟩ := Option.isSome_iff_exists.1 hsome
      rw [relocate_of_cellOf? hof]
    · rfl
  | succ depth ih =>
    unfold unfold
    rw [hc.cellOf?_relocate hv]
    cases hof : h.cellOf? v with
    | none => exact hc.leafGraph_eq hv
    | some cell =>
      rw [relocate_of_cellOf? hof]
      exact hc.cellGraph_eq hv hof fun w hw => ih hw

/-! ## The heap behind a collection -/

/-- The live cells are those that could be reached. -/
theorem Kept.isSome_object (hc : Kept h roots h' moves) (id : ObjectId) :
    (h'.objects.get? id.cell).isSome ↔
      (h.objects.get? id.cell).isSome ∧ h.ReachesObject roots id := by
  simp only [Option.isSome_iff_exists, hc.object_iff]
  constructor
  · rintro ⟨-, cell, hcell, hreach, -⟩
    exact ⟨⟨cell, hcell⟩, hreach⟩
  · rintro ⟨⟨cell, hcell⟩, hreach⟩
    exact ⟨_, cell, hcell, hreach, rfl⟩

theorem Kept.isSome_property (hc : Kept h roots h' moves) (p : PropertyId) :
    (h'.properties.get? p.cell).isSome ↔
      (h.properties.get? p.cell).isSome ∧ h.ReachesProperty roots p := by
  simp only [Option.isSome_iff_exists, hc.property_iff]
  constructor
  · rintro ⟨-, prop, hprop, hreach, -⟩
    exact ⟨⟨prop, hprop⟩, hreach⟩
  · rintro ⟨⟨prop, hprop⟩, hreach⟩
    exact ⟨_, prop, hprop, hreach, rfl⟩

theorem Kept.isSome_signature (hc : Kept h roots h' moves) (id : SignatureId) :
    (h'.signatures.get? id.cell).isSome ↔
      (h.signatures.get? id.cell).isSome ∧ h.Reaches roots (.signature id) := by
  simp only [Option.isSome_iff_exists, hc.signature_iff]
  exact exists_and_right

theorem Kept.sound (hc : Kept h roots h' moves) (hs : h.Sound) : h'.Sound := by
  refine ⟨hc.objects_sound, hc.properties_sound, hc.signatures_sound, ?_, ?_, ?_⟩
  · intro id cell' hcell' p hp
    obtain ⟨cell, hcell, ⟨v, hv, hid⟩, rfl⟩ := (hc.object_iff _ _).1 hcell'
    rw [properties_relocateCell] at hp
    rw [hc.get?_property hv (cellOf?_eq_some.2 ⟨_, hid, hcell⟩) hp, Option.isSome_map]
    exact hs.live id cell hcell p hp
  · intro id cell' hcell'
    obtain ⟨cell, hcell, -, rfl⟩ := (hc.object_iff _ _).1 hcell'
    rw [properties_relocateCell]
    exact hs.nodup id cell hcell
  · intro id id₂ cell' cell₂' p hcell' hcell₂' hp hp₂
    obtain ⟨cell, hcell, -, rfl⟩ := (hc.object_iff _ _).1 hcell'
    obtain ⟨cell₂, hcell₂, -, rfl⟩ := (hc.object_iff _ _).1 hcell₂'
    rw [properties_relocateCell] at hp hp₂
    exact hs.disjoint id id₂ cell cell₂ p hcell hcell₂ hp hp₂

/-- A string that can be reached is a record behind the collection. -/
theorem Collected.isRecord (hc : Collected h roots h' moves) {v : Value} (hv : h.Reaches roots v)
    {offset : Nat} (hoffset : (StringHeap.relocate moves v).offset? = some offset) :
    h'.strings.IsRecord offset := by
  cases hold : v.offset? with
  | none =>
    rw [relocate_of_offset?_eq_none moves hold, hold] at hoffset
    simp at hoffset
  | some old =>
    cases v with
    | string s =>
      cases s with
      | owned payload =>
        obtain ⟨new, hmove, hrecord, -⟩ := hc.string payload hv
        rw [hmove] at hoffset
        simp only [Value.offset?, Option.some.injEq] at hoffset
        exact hoffset ▸ hrecord
      | _ => simp [Value.offset?] at hold
    | _ => simp [Value.offset?] at hold

/-- Strings that are come upon are records again. -/
theorem Collected.rooted (hc : Collected h roots h' moves) :
    h'.Rooted (roots.map (StringHeap.relocate moves)) := by
  refine ⟨?_, ?_, ?_⟩
  · intro w hw offset hoffset
    obtain ⟨v, hv, rfl⟩ := List.mem_map.1 hw
    exact hc.isRecord (.root hv) hoffset
  · intro id cell' hcell' w hw offset hoffset
    obtain ⟨cell, hcell, ⟨v, hv, hid⟩, rfl⟩ := (hc.object_iff _ _).1 hcell'
    rw [values_relocateCell] at hw
    obtain ⟨w₀, hw₀, rfl⟩ := List.mem_map.1 hw
    have hof : h.cellOf? v = some cell := cellOf?_eq_some.2 ⟨_, hid, hcell⟩
    exact hc.isRecord (.held hv hof (List.mem_append_left _ hw₀)) hoffset
  · intro id p' hp' w hw offset hoffset
    obtain ⟨p, hp, ⟨objectId, cell, ⟨v, hv, hid⟩, hcell, hmem⟩, rfl⟩ := (hc.property_iff _ _).1 hp'
    have hof : h.cellOf? v = some cell := cellOf?_eq_some.2 ⟨_, hid, hcell⟩
    have hheld : ∀ w ∈ [p.name, p.value], h.Reaches roots w := fun w hw =>
      .held hv hof (List.mem_append_right _ (mem_propertyValues.2 ⟨⟨id⟩, hmem, p, hp, hw⟩))
    simp only [relocateProperty, List.mem_cons, List.not_mem_nil, or_false] at hw
    rcases hw with rfl | rfl
    · exact hc.isRecord (hheld p.name (by simp)) hoffset
    · exact hc.isRecord (hheld p.value (by simp)) hoffset

/-- The live objects behind a collection are those that can be reached. -/
theorem Kept.object_reached (hc : Kept h roots h' moves) {id : ObjectId} {cell : ObjectCell}
    (hcell : h'.objects.get? id.cell = some cell) :
    h'.ReachesObject (roots.map (StringHeap.relocate moves)) id := by
  obtain ⟨-, -, ⟨v, hv, hid⟩, -⟩ := (hc.object_iff _ _).1 hcell
  exact ⟨_, (hc.reaches_iff _).2 ⟨v, hv, rfl⟩, by rw [cellId?_relocate, hid]⟩

theorem Kept.property_reached (hc : Kept h roots h' moves) {p : PropertyId} {prop : Property}
    (hprop : h'.properties.get? p.cell = some prop) :
    h'.ReachesProperty (roots.map (StringHeap.relocate moves)) p := by
  obtain ⟨-, -, ⟨id, cell, ⟨v, hv, hid⟩, hcell, hmem⟩, -⟩ := (hc.property_iff _ _).1 hprop
  have hcell' := (hc.object_iff id.cell _).2 ⟨cell, hcell, ⟨v, hv, hid⟩, rfl⟩
  exact ⟨id, _, hc.object_reached hcell', hcell', by rwa [properties_relocateCell]⟩

theorem Kept.signature_reached (hc : Kept h roots h' moves) {id : SignatureId}
    {f : Ffi.ForeignFunction} (hf : h'.signatures.get? id.cell = some f) :
    h'.Reaches (roots.map (StringHeap.relocate moves)) (.signature id) :=
  (hc.reaches_iff _).2 ⟨_, ((hc.signature_iff _ _).1 hf).2, rfl⟩

/-- A buffer that is no row of records has no record that could be reached. -/
theorem Rooted.holds_or (hr : h.Rooted roots) :
    (∃ texts, h.strings.Holds texts) ∨ ∀ offset, ¬ h.ReachesRecord roots offset := by
  by_cases hparse : ∃ texts, h.strings.Holds texts
  · exact .inl hparse
  · refine .inr fun offset ⟨v, hv, hoffset⟩ => ?_
    obtain ⟨texts, hholds, -⟩ := hr.isRecord hv hoffset
    exact hparse ⟨texts, hholds⟩

theorem Collected.holds_nil (hc : Collected h roots h' moves)
    (hnone : ∀ offset, ¬ h.ReachesRecord roots offset) : h'.strings.Holds [] := by
  have hoffsets : h.reachedOffsets roots = [] :=
    List.filter_eq_nil_iff.2 fun offset _ => by simpa using hnone offset
  refine ⟨?_, by simp⟩
  rw [hc.data_eq, hoffsets]
  rfl

/-- Behind a collection the buffer is a row of records. -/
theorem Collected.exists_holds (hc : Collected h roots h' moves) (hr : h.Rooted roots) :
    ∃ texts, h'.strings.Holds texts := by
  rcases hr.holds_or with ⟨texts, hholds⟩ | hnone
  · exact ⟨_, hc.holds texts hholds⟩
  · exact ⟨[], hc.holds_nil hnone⟩

/-- The records behind a collection are those that can be reached. -/
theorem Collected.record_reached (hc : Collected h roots h' moves) (hr : h.Rooted roots) {offset : Nat}
    (hrecord : h'.strings.IsRecord offset) :
    h'.ReachesRecord (roots.map (StringHeap.relocate moves)) offset := by
  obtain ⟨texts, hholds⟩ | hnone := hr.holds_or
  case inr =>
    obtain ⟨t, ht⟩ := isRecord_of_mem (hc.holds_nil hnone) hrecord
    simp [StringHeap.entriesFrom] at ht
  obtain ⟨t, ht⟩ := isRecord_of_mem (hc.holds texts hholds) hrecord
  obtain ⟨before, behind, hmap, hoffset⟩ := StringHeap.mem_entriesFrom.1 ht
  obtain ⟨before, rest, hsplit, rfl, hrest⟩ := List.map_eq_append_iff.1 hmap
  obtain ⟨⟨old, t⟩, behind, rfl, rfl, rfl⟩ := List.map_eq_cons_iff.1 hrest
  have hkept : (old, t) ∈ h.reachedEntries roots texts := by
    rw [hsplit]
    simp
  obtain ⟨v, hv, hold⟩ : h.ReachesRecord roots old := by
    simpa using (List.mem_filter.1 hkept).2
  cases v with
  | string s =>
    cases s with
    | owned payload =>
      simp only [Value.offset?, Option.some.injEq] at hold
      obtain ⟨new, hnew, hmove⟩ := hc.place texts hholds payload before t behind (by rw [hold, hsplit])
      refine ⟨_, (hc.reaches_iff _).2 ⟨_, hv, rfl⟩, ?_⟩
      rw [hmove, Value.offset?, hnew, hoffset, List.flatMap_map, Nat.zero_add]
    | _ => simp [Value.offset?] at hold
  | _ => simp [Value.offset?] at hold

end Values

/-! ## A collection with nothing to do -/

/-- All that is live can be reached, and no block but the first is empty. -/
structure Settled (h : Heap) (roots : List Value) : Prop where
  object : ∀ id cell, h.objects.get? id.cell = some cell → h.ReachesObject roots id
  property : ∀ p prop, h.properties.get? p.cell = some prop → h.ReachesProperty roots p
  signature : ∀ id f, h.signatures.get? id.cell = some f → h.Reaches roots (.signature id)
  record : ∀ offset, h.strings.IsRecord offset → h.ReachesRecord roots offset
  holds : ∃ texts, h.strings.Holds texts
  objects_tight : h.objects.Tight
  properties_tight : h.properties.Tight
  signatures_tight : h.signatures.Tight

theorem Collected.settled {h h' : Heap} {roots : List Value} {moves : StringHeap.Relocation}
    (hc : Collected h roots h' moves) (hr : h.Rooted roots) :
    h'.Settled (roots.map (StringHeap.relocate moves)) :=
  ⟨fun _ _ => hc.object_reached, fun _ _ => hc.property_reached, fun _ _ => hc.signature_reached,
    fun _ => hc.record_reached hr, hc.exists_holds hr, hc.tight.1, hc.tight.2.1, hc.tight.2.2⟩

/-- Every slot of every arena has a number that a handle can carry. -/
structure Addressable (h : Heap) : Prop where
  objects : h.objects.Addressable
  properties : h.properties.Addressable
  signatures : h.signatures.Addressable

theorem snd_sweep_of_marked {α : Type} {a b : Arena α} (hs : a.Sound) (ht : a.Tight)
    (haddr : a.Addressable) (hab : a.Remarked b)
    (hmarked : ∀ id cell, a.get? id = some cell → b.isMarked id.index.toNat = true) :
    b.sweep.2 = ⟨0, 0⟩ := by
  refine Arena.Tight.snd_sweep (hab.sound hs) ?_ ?_
  · intro block hheld
    rw [hab.1] at hheld ⊢
    exact ht block hheld
  · intro slot cell hcell
    rw [hab.cells_eq] at hcell
    have hlt : slot < a.cells.size := (Array.getElem?_eq_some_iff.1 hcell).1
    have hslot : (UInt32.ofNat slot).toNat = slot := by
      refine UInt32.toNat_ofNat_of_lt' ?_
      exact Nat.lt_of_lt_of_le hlt haddr
    have hgen : slot < a.generations.size := by rw [hs.generations_size]; exact hlt
    have hget : a.get? ⟨UInt32.ofNat slot, a.generations[slot]⟩ = some cell := by
      refine Arena.get?_eq_some.2 ?_
      rw [hslot]
      exact ⟨by simp [hgen], hcell⟩
    have := hmarked _ _ hget
    rwa [hslot] at this

/-- Where everything is reached, a collection frees nothing and moves nothing. -/
theorem Settled.collect {h : Heap} {roots : List Value} (hsettled : h.Settled roots) (hs : h.Sound)
    (hu : h.Unmarked) (hr : h.Rooted roots) (haddr : h.Addressable) (full : Bool) (slack : Nat) :
    (h.collect roots full slack).2.2 = ⟨0, 0, 0, 0, 0⟩ ∧
      (h.collect roots full slack).2.1.isEmpty = true := by
  obtain ⟨marked, hmarked⟩ : ∃ marked, h.markAll [] roots (h.markLimit roots) = marked := ⟨_, rfl⟩
  have hm := marked_markAll hs hu roots
  rw [hmarked] at hm
  have hobjects := snd_sweep_of_marked hs.objects hsettled.objects_tight haddr.objects hm.objects
    fun id cell hcell => (hm.isMarked_object ⟨id⟩ cell hcell).2 (hsettled.object ⟨id⟩ cell hcell)
  have hproperties := snd_sweep_of_marked hs.properties hsettled.properties_tight haddr.properties
    hm.properties
    fun id p hp => (hm.isMarked_property ⟨id⟩ p hp).2 (hsettled.property ⟨id⟩ p hp)
  have hsignatures := snd_sweep_of_marked hs.signatures hsettled.signatures_tight haddr.signatures
    hm.signatures
    fun id f hf => (hm.isMarked_signature ⟨id⟩ f hf).2 (hsettled.signature ⟨id⟩ f hf)
  obtain ⟨texts, hholds⟩ := hsettled.holds
  have hkept : StringHeap.keptEntries texts marked.2 = StringHeap.entriesFrom 0 texts := by
    refine List.filter_eq_self.2 fun e he => ?_
    rw [List.contains_iff_mem, hm.mem_offsets]
    exact hsettled.record _ ⟨texts, hholds, e.2, he⟩
  have hlive : ∀ offset ∈ marked.2, ∃ t, (offset, t) ∈ StringHeap.entriesFrom 0 texts := by
    intro offset hmem
    obtain ⟨v, hv, hoffset⟩ := (hm.mem_offsets offset).1 hmem
    exact isRecord_of_mem hholds (hr.isRecord hv hoffset)
  obtain ⟨data, -, heq⟩ := hholds.compact_eq hlive
  have hsize : h.strings.data.size = (texts.flatMap StringHeap.record).length := by
    rw [← hholds.bytes_eq]
    rfl
  have hbytes : ((StringHeap.entriesFrom 0 texts).flatMap fun e => StringHeap.record e.2)
      = texts.flatMap StringHeap.record := by
    rw [← StringHeap.map_snd_entriesFrom 0 texts, List.flatMap_map]
    simp only [StringHeap.map_snd_entriesFrom]
  rw [hkept, hbytes, hsize, Nat.sub_self, StringHeap.entriesFrom_eq, StringHeap.movesTo_placesFrom] at heq
  rw [collect_eq hmarked]
  simp only [sweptStats, hobjects, hproperties, hsignatures, hm.strings, heq]
  exact ⟨trivial, rfl⟩

/-- The cells are those of before. -/
theorem Settled.get?_collect {h h' : Heap} {roots : List Value} {moves : StringHeap.Relocation}
    (hsettled : h.Settled roots) (hk : Kept h roots h' moves) (hempty : moves.isEmpty = true) :
    (∀ id, h'.objects.get? id = h.objects.get? id) ∧
      (∀ id, h'.properties.get? id = h.properties.get? id) ∧
      ∀ id, h'.signatures.get? id = h.signatures.get? id := by
  refine ⟨fun id => Option.ext fun cell => ?_, fun id => Option.ext fun p => ?_,
    fun id => Option.ext fun f => ?_⟩
  · simp only [hk.object_iff, relocateCell_eq_self hempty]
    constructor
    · rintro ⟨cell', hcell, -, rfl⟩
      exact hcell
    · exact fun hcell => ⟨cell, hcell, hsettled.object ⟨id⟩ cell hcell, rfl⟩
  · simp only [hk.property_iff, relocateProperty_eq_self hempty]
    constructor
    · rintro ⟨p', hp, -, rfl⟩
      exact hp
    · exact fun hp => ⟨p, hp, hsettled.property ⟨id⟩ p hp, rfl⟩
  · rw [hk.signature_iff]
    exact and_iff_left_of_imp (hsettled.signature ⟨id⟩ f)

end Heap

end ScriptEngine
