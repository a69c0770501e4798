import ScriptEngine.Proofs.Machine.Reachable
/-!
Collections of a machine.

The values that a machine keeps alive are in slots of eight kinds. `collect_spec` says what a collection of
a reachable machine does, given that the strings of slots and live cells are records: every slot unfolds to
what it was, exactly the cells and records that the slots reach are left, and a second collection finds
nothing to do.
-/

namespace ScriptEngine.Machine

variable {W : Type}

/-! ## Slots -/

/-- The places of a machine that keep values alive. -/
inductive Slot where
  | stack (i : Nat)
  | scope (i : Nat)
  /-- The receiver of the caller, in a call. -/
  | frame (i : Nat)
  /-- The receiver of a call whose arguments are being computed. -/
  | pending (i : Nat)
  | receiver
  | lastHolder
  /-- A value pinned by the embedder. -/
  | root (i : Nat)
  | callbackFunction (i : Nat)
  | callbackUserdata (i : Nat)

/-- The value in a slot, if there is one. -/
def slot? (m : Machine W) : Slot → Option Value
  | .stack i => m.stack[i]?
  | .scope i => m.scopes[i]?
  | .frame i => (m.frames[i]?).map Frame.receiver
  | .pending i => (m.pending[i]?).map PendingCall.receiver
  | .receiver => some m.receiver
  | .lastHolder => some m.lastHolder
  | .root i => (m.roots.slots[i]?).bind RootSlot.value
  | .callbackFunction i => ((m.callbacks.slots[i]?).join).map Ffi.Registration.func
  | .callbackUserdata i => ((m.callbacks.slots[i]?).join).map Ffi.Registration.userdata

theorem slot?_mapHeld (m : Machine W) (f : Value → Value) (slot : Slot) :
    (m.mapHeld f).slot? slot = (m.slot? slot).map f := by
  cases slot with
  | stack i => exact Array.getElem?_map
  | scope i => exact Array.getElem?_map
  | frame i =>
    show ((m.frames.map _)[i]?).map _ = _
    rw [Array.getElem?_map]
    simp only [slot?, Option.map_map]
    rfl
  | pending i =>
    show ((m.pending.map _)[i]?).map _ = _
    rw [Array.getElem?_map]
    simp only [slot?, Option.map_map]
    rfl
  | receiver => rfl
  | lastHolder => rfl
  | root i =>
    show ((m.roots.slots.map _)[i]?).bind _ = _
    rw [Array.getElem?_map]
    simp only [slot?]
    cases m.roots.slots[i]? <;> rfl
  | callbackFunction i =>
    show (((m.callbacks.slots.map _)[i]?).join).map _ = _
    rw [Array.getElem?_map]
    simp only [slot?]
    rcases m.callbacks.slots[i]? with _ | _ | r <;> rfl
  | callbackUserdata i =>
    show (((m.callbacks.slots.map _)[i]?).join).map _ = _
    rw [Array.getElem?_map]
    simp only [slot?]
    rcases m.callbacks.slots[i]? with _ | _ | r <;> rfl

theorem mem_iff_getElem? {α : Type} {xs : Array α} {x : α} : x ∈ xs.toList ↔ ∃ i : Nat, xs[i]? = some x := by
  rw [List.mem_iff_getElem?]
  simp only [Array.getElem?_toList]

theorem mem_rootValues {r : Roots} {v : Value} :
    v ∈ r.values ↔ ∃ i : Nat, (r.slots[i]?).bind RootSlot.value = some v := by
  unfold Roots.values
  rw [List.mem_filterMap]
  constructor
  · rintro ⟨slot, hslot, hv⟩
    obtain ⟨i, hi⟩ := mem_iff_getElem?.1 hslot
    exact ⟨i, by rw [hi]; exact hv⟩
  · rintro ⟨i, hi⟩
    obtain ⟨slot, hslot, hv⟩ := Option.bind_eq_some_iff.1 hi
    exact ⟨slot, mem_iff_getElem?.2 ⟨i, hslot⟩, hv⟩

theorem mem_callbackValues {c : Ffi.Callbacks} {v : Value} :
    v ∈ c.values ↔ ∃ i : Nat, ((c.slots[i]?).join).map Ffi.Registration.func = some v ∨
      ((c.slots[i]?).join).map Ffi.Registration.userdata = some v := by
  unfold Ffi.Callbacks.values Ffi.Callbacks.toList
  simp only [List.mem_flatMap, List.mem_filterMap, id_eq, List.mem_cons, List.not_mem_nil, or_false]
  constructor
  · rintro ⟨r, ⟨slot, hslot, rfl⟩, hv⟩
    obtain ⟨i, hi⟩ := mem_iff_getElem?.1 hslot
    refine ⟨i, ?_⟩
    rw [hi]
    exact hv.imp (fun h => by rw [h]; rfl) (fun h => by rw [h]; rfl)
  · rintro ⟨i, hv⟩
    cases hslot : c.slots[i]? with
    | none => simp [hslot] at hv
    | some slot =>
      cases slot with
      | none => simp [hslot] at hv
      | some r =>
        refine ⟨r, ⟨some r, mem_iff_getElem?.2 ⟨i, hslot⟩, rfl⟩, ?_⟩
        simpa [hslot, eq_comm] using hv

/-- The values kept alive are those of the slots. -/
theorem mem_heldValues {m : Machine W} {v : Value} :
    v ∈ m.heldValues ↔ ∃ slot, m.slot? slot = some v := by
  unfold heldValues
  simp only [List.mem_append, List.mem_cons, List.mem_map, mem_rootValues, mem_callbackValues,
    mem_iff_getElem?]
  constructor
  · rintro (⟨i, h⟩ | ⟨i, h⟩ | ⟨x, ⟨i, h⟩, hx⟩ | ⟨x, ⟨i, h⟩, hx⟩ | h | h | ⟨i, h⟩ | ⟨i, h | h⟩)
    · exact ⟨.stack i, h⟩
    · exact ⟨.scope i, h⟩
    · exact ⟨.frame i, by rw [slot?, h, ← hx]; rfl⟩
    · exact ⟨.pending i, by rw [slot?, h, ← hx]; rfl⟩
    · exact ⟨.receiver, by rw [slot?, h]⟩
    · exact ⟨.lastHolder, by rw [slot?, h]⟩
    · exact ⟨.root i, h⟩
    · exact ⟨.callbackFunction i, h⟩
    · exact ⟨.callbackUserdata i, h⟩
  · rintro ⟨slot, h⟩
    cases slot with
    | stack i => exact .inl ⟨i, h⟩
    | scope i => exact .inr (.inl ⟨i, h⟩)
    | frame i =>
      obtain ⟨x, hx, hv⟩ := Option.map_eq_some_iff.1 h
      exact .inr (.inr (.inl ⟨x, ⟨i, hx⟩, hv⟩))
    | pending i =>
      obtain ⟨x, hx, hv⟩ := Option.map_eq_some_iff.1 h
      exact .inr (.inr (.inr (.inl ⟨x, ⟨i, hx⟩, hv⟩)))
    | receiver => exact .inr (.inr (.inr (.inr (.inl (Option.some.inj h).symm))))
    | lastHolder => exact .inr (.inr (.inr (.inr (.inr (.inl (Option.some.inj h).symm)))))
    | root i => exact .inr (.inr (.inr (.inr (.inr (.inr (.inl ⟨i, h⟩))))))
    | callbackFunction i => exact .inr (.inr (.inr (.inr (.inr (.inr (.inr ⟨i, .inl h⟩))))))
    | callbackUserdata i => exact .inr (.inr (.inr (.inr (.inr (.inr (.inr ⟨i, .inr h⟩))))))

theorem values_rootsMap (r : Roots) (f : Value → Value) : (r.map f).values = r.values.map f := by
  unfold Roots.values Roots.map
  rw [List.map_filterMap, Array.toList_map, List.filterMap_map]
  rfl

theorem values_callbacksMap (c : Ffi.Callbacks) (f : Value → Value) :
    (c.map f).values = c.values.map f := by
  have hlist : (c.map f).toList = c.toList.map fun r => ⟨f r.func, f r.userdata, r.signature⟩ := by
    unfold Ffi.Callbacks.toList Ffi.Callbacks.map
    rw [List.map_filterMap, Array.toList_map, List.filterMap_map]
    rfl
  unfold Ffi.Callbacks.values
  rw [hlist, List.flatMap_map, List.map_flatMap]
  rfl

theorem heldValues_mapHeld (m : Machine W) (f : Value → Value) :
    (m.mapHeld f).heldValues = m.heldValues.map f := by
  simp only [heldValues, mapHeld, List.map_append, List.map_cons, Array.toList_map, List.map_map,
    values_rootsMap, values_callbacksMap]
  rfl

theorem mapHeld_eq_self (m : Machine W) {f : Value → Value} (hf : ∀ v, f v = v) : m.mapHeld f = m := by
  have hid : f = id := funext hf
  have hslots : m.roots.slots.map (fun slot => { slot with value := slot.value.map f }) = m.roots.slots := by
    simp [hid]
  have hcallbacks : m.callbacks.slots.map (fun slot => slot.map fun r =>
      (⟨f r.func, f r.userdata, r.signature⟩ : Ffi.Registration)) = m.callbacks.slots := by
    simp [hid]
  unfold mapHeld Roots.map Ffi.Callbacks.map
  rw [hslots, hcallbacks]
  simp [hid]

/-! ## Collections -/

/-- Every string of a slot or a live cell is a record. -/
def RecordStarts (m : Machine W) : Prop :=
  m.heap.Rooted m.heldValues

/-- A collection rewrites every slot to where the records went. -/
theorem collect_eq (m : Machine W) (full : Bool) {heap : Heap} {moves : StringHeap.Relocation}
    {stats : CollectStats}
    (h : m.heap.collect m.heldValues full m.options.stringSlack = (heap, moves, stats)) :
    m.collect full
      = (({ m with heap := heap } : Machine W).mapHeld (StringHeap.relocate moves), stats) := by
  unfold collect
  rw [h]
  simp only
  split
  · rename_i hempty
    rw [mapHeld_eq_self _ (Heap.relocate_eq_self hempty)]
  · rfl

/-- What a collection makes of a machine. -/
structure CollectSpec (m m' : Machine W) : Prop where
  /-- Slots unfold to what they did: the same handles, names, order, values and bytes. -/
  slots : ∀ slot depth,
    (m'.slot? slot).map (m'.heap.unfold depth) = (m.slot? slot).map (m.heap.unfold depth)
  /-- The cells left are those that slots reached, and that slots reach now. -/
  objects : ∀ id : ObjectId, (m'.heap.objects.get? id.cell).isSome ↔
    (m.heap.objects.get? id.cell).isSome ∧ m.heap.ReachesObject m.heldValues id
  properties : ∀ id : PropertyId, (m'.heap.properties.get? id.cell).isSome ↔
    (m.heap.properties.get? id.cell).isSome ∧ m.heap.ReachesProperty m.heldValues id
  signatures : ∀ id : SignatureId, (m'.heap.signatures.get? id.cell).isSome ↔
    (m.heap.signatures.get? id.cell).isSome ∧ m.heap.Reaches m.heldValues (.signature id)
  settled : m'.heap.Settled m'.heldValues
  /-- The buffer is the records that slots reached, in the order they had. -/
  records : m'.heap.strings.data.data.toList
    = (m.heap.reachedOffsets m.heldValues).flatMap m.heap.strings.recordAt
  recordStarts : m'.RecordStarts
  /-- Another collection frees nothing, gives no block back, and moves nothing. -/
  again : ∀ full, (m'.collect full).2 = ⟨0, 0, 0, 0, 0⟩ ∧
    (∀ slot, (m'.collect full).1.slot? slot = m'.slot? slot) ∧
    (∀ id, (m'.collect full).1.heap.objects.get? id = m'.heap.objects.get? id) ∧
    (∀ id, (m'.collect full).1.heap.properties.get? id = m'.heap.properties.get? id) ∧
    ∀ id, (m'.collect full).1.heap.signatures.get? id = m'.heap.signatures.get? id

/-- What another collection does where everything is reached. -/
theorem collect_settled {m : Machine W} (hs : m.heap.Sound) (hu : m.heap.Unmarked)
    (hr : m.RecordStarts) (haddr : m.heap.Addressable) (hsettled : m.heap.Settled m.heldValues)
    (full : Bool) :
    (m.collect full).2 = ⟨0, 0, 0, 0, 0⟩ ∧
      (∀ slot, (m.collect full).1.slot? slot = m.slot? slot) ∧
      (∀ id, (m.collect full).1.heap.objects.get? id = m.heap.objects.get? id) ∧
      (∀ id, (m.collect full).1.heap.properties.get? id = m.heap.properties.get? id) ∧
      ∀ id, (m.collect full).1.heap.signatures.get? id = m.heap.signatures.get? id := by
  obtain ⟨hstats, hempty⟩ := hsettled.collect hs hu hr haddr full m.options.stringSlack
  have hk := Heap.kept_collect hs hu m.heldValues full m.options.stringSlack
  obtain ⟨⟨heap, moves, stats⟩, hcollect⟩ :
    ∃ r, m.heap.collect m.heldValues full m.options.stringSlack = r := ⟨_, rfl⟩
  rw [hcollect] at hstats hempty hk
  rw [collect_eq m full hcollect]
  refine ⟨hstats, fun slot => ?_, hsettled.get?_collect hk hempty⟩
  have hid : StringHeap.relocate moves = id := funext (Heap.relocate_eq_self hempty)
  rw [slot?_mapHeld, hid, Option.map_id_apply]
  cases slot <;> rfl

/-- A collection of a reachable machine keeps what its slots reach, and nothing else. -/
theorem collect_spec {env : Embedding W} {m : Machine W} (hm : Reachable env m) (hr : m.RecordStarts)
    (full : Bool) : CollectSpec m (m.collect full).1 := by
  obtain ⟨hs, hu⟩ := hm.sound
  have hc := Heap.collected_collect hs hu hr full m.options.stringSlack
  obtain ⟨hobjects, hproperties, hsignatures⟩ :=
    m.heap.cells_size_collect m.heldValues full m.options.stringSlack
  obtain ⟨⟨heap, moves, stats⟩, hcollect⟩ :
    ∃ r, m.heap.collect m.heldValues full m.options.stringSlack = r := ⟨_, rfl⟩
  rw [hcollect] at hc hobjects hproperties hsignatures
  rw [collect_eq m full hcollect]
  let m' : Machine W := ({ m with heap := heap } : Machine W).mapHeld (StringHeap.relocate moves)
  have hheld : m'.heldValues = m.heldValues.map (StringHeap.relocate moves) := heldValues_mapHeld _ _
  have hsettled : m'.heap.Settled m'.heldValues := by
    rw [hheld]
    exact hc.settled hr
  have hrecords : m'.RecordStarts := by
    show m'.heap.Rooted m'.heldValues
    rw [hheld]
    exact hc.rooted
  have haddr : m'.heap.Addressable :=
    ⟨hobjects.trans_le hm.addressable.objects, hproperties.trans_le hm.addressable.properties,
      hsignatures.trans_le hm.addressable.signatures⟩
  refine ⟨fun slot depth => ?_, hc.isSome_object, hc.isSome_property, hc.isSome_signature, hsettled,
    hc.data_eq, hrecords, collect_settled (hc.sound hs) hc.unmarked hrecords haddr hsettled⟩
  · have hslot : m'.slot? slot = (m.slot? slot).map (StringHeap.relocate moves) := by
      rw [slot?_mapHeld]
      cases slot <;> rfl
    show (m'.slot? slot).map (heap.unfold depth) = _
    rw [hslot, Option.map_map]
    refine Option.map_congr fun v hv => ?_
    exact hc.unfold_eq depth (.root (mem_heldValues.2 ⟨slot, hv⟩))

/-- An embedder without functions. -/
def noEmbedding : Embedding Unit := ⟨#[], none, fun _ _ => .unknown⟩

/-- A machine with two texts, the second of them on the stack. -/
def withTwoTexts (start : Machine Unit) : Machine Unit :=
  let first := leftBy (allocString (Text.bytesOf "left behind") start)
  let second := leftBy (allocString (Text.bytesOf "still held") first)
  leftBy (push (.string (.owned ⟨13, by decide⟩)) second)

/-- The two texts are all records, and the value on the stack is the start of the second. -/
def holdsTwoTexts (m : Machine Unit) : Bool :=
  m.heap.heldOffsets m.heldValues == [13] &&
    (m.heap.strings.data.data.toList
      == [Text.bytesOf "left behind", Text.bytesOf "still held"].flatMap StringHeap.record) &&
    decide (m.heap.objects.cells.size ≤ UInt32.size) &&
    decide (m.heap.properties.cells.size ≤ UInt32.size) &&
    decide (m.heap.signatures.cells.size ≤ UInt32.size)

theorem collect_spec_twoTexts : ∃ start, new .default ⟨"", none⟩ () = .ok start ∧
    Reachable noEmbedding (withTwoTexts start) ∧ (withTwoTexts start).RecordStarts ∧
    CollectSpec (withTwoTexts start) ((withTwoTexts start).collect true).1 := by
  have hcheck : ((new .default ⟨"", none⟩ ()).map fun start => holdsTwoTexts (withTwoTexts start)).toOption
      = some true := by decide +kernel
  cases hnew : new .default ⟨"", none⟩ () with
  | error e =>
    rw [hnew] at hcheck
    simp [Except.map, Except.toOption] at hcheck
  | ok start =>
    rw [hnew] at hcheck
    simp only [Except.map, Except.toOption, Option.some.injEq, holdsTwoTexts, Bool.and_eq_true,
      beq_iff_eq, decide_eq_true_eq] at hcheck
    obtain ⟨⟨⟨⟨hoffsets, hdata⟩, hobjects⟩, hproperties⟩, hsignatures⟩ := hcheck
    have hreach : Reachable noEmbedding (withTwoTexts start) := by
      refine ⟨⟨.default, ⟨"", none⟩, (), start, hnew, ?_⟩, hobjects, hproperties, hsignatures⟩
      refine (leads_operation (.allocString (Text.bytesOf "left behind")) start).trans ?_
      refine (leads_operation (.allocString (Text.bytesOf "still held")) _).trans ?_
      exact leads_of_heap rfl
    have hrecords : (withTwoTexts start).RecordStarts := by
      refine Heap.rooted_of_heldOffsets fun offset hoffset => ?_
      rw [hoffsets, List.mem_singleton] at hoffset
      rw [hoffset]
      refine ⟨_, ⟨hdata, by decide +kernel⟩, Text.bytesOf "still held", ?_⟩
      decide +kernel
    exact ⟨start, rfl, hreach, hrecords, collect_spec hreach hrecords true⟩

end ScriptEngine.Machine
