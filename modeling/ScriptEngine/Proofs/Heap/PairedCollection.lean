import ScriptEngine.Proofs.Heap.PairedChanges
/-!
Collections on one side of paired heaps.

A collection of one of two paired heaps leaves them paired: what can be reached still stands for what it
stood for, under its handles and at the new places of its strings (`Paired.collect`).
-/

namespace ScriptEngine.Heap

variable {p q : Pairing} {h h' : Heap} {roots : List Value} {moves : StringHeap.Relocation} {v v' : Value}

/-! ## What stands for what is reached -/

theorem Paired.exists_pair (H : Paired p h h') (hroots : ∀ v ∈ roots, ∃ v', p.Values v v')
    (hv : h.Reaches roots v) : ∃ v', p.Values v v' := by
  induction hv with
  | root hroot => exact hroots _ hroot
  | @held v w cell _ hof hmem ih =>
    obtain ⟨v', hv'⟩ := ih
    obtain ⟨id, hid, hcell⟩ := cellOf?_eq_some.mp hof
    have hobject : ∃ id', p.objects id id' := by
      cases hv' <;> cases hid <;> exact ⟨_, ‹_›⟩
    obtain ⟨id', hobject⟩ := hobject
    obtain ⟨cell₀, cell', hcell₀, -, hpair⟩ := H.object hobject
    rw [hcell] at hcell₀
    cases hcell₀
    rcases List.mem_append.mp hmem with hmem | hmem
    · obtain ⟨properties, kind⟩ := cell
      obtain ⟨properties', kind'⟩ := cell'
      cases hpair.kind with
      | array hitems => exact exists_rel_of_mem hitems hmem
      | view hbuffer offset length =>
        obtain rfl := List.mem_singleton.mp hmem
        exact ⟨_, .arrayBuffer hbuffer⟩
      | plain => cases hmem
      | buffer bytes => cases hmem
    · obtain ⟨prop, hprop, property, hget, hmem⟩ := mem_propertyValues.mp hmem
      obtain ⟨-, property₀, property', hget₀, -, hname, hvalue⟩ := exists_rel_of_mem hpair.properties hprop
      rw [hget] at hget₀
      cases hget₀
      rcases List.mem_cons.mp hmem with rfl | hmem
      · exact ⟨_, hname⟩
      · obtain rfl := List.mem_singleton.mp hmem
        exact ⟨_, hvalue⟩

theorem Paired.recorded (H : Paired p h h') (hroots : ∀ v ∈ roots, ∃ v', p.Values v v') : h.Recorded roots := by
  intro v hv offset hoffset
  obtain ⟨v', hv'⟩ := H.exists_pair hroots hv
  cases hv' with
  | string hs =>
    cases hs with
    | owned ho =>
      cases hoffset
      exact (H.record ho).1
    | _ => cases hoffset
  | _ => cases hoffset

/-! ## Behind a collection -/

/-- What stands for what behind a collection of the first heap. -/
def keptPairing (p : Pairing) (h : Heap) (roots : List Value) (moves : StringHeap.Relocation) : Pairing where
  objects id id' := p.objects id id' ∧ h.ReachesObject roots id
  records new offset' := ∃ offset, p.records offset offset' ∧ h.Reaches roots (.string (.owned offset)) ∧
    StringHeap.relocate moves (.string (.owned offset)) = .string (.owned new)

theorem Collected.values {k : Heap} (hc : Collected h roots k moves) (hv : p.Values v v') (hreach : h.Reaches roots v) :
    (keptPairing p h roots moves).Values (StringHeap.relocate moves v) v' := by
  cases hv with
  | string hs =>
    cases hs with
    | inline text => exact .string (.inline text)
    | foreign index => exact .string (.foreign index)
    | @owned offset offset' ho =>
      obtain ⟨new, hmove, -⟩ := hc.string offset hreach
      rw [hmove]
      exact .string (.owned ⟨offset, ho, hreach, hmove⟩)
  | number n => exact .number n
  | boolean b => exact .boolean b
  | null => exact .null
  | undefined => exact .undefined
  | object hid => exact .object ⟨hid, _, hreach, rfl⟩
  | array hid => exact .array ⟨hid, _, hreach, rfl⟩
  | arrayBuffer hid => exact .arrayBuffer ⟨hid, _, hreach, rfl⟩
  | dataView hid => exact .dataView ⟨hid, _, hreach, rfl⟩
  | function start => exact .function start
  | native id => exact .native id
  | foreign address => exact .foreign address

theorem Collected.pairsCell {k : Heap} (hc : Collected h roots k moves) {id : ObjectId} {cell cell' : ObjectCell}
    (hid : h.ReachesObject roots id) (hcell : h.objects.get? id.cell = some cell) (hpair : PairsCell p h h' cell cell') :
    PairsCell (keptPairing p h roots moves) k h' (relocateCell moves cell) cell' := by
  obtain ⟨v, hv, hcellId⟩ := hid
  have hof := cellOf?_eq_some.mpr ⟨id, hcellId, hcell⟩
  have hheld {w : Value} (hw : w ∈ h.heldBy cell) : h.Reaches roots w := .held hv hof hw
  obtain ⟨hkind, hproperties⟩ := hpair
  have hkinds : (keptPairing p h roots moves).Kinds (relocateCell moves cell).kind cell'.kind := by
    have hvalues : ∀ w ∈ cell.kind.values, h.Reaches roots w := fun w hw => hheld (List.mem_append_left _ hw)
    obtain ⟨properties, kind⟩ := cell
    obtain ⟨properties', kind'⟩ := cell'
    cases hkind with
    | plain => exact .plain
    | @array items items' hitems =>
      refine .array (Rows.map_left.mpr (hitems.imp_getElem? fun i x y hx _ hxy => hc.values hxy (hvalues x ?_)))
      exact Array.mem_toList_iff.mpr (Array.mem_of_getElem? hx)
    | buffer bytes => exact .buffer bytes
    | view hbuffer offset length =>
      have hreach := hvalues _ (List.mem_singleton.mpr rfl)
      exact .view (show (keptPairing p h roots moves).objects _ _ from ⟨hbuffer, _, hreach, rfl⟩) offset length
  refine ⟨hkinds, ?_⟩
  rw [properties_relocateCell]
  refine hproperties.imp_getElem? fun i x y hx _ hxy => ?_
  obtain ⟨prop, prop', hprop, hprop', hname, hvalue⟩ := hxy
  have hmem : x ∈ cell.properties.toList := Array.mem_toList_iff.mpr (Array.mem_of_getElem? hx)
  have hboth {w : Value} (hw : w ∈ [prop.name, prop.value]) : h.Reaches roots w :=
    hheld (List.mem_append_right _ (mem_propertyValues.mpr ⟨x, hmem, prop, hprop, hw⟩))
  refine ⟨relocateProperty moves prop, prop', ?_, hprop', hc.values hname (hboth (by simp)),
    hc.values hvalue (hboth (by simp))⟩
  rw [hc.get?_property hv hof hmem, hprop]
  rfl

/-- A collection of one heap leaves it paired with the other. -/
theorem Paired.collect (H : Paired p h h') (hroots : ∀ v ∈ roots, ∃ v', p.Values v v') (full : Bool) (slack : Nat) :
    Paired (keptPairing p h roots (h.collect roots full slack).2.1) (h.collect roots full slack).1 h' ∧
      ∀ {v v' : Value}, v ∈ roots → p.Values v v' →
        (keptPairing p h roots (h.collect roots full slack).2.1).Values
          (StringHeap.relocate (h.collect roots full slack).2.1 v) v' := by
  have hc := Recorded.collect (H.recorded hroots) H.orderly.sound H.orderly.unmarked full slack
  generalize (h.collect roots full slack).1 = k, (h.collect roots full slack).2.1 = moves at hc ⊢
  refine ⟨⟨⟨hc.sound H.orderly.sound, hc.unmarked, ?_⟩, H.orderly', ?_, ?_, ?_, ?_, H.borrowed.trans hc.borrowed.symm⟩,
    fun hroot hv => hc.values hv (.root hroot)⟩
  · obtain ⟨texts, hholds⟩ := H.orderly.holds
    exact ⟨_, hc.holds texts hholds⟩
  · rintro id id' ⟨hid, hreach⟩
    obtain ⟨cell, cell', hcell, hcell', hpair⟩ := H.object hid
    exact ⟨relocateCell moves cell, cell', (hc.object_iff _ _).mpr ⟨cell, hcell, hreach, rfl⟩, hcell',
      hc.pairsCell hreach hcell hpair⟩
  · exact fun ha hb => H.right ha.1 hb.1
  · exact fun ha hb => H.left ha.1 hb.1
  · rintro new offset' ⟨offset, ho, hreach, hmove⟩
    obtain ⟨new', hmove', hrecord, hbytes⟩ := hc.string offset hreach
    rw [hmove] at hmove'
    cases hmove'
    exact ⟨hrecord, (H.record ho).2.1, (H.record ho).2.2.trans hbytes.symm⟩

end ScriptEngine.Heap
