import ScriptEngine.Ffi.Arg
import ScriptEngine.Heap.Properties
import ScriptEngine.Proofs.Heap.Preservation
/-!
Changes of a heap.

`Keeps h h'` says that a change keeps the order of the heap (`Heap.Sound`) and marks nothing, as long as
the slots of the heap it leads to have numbers that handles can carry. It goes from each operation to rows
of them, and every operation of the engine has it: allocation, properties, arrays, buffers, strings and
collections.
-/

namespace ScriptEngine

namespace Arena

variable {α : Type}

theorem le_size_cells_alloc (a : Arena α) (cell : α) : a.cells.size ≤ (a.alloc cell).1.cells.size := by
  rw [size_cells_alloc]
  exact size_cells_ready a

theorem size_cells_sweep (a : Arena α) : a.sweep.1.cells.size = a.cells.size := by
  show a.keptCells.size = a.cells.size
  simp [keptCells]

theorem size_cells_map (a : Arena α) (f : α → α) : (a.map f).cells.size = a.cells.size := by
  simp [map]

end Arena

namespace Heap

/-- A change keeps the order of the heap. -/
structure Keeps (h h' : Heap) : Prop where
  objects_le : h.objects.cells.size ≤ h'.objects.cells.size
  properties_le : h.properties.cells.size ≤ h'.properties.cells.size
  signatures_le : h.signatures.cells.size ≤ h'.signatures.cells.size
  unmarked : h.Unmarked → h'.Unmarked
  sound : h'.Addressable → h.Unmarked → h.Sound → h'.Sound

section Keeps

variable {h h' h'' : Heap}

theorem Keeps.addressable (hk : Keeps h h') (ha : h'.Addressable) : h.Addressable :=
  ⟨Nat.le_trans hk.objects_le ha.objects, Nat.le_trans hk.properties_le ha.properties,
    Nat.le_trans hk.signatures_le ha.signatures⟩

theorem Keeps.refl (h : Heap) : Keeps h h :=
  ⟨Nat.le_refl _, Nat.le_refl _, Nat.le_refl _, id, fun _ _ hs => hs⟩

theorem Keeps.trans (hk : Keeps h h') (hk' : Keeps h' h'') : Keeps h h'' where
  objects_le := Nat.le_trans hk.objects_le hk'.objects_le
  properties_le := Nat.le_trans hk.properties_le hk'.properties_le
  signatures_le := Nat.le_trans hk.signatures_le hk'.signatures_le
  unmarked := fun hu => hk'.unmarked (hk.unmarked hu)
  sound := fun ha hu hs => hk'.sound ha (hk.unmarked hu) (hk.sound (hk'.addressable ha) hu hs)

/-- Strings, and the request for a collection, have no part in the order of a heap. -/
theorem keeps_of_arenas (hobjects : h'.objects = h.objects) (hproperties : h'.properties = h.properties)
    (hsignatures : h'.signatures = h.signatures) : Keeps h h' := by
  refine ⟨by rw [hobjects], by rw [hproperties], by rw [hsignatures], fun hu => ?_, fun _ _ hs => ?_⟩
  · exact ⟨hobjects ▸ hu.objects, hproperties ▸ hu.properties, hsignatures ▸ hu.signatures⟩
  · refine ⟨hobjects ▸ hs.objects, hproperties ▸ hs.properties, hsignatures ▸ hs.signatures, ?_, ?_, ?_⟩
    · rw [hobjects, hproperties]
      exact hs.live
    · rw [hobjects]
      exact hs.nodup
    · rw [hobjects]
      exact hs.disjoint

end Keeps

/-! ## Objects -/

theorem keeps_newCell (h : Heap) (kind : ObjectKind) : Keeps h (h.newCell kind).1 := by
  refine ⟨Arena.le_size_cells_alloc _ _, Nat.le_refl _, Nat.le_refl _, fun hu => ?_, fun ha _ hs => ?_⟩
  · exact ⟨hu.objects.alloc _, hu.properties, hu.signatures⟩
  · have hget : ∀ id, (h.newCell kind).1.objects.get? id
        = if id = (h.newCell kind).2.cell then some ⟨#[], kind⟩ else h.objects.get? id :=
      hs.objects.get?_alloc ha.objects
    -- The new object has no properties.
    have hold : ∀ id cell p, (h.newCell kind).1.objects.get? id = some cell →
        p ∈ cell.properties.toList → h.objects.get? id = some cell := by
      intro id cell p hcell hp
      rw [hget] at hcell
      split at hcell
      · rw [← Option.some.inj hcell] at hp
        simp at hp
      · exact hcell
    refine ⟨hs.objects.alloc _, hs.properties, hs.signatures, ?_, ?_, ?_⟩
    · intro id cell hcell p hp
      exact hs.live id cell (hold id cell p hcell hp) p hp
    · intro id cell hcell
      rw [hget] at hcell
      split at hcell
      · rw [← Option.some.inj hcell]
        exact List.nodup_nil
      · exact hs.nodup id cell hcell
    · intro id id' cell cell' p hcell hcell' hp hp'
      exact hs.disjoint id id' cell cell' p (hold _ _ _ hcell hp) (hold _ _ _ hcell' hp') hp hp'

theorem get?_modifyCell (h : Heap) (id : ObjectId) (f : ObjectCell → ObjectCell) (id' : ObjectId) :
    (h.modifyCell id f).objects.get? id'.cell
      = if id' = id then (h.objects.get? id.cell).map f else h.objects.get? id'.cell := by
  rw [show (h.modifyCell id f).objects.get? id'.cell = _ from Arena.get?_modify _ _ _ _]
  by_cases heq : id' = id
  · rw [if_pos heq, if_pos (congrArg ObjectId.cell heq)]
  · rw [if_neg heq, if_neg fun hcells => heq (ObjectId.eq_of_cell_eq hcells)]

/-- Changes of an object that leave it with some of its properties. -/
theorem keeps_modifyCell (h : Heap) (id : ObjectId) {f : ObjectCell → ObjectCell}
    (hf : ∀ cell, (f cell).properties.toList.Sublist cell.properties.toList) :
    Keeps h (h.modifyCell id f) := by
  refine ⟨(Arena.size_cells_modify _ _ _).ge, Nat.le_refl _, Nat.le_refl _, fun hu => ?_,
    fun _ _ hs => ?_⟩
  · exact ⟨hu.objects.modify _ _, hu.properties, hu.signatures⟩
  · have hold : ∀ id' cell', (h.modifyCell id f).objects.get? id' = some cell' →
        ∃ cell, h.objects.get? id' = some cell ∧
          cell'.properties.toList.Sublist cell.properties.toList := by
      intro id' cell' hcell'
      rw [show (h.modifyCell id f).objects.get? id' = _ from Arena.get?_modify _ _ _ _] at hcell'
      split at hcell'
      · rename_i heq
        obtain ⟨cell, hcell, rfl⟩ := Option.map_eq_some_iff.1 hcell'
        exact ⟨cell, heq ▸ hcell, hf cell⟩
      · exact ⟨cell', hcell', List.Sublist.refl _⟩
    refine ⟨hs.objects.modify _ _, hs.properties, hs.signatures, ?_, ?_, ?_⟩
    · intro id' cell' hcell' p hp
      obtain ⟨cell, hcell, hsub⟩ := hold id' cell' hcell'
      exact hs.live id' cell hcell p (hsub.subset hp)
    · intro id' cell' hcell'
      obtain ⟨cell, hcell, hsub⟩ := hold id' cell' hcell'
      exact (hs.nodup id' cell hcell).sublist hsub
    · intro id₁ id₂ cell₁' cell₂' p hcell₁' hcell₂' hp₁ hp₂
      obtain ⟨cell₁, hcell₁, hsub₁⟩ := hold id₁ cell₁' hcell₁'
      obtain ⟨cell₂, hcell₂, hsub₂⟩ := hold id₂ cell₂' hcell₂'
      exact hs.disjoint id₁ id₂ cell₁ cell₂ p hcell₁ hcell₂ (hsub₁.subset hp₁) (hsub₂.subset hp₂)

theorem keeps_newSignature (h : Heap) (f : Ffi.ForeignFunction) : Keeps h (h.newSignature f).1 := by
  refine ⟨Nat.le_refl _, Nat.le_refl _, Arena.le_size_cells_alloc _ _, fun hu => ?_, fun _ _ hs => ?_⟩
  · exact ⟨hu.objects, hu.properties, hu.signatures.alloc _⟩
  · exact ⟨hs.objects, hs.properties, hs.signatures.alloc _, hs.live, hs.nodup, hs.disjoint⟩

/-! ## Properties -/

/-- A new property is that of no object yet. -/
theorem keeps_addProperty (h : Heap) (obj : ObjectId) (name value : Value) :
    Keeps h (h.addProperty obj name value) := by
  refine ⟨(Arena.size_cells_modify _ _ _).ge, Arena.le_size_cells_alloc _ _, Nat.le_refl _, fun hu => ?_,
    fun ha _ hs => ?_⟩
  · exact ⟨hu.objects.modify _ _, hu.properties.alloc _, hu.signatures⟩
  let new : PropertyId := ⟨(h.properties.alloc ⟨name, value⟩).2.1⟩
  have hproperty : ∀ id, (h.addProperty obj name value).properties.get? id
      = if id = new.cell then some ⟨name, value⟩ else h.properties.get? id :=
    hs.properties.get?_alloc ha.properties
  have hfresh : h.properties.get? new.cell = none := hs.properties.get?_alloc_id ha.properties
  have hobject : ∀ id cell', (h.addProperty obj name value).objects.get? id = some cell' →
      ∃ cell, h.objects.get? id = some cell ∧ (cell'.properties.toList = cell.properties.toList ∨
        id = obj.cell ∧ cell'.properties.toList = cell.properties.toList ++ [new]) := by
    intro id cell' hcell'
    rw [show (h.addProperty obj name value).objects.get? id = _ from Arena.get?_modify _ _ _ _] at hcell'
    split at hcell'
    · rename_i heq
      obtain ⟨cell, hcell, rfl⟩ := Option.map_eq_some_iff.1 hcell'
      exact ⟨cell, heq ▸ hcell, .inr ⟨heq, Array.toList_push⟩⟩
    · exact ⟨cell', hcell', .inl rfl⟩
  have hnot : ∀ id cell, h.objects.get? id = some cell → new ∉ cell.properties.toList := by
    intro id cell hcell hmem
    have := hs.live id cell hcell new hmem
    simp [hfresh] at this
  have hmem : ∀ id cell', (h.addProperty obj name value).objects.get? id = some cell' →
      ∃ cell, h.objects.get? id = some cell ∧
        ∀ p ∈ cell'.properties.toList, p ∈ cell.properties.toList ∨ p = new ∧ id = obj.cell := by
    intro id cell' hcell'
    obtain ⟨cell, hcell, hsame | ⟨hid, hpush⟩⟩ := hobject id cell' hcell'
    · exact ⟨cell, hcell, fun p hp => .inl (hsame ▸ hp)⟩
    · refine ⟨cell, hcell, fun p hp => ?_⟩
      rw [hpush, List.mem_append, List.mem_singleton] at hp
      exact hp.imp_right fun heq => ⟨heq, hid⟩
  refine ⟨hs.objects.modify _ _, hs.properties.alloc _, hs.signatures, ?_, ?_, ?_⟩
  · intro id cell' hcell' p hp
    obtain ⟨cell, hcell, hcases⟩ := hmem id cell' hcell'
    rw [hproperty]
    split
    · rfl
    · rename_i hne
      rcases hcases p hp with hold | ⟨rfl, -⟩
      · exact hs.live id cell hcell p hold
      · exact absurd rfl hne
  · intro id cell' hcell'
    obtain ⟨cell, hcell, hsame | ⟨-, hpush⟩⟩ := hobject id cell' hcell'
    · rw [hsame]
      exact hs.nodup id cell hcell
    · rw [hpush, List.nodup_append]
      refine ⟨hs.nodup id cell hcell, by simp, fun p hp q hq => ?_⟩
      rintro rfl
      rw [List.mem_singleton] at hq
      exact hnot id cell hcell (hq ▸ hp)
  · intro id₁ id₂ cell₁' cell₂' p hcell₁' hcell₂' hp₁ hp₂
    obtain ⟨cell₁, hcell₁, hcases₁⟩ := hmem id₁ cell₁' hcell₁'
    obtain ⟨cell₂, hcell₂, hcases₂⟩ := hmem id₂ cell₂' hcell₂'
    rcases hcases₁ p hp₁ with hp₁ | ⟨rfl, hid₁⟩
    · rcases hcases₂ p hp₂ with hp₂ | ⟨rfl, -⟩
      · exact hs.disjoint id₁ id₂ cell₁ cell₂ p hcell₁ hcell₂ hp₁ hp₂
      · exact absurd hp₁ (hnot id₁ cell₁ hcell₁)
    · rcases hcases₂ _ hp₂ with hp₂ | ⟨-, hid₂⟩
      · exact absurd hp₂ (hnot id₂ cell₂ hcell₂)
      · rw [hid₁, hid₂]

theorem keeps_modifyProperty (h : Heap) (id : CellId) (f : Property → Property) :
    Keeps h { h with properties := h.properties.modify id f } := by
  refine ⟨Nat.le_refl _, (Arena.size_cells_modify _ _ _).ge, Nat.le_refl _, fun hu => ?_,
    fun _ _ hs => ?_⟩
  · exact ⟨hu.objects, hu.properties.modify _ _, hu.signatures⟩
  · refine ⟨hs.objects, hs.properties.modify _ _, hs.signatures, ?_, hs.nodup, hs.disjoint⟩
    intro id' cell hcell p hp
    have hlive := hs.live id' cell hcell p hp
    show ((h.properties.modify id f).get? p.cell).isSome
    rw [Arena.get?_modify]
    split
    · rename_i heq
      rw [Option.isSome_map, ← heq]
      exact hlive
    · exact hlive

/-! ## Operations that may fail -/

end Heap

/-- The state that work leaves, whatever comes of it. -/
def leftBy {ε σ α : Type} : EStateM.Result ε σ α → σ
  | .ok _ s => s
  | .error _ s => s

/-- The same error, or results in a relation. -/
inductive ResultLike {α β : Type} (R : α → β → Prop) : Except Error α → Except Error β → Prop
  | ok {a : α} {b : β} (h : R a b) : ResultLike R (.ok a) (.ok b)
  | error (e : Error) : ResultLike R (.error e) (.error e)

theorem ResultLike.isOk {α β : Type} {R : α → β → Prop} {r : Except Error α} {r' : Except Error β}
    (h : ResultLike R r r') : r'.isOk = r.isOk := by
  cases h <;> rfl

namespace Heap

theorem keeps_set (h : Heap) (obj : ObjectId) (key value : Value) :
    Keeps h (leftBy (h.set obj key value)) := by
  unfold Heap.set
  split
  · exact Keeps.refl h
  · split
    · exact Keeps.refl h
    · exact keeps_modifyProperty h _ _
    · exact keeps_addProperty h obj key value

theorem keeps_delete (h : Heap) (obj : ObjectId) (key : Value) :
    Keeps h (leftBy (h.delete obj key)) := by
  unfold Heap.delete
  split
  · exact Keeps.refl h
  · split
    · exact Keeps.refl h
    · exact Keeps.refl h
    · refine keeps_modifyCell h obj fun cell => ?_
      show (cell.properties.eraseIdxIfInBounds _).toList.Sublist _
      unfold Array.eraseIdxIfInBounds
      split
      · rw [Array.toList_eraseIdx]
        exact List.eraseIdx_sublist _ _
      · exact List.Sublist.refl _

theorem keeps_modifyItems (h : Heap) (id : ObjectId) (f : Array Value → Array Value) :
    Keeps h (leftBy (h.modifyItems id f)) := by
  unfold Heap.modifyItems
  split
  · refine keeps_modifyCell h id fun cell => ?_
    rcases cell with ⟨properties, kind⟩
    cases kind <;> exact List.Sublist.refl _
  · exact Keeps.refl h
  · exact Keeps.refl h

theorem keeps_setByte (h : Heap) (id : ObjectId) (index shown : Nat) (b : UInt8) :
    Keeps h (leftBy (h.setByte id index shown b)) := by
  unfold Heap.setByte
  split
  · split
    · refine keeps_modifyCell h id fun cell => ?_
      rcases cell with ⟨properties, kind⟩
      cases kind <;> exact List.Sublist.refl _
    · exact Keeps.refl h
  · exact Keeps.refl h

theorem keeps_storeString (h : Heap) (store : EStateM Error StringHeap Value) :
    Keeps h (leftBy (h.storeString store)) := by
  unfold Heap.storeString
  split <;> exact keeps_of_arenas rfl rfl rfl

theorem keeps_lendString (h : Heap) (lender : Lender) (bytes : List UInt8) :
    Keeps h (leftBy (h.lendString lender bytes)) := by
  unfold Heap.lendString
  split <;> exact keeps_of_arenas rfl rfl rfl

/-- What native code hands over. -/
theorem keeps_toValue (h : Heap) (type : Ffi.CType) (arg : Ffi.Arg) :
    Keeps h (leftBy (Ffi.Arg.toValue h type arg)) := by
  unfold Ffi.Arg.toValue
  split
  case h_7 | h_8 => exact keeps_storeString h _
  case h_9 => split <;> exact Keeps.refl h
  case h_10 =>
    split
    · exact Keeps.refl h
    · split <;> exact Keeps.refl h
  all_goals exact Keeps.refl h

/-! ## Collections -/

/-- Marking changes marks only. -/
structure OnlyMarks (h h' : Heap) : Prop where
  objects : h.objects.Remarked h'.objects
  properties : h.properties.Remarked h'.properties
  signatures : h.signatures.Remarked h'.signatures

theorem OnlyMarks.refl (h : Heap) : OnlyMarks h h := ⟨.refl _, .refl _, .refl _⟩

theorem OnlyMarks.trans {h h' h'' : Heap} (hm : OnlyMarks h h') (hm' : OnlyMarks h' h'') :
    OnlyMarks h h'' :=
  ⟨hm.objects.trans hm'.objects, hm.properties.trans hm'.properties, hm.signatures.trans hm'.signatures⟩

theorem onlyMarks_markProperties (h : Heap) (work : List Value) (ids : List PropertyId) :
    OnlyMarks h (h.markProperties work ids).1 := by
  induction ids generalizing h work with
  | nil => exact OnlyMarks.refl h
  | cons id rest ih =>
    have hmark : OnlyMarks h { h with properties := (h.properties.mark id.cell).1 } :=
      ⟨.refl _, Arena.remarked_mark _ _, .refl _⟩
    rw [markProperties]
    simp only
    split
    · exact hmark.trans (ih _ _)
    · exact hmark

theorem onlyMarks_markObject (h : Heap) (work : List Value) (id : ObjectId) :
    OnlyMarks h (h.markObject work id).1 := by
  have hmark : OnlyMarks h { h with objects := (h.objects.mark id.cell).1 } :=
    ⟨Arena.remarked_mark _ _, .refl _, .refl _⟩
  unfold markObject
  simp only
  split
  · split
    · exact hmark.trans (onlyMarks_markProperties _ _ _)
    · exact hmark
  · exact hmark

theorem onlyMarks_look (h : Heap) (offsets : List Nat) (work : List Value) (v : Value) :
    OnlyMarks h (h.look offsets work v).1 := by
  unfold look
  split
  · exact OnlyMarks.refl h
  · exact onlyMarks_markObject h work _
  · exact onlyMarks_markObject h work _
  · exact onlyMarks_markObject h work _
  · exact onlyMarks_markObject h work _
  · exact ⟨.refl _, .refl _, Arena.remarked_mark _ _⟩
  · exact OnlyMarks.refl h

theorem onlyMarks_markAll (h : Heap) (offsets : List Nat) (work : List Value) (limit : Nat) :
    OnlyMarks h (h.markAll offsets work limit).1 := by
  induction limit generalizing h offsets work with
  | zero => exact OnlyMarks.refl h
  | succ limit ih =>
    cases work with
    | nil => exact OnlyMarks.refl h
    | cons v work =>
      rw [markAll_cons]
      exact (onlyMarks_look h offsets work v).trans (ih _ _ _)

/-- A collection changes no arena's size. -/
theorem cells_size_compacted (h : Heap) (live : List Nat) :
    (h.compacted live).objects.cells.size = h.objects.cells.size ∧
      (h.compacted live).properties.cells.size = h.properties.cells.size ∧
      (h.compacted live).signatures.cells.size = h.signatures.cells.size := by
  refine ⟨?_, ?_, ?_⟩
  · rw [← Arena.size_cells_sweep h.objects]
    exact relocate_objects_of _ (P := fun a => a.cells.size = h.objects.sweep.1.cells.size) rfl
      (Arena.size_cells_map _)
  · rw [← Arena.size_cells_sweep h.properties]
    exact relocate_properties_of _ (P := fun a => a.cells.size = h.properties.sweep.1.cells.size) rfl
      (Arena.size_cells_map _)
  · rw [signatures_compacted, Arena.size_cells_sweep]

theorem cells_size_collect (h : Heap) (roots : List Value) (full : Bool) (slack : Nat) :
    (h.collect roots full slack).1.objects.cells.size = h.objects.cells.size ∧
      (h.collect roots full slack).1.properties.cells.size = h.properties.cells.size ∧
      (h.collect roots full slack).1.signatures.cells.size = h.signatures.cells.size := by
  obtain ⟨marked, hmarked⟩ : ∃ marked, h.markAll [] roots (h.markLimit roots) = marked := ⟨_, rfl⟩
  have hmarks := onlyMarks_markAll h [] roots (h.markLimit roots)
  rw [hmarked] at hmarks
  have hsizes := cells_size_compacted marked.1 marked.2
  rw [hmarks.objects.cells_eq, hmarks.properties.cells_eq, hmarks.signatures.cells_eq] at hsizes
  rw [collect_eq hmarked]
  cases full with
  | false => exact hsizes
  | true => exact hsizes

theorem unmarked_collect (h : Heap) (roots : List Value) (full : Bool) (slack : Nat) :
    (h.collect roots full slack).1.Unmarked := by
  obtain ⟨marked, hmarked⟩ : ∃ marked, h.markAll [] roots (h.markLimit roots) = marked := ⟨_, rfl⟩
  have hu := unmarked_compacted marked.1 marked.2
  rw [collect_eq hmarked]
  cases full with
  | false => exact hu
  | true => exact ⟨hu.objects, hu.properties, hu.signatures⟩

theorem keeps_collect (h : Heap) (roots : List Value) (full : Bool) (slack : Nat) :
    Keeps h (h.collect roots full slack).1 := by
  obtain ⟨hobjects, hproperties, hsignatures⟩ := cells_size_collect h roots full slack
  refine ⟨hobjects.ge, hproperties.ge, hsignatures.ge,
    fun _ => unmarked_collect h roots full slack, fun _ hu hs => ?_⟩
  exact (kept_collect hs hu roots full slack).sound hs

/-! ## The start -/

theorem sound_empty (o : Options) : (empty o).Sound := by
  have hnone : ∀ id, (empty o).objects.get? id = none := fun id => Arena.get?_empty _ _ id
  refine ⟨Arena.sound_empty _ _, Arena.sound_empty _ _, Arena.sound_empty _ _, ?_, ?_, ?_⟩
  · intro id cell hcell
    simp [hnone] at hcell
  · intro id cell hcell
    simp [hnone] at hcell
  · intro id id' cell cell' p hcell
    simp [hnone] at hcell

theorem unmarked_empty (o : Options) : (empty o).Unmarked :=
  ⟨Arena.unmarked_empty _ _, Arena.unmarked_empty _ _, Arena.unmarked_empty _ _⟩

end Heap

end ScriptEngine
