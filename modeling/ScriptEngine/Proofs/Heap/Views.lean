import ScriptEngine.Proofs.Heap.Changes
/-!
Views and the buffers that they are of.

A view has a buffer, an offset and a length. That it lies in its buffer is checked when it is made, and relied on
wherever it is used. `ViewsFit` says it of all views of a heap. New objects keep to it if the heap `Admits` them;
changes of objects do if they leave their extents, that is how many bytes a buffer has and where a view lies; and
collections do since whatever reaches a view reaches its buffer.
-/

namespace ScriptEngine

/-- What of an object decides whether views lie in their buffers. -/
inductive Extent where
  | buffer (size : Nat)
  | view (buffer : ObjectId) (offset length : Nat)
  | other

def ObjectKind.extent : ObjectKind → Extent
  | .buffer bytes => .buffer bytes.size
  | .view id offset length => .view id offset length
  | .plain | .array _ => .other

namespace Heap

variable {h h' : Heap} {id buffer : ObjectId} {offset length : Nat}

/-- The extent of a live object. -/
def extent? (h : Heap) (id : ObjectId) : Option Extent :=
  (h.objects.get? id.cell).map fun cell => cell.kind.extent

/-- A view has a live buffer that it lies in. -/
def Admits (h : Heap) : Extent → Prop
  | .view buffer offset length => ∃ size, h.extent? buffer = some (.buffer size) ∧ offset + length ≤ size
  | .buffer _ | .other => True

/-- All views lie in their buffers. -/
def ViewsFit (h : Heap) : Prop :=
  ∀ id extent, h.extent? id = some extent → h.Admits extent

theorem extent?_eq_some {extent : Extent} :
    h.extent? id = some extent ↔ ∃ cell, h.objects.get? id.cell = some cell ∧ cell.kind.extent = extent := by
  unfold extent?
  exact Option.map_eq_some_iff

theorem cell_eq_ok {cell : ObjectCell} : h.cell id = .ok cell ↔ h.objects.get? id.cell = some cell := by
  unfold Heap.cell
  cases h.objects.get? id.cell <;> simp

theorem view_eq_ok : h.view id = .ok (buffer, offset, length) ↔
    ∃ properties, h.objects.get? id.cell = some ⟨properties, .view buffer offset length⟩ := by
  constructor
  · intro hview
    unfold view at hview
    split at hview <;> cases hview
    rename_i properties hcell
    exact ⟨properties, cell_eq_ok.mp hcell⟩
  · rintro ⟨properties, hcell⟩
    rw [view, cell_eq_ok.mpr hcell]

theorem buffer_eq_ok {bytes : Bytes} : h.buffer id = .ok bytes ↔
    ∃ properties, h.objects.get? id.cell = some ⟨properties, .buffer bytes⟩ := by
  constructor
  · intro hbuffer
    unfold Heap.buffer at hbuffer
    split at hbuffer <;> cases hbuffer
    rename_i properties hcell
    exact ⟨properties, cell_eq_ok.mp hcell⟩
  · rintro ⟨properties, hcell⟩
    rw [Heap.buffer, cell_eq_ok.mpr hcell]

theorem extent?_of_view (hview : h.view id = .ok (buffer, offset, length)) :
    h.extent? id = some (.view buffer offset length) := by
  obtain ⟨properties, hcell⟩ := view_eq_ok.mp hview
  exact extent?_eq_some.mpr ⟨_, hcell, rfl⟩

theorem extent?_of_buffer {bytes : Bytes} (hbuffer : h.buffer id = .ok bytes) :
    h.extent? id = some (.buffer bytes.size) := by
  obtain ⟨properties, hcell⟩ := buffer_eq_ok.mp hbuffer
  exact extent?_eq_some.mpr ⟨_, hcell, rfl⟩

theorem exists_buffer_of_extent? {size : Nat} (hextent : h.extent? id = some (.buffer size)) :
    ∃ bytes, h.buffer id = .ok bytes ∧ bytes.size = size := by
  obtain ⟨⟨properties, kind⟩, hcell, hkind⟩ := extent?_eq_some.mp hextent
  cases kind <;> cases hkind
  exact ⟨_, buffer_eq_ok.mpr ⟨properties, hcell⟩, rfl⟩

/-- A view has a live buffer, and its bytes are among those of the buffer. -/
theorem ViewsFit.exists_buffer (hfit : h.ViewsFit) (hview : h.view id = .ok (buffer, offset, length)) :
    ∃ bytes, h.buffer buffer = .ok bytes ∧ offset + length ≤ bytes.size := by
  obtain ⟨size, hextent, hle⟩ := hfit id _ (extent?_of_view hview)
  obtain ⟨bytes, hbuffer, rfl⟩ := exists_buffer_of_extent? hextent
  exact ⟨bytes, hbuffer, hle⟩

theorem viewsFit_empty (o : Options) : (empty o).ViewsFit := by
  intro id extent hextent
  obtain ⟨cell, hcell, -⟩ := extent?_eq_some.mp hextent
  rw [show (empty o).objects.get? id.cell = none from Arena.get?_empty _ _ _] at hcell
  cases hcell

/-! ## Changes -/

theorem Admits.mono {extent : Extent} (hadmits : h.Admits extent)
    (hkeeps : ∀ id size, h.extent? id = some (.buffer size) → h'.extent? id = some (.buffer size)) :
    h'.Admits extent := by
  cases extent with
  | view buffer offset length =>
    obtain ⟨size, hextent, hle⟩ := hadmits
    exact ⟨size, hkeeps buffer size hextent, hle⟩
  | buffer size => trivial
  | other => trivial

theorem ViewsFit.of_extent? (hfit : h.ViewsFit) (hextent : ∀ id, h'.extent? id = h.extent? id) : h'.ViewsFit :=
  fun id extent hid =>
    (hfit id extent (hextent id ▸ hid)).mono fun buffer _ hbuffer => (hextent buffer).trans hbuffer

theorem ViewsFit.of_objects (hfit : h.ViewsFit) (hobjects : h'.objects = h.objects) : h'.ViewsFit :=
  hfit.of_extent? fun id => by rw [extent?, extent?, hobjects]

theorem get?_objects_newCell (hs : h.Sound) {kind : ObjectKind} (ha : (h.newCell kind).1.Addressable) (id : ObjectId) :
    (h.newCell kind).1.objects.get? id.cell
      = if id = (h.newCell kind).2 then some ⟨#[], kind⟩ else h.objects.get? id.cell := by
  rw [show (h.newCell kind).1.objects.get? id.cell = _ from hs.objects.get?_alloc ha.objects id.cell]
  by_cases heq : id = (h.newCell kind).2
  · exact (if_pos (congrArg ObjectId.cell heq)).trans (if_pos heq).symm
  · exact (if_neg fun hcells => heq (ObjectId.eq_of_cell_eq hcells)).trans (if_neg heq).symm

/-- A new object that its heap admits. Its handle was not live, so it takes no buffer away. -/
theorem ViewsFit.newCell (hfit : h.ViewsFit) (hs : h.Sound) {kind : ObjectKind} (hadmits : h.Admits kind.extent)
    (ha : (h.newCell kind).1.Addressable) : (h.newCell kind).1.ViewsFit := by
  have hnew : h.extent? (h.newCell kind).2 = none :=
    congrArg (Option.map _) (hs.objects.get?_alloc_id ha.objects)
  have hget (id : ObjectId) : (h.newCell kind).1.extent? id
      = if id = (h.newCell kind).2 then some kind.extent else h.extent? id := by
    rw [extent?, get?_objects_newCell hs ha]
    split <;> rfl
  have hkeeps (id : ObjectId) (size : Nat) (hextent : h.extent? id = some (.buffer size)) :
      (h.newCell kind).1.extent? id = some (.buffer size) := by
    rw [hget, if_neg, hextent]
    rintro rfl
    rw [hnew] at hextent
    cases hextent
  intro id extent hextent
  rw [hget] at hextent
  split at hextent
  · obtain rfl := Option.some.inj hextent
    exact hadmits.mono hkeeps
  · exact (hfit id extent hextent).mono hkeeps

theorem extent?_modifyCell {f : ObjectCell → ObjectCell} (hf : ∀ cell, (f cell).kind.extent = cell.kind.extent)
    (id id' : ObjectId) : (h.modifyCell id f).extent? id' = h.extent? id' := by
  rw [extent?, get?_modifyCell]
  split
  · rename_i heq
    rw [extent?, heq]
    cases h.objects.get? id.cell with
    | none => rfl
    | some cell => exact congrArg some (hf cell)
  · rfl

theorem ViewsFit.modifyCell (hfit : h.ViewsFit) {f : ObjectCell → ObjectCell}
    (hf : ∀ cell, (f cell).kind.extent = cell.kind.extent) (id : ObjectId) : (h.modifyCell id f).ViewsFit :=
  hfit.of_extent? (extent?_modifyCell hf id)

theorem ViewsFit.set (hfit : h.ViewsFit) (id : ObjectId) (key v : Value) : (leftBy (h.set id key v)).ViewsFit := by
  unfold Heap.set
  split
  · exact hfit
  · split
    · exact hfit
    · exact hfit.of_objects rfl
    · unfold addProperty
      refine ViewsFit.modifyCell (hfit.of_objects rfl) (fun cell => ?_) id
      rfl

theorem ViewsFit.delete (hfit : h.ViewsFit) (id : ObjectId) (key : Value) : (leftBy (h.delete id key)).ViewsFit := by
  unfold Heap.delete
  split
  · exact hfit
  · split
    · exact hfit
    · exact hfit
    · refine hfit.modifyCell (fun cell => ?_) id
      rfl

theorem ViewsFit.modifyItems (hfit : h.ViewsFit) (id : ObjectId) (f : Array Value → Array Value) :
    (leftBy (h.modifyItems id f)).ViewsFit := by
  unfold Heap.modifyItems
  split
  · refine hfit.modifyCell (fun cell => ?_) id
    obtain ⟨properties, kind⟩ := cell
    cases kind <;> rfl
  · exact hfit
  · exact hfit

theorem ViewsFit.setByte (hfit : h.ViewsFit) (id : ObjectId) (index shown : Nat) (b : UInt8) :
    (leftBy (h.setByte id index shown b)).ViewsFit := by
  unfold Heap.setByte
  split
  · split
    · refine hfit.modifyCell (fun cell => ?_) id
      obtain ⟨properties, kind⟩ := cell
      cases kind <;> rfl
    · exact hfit
  · exact hfit

theorem ViewsFit.storeString (hfit : h.ViewsFit) (store : EStateM Error StringHeap Value) :
    (leftBy (h.storeString store)).ViewsFit := by
  unfold Heap.storeString
  split <;> exact hfit.of_objects rfl

theorem ViewsFit.lendString (hfit : h.ViewsFit) (lender : Lender) (bytes : List UInt8) :
    (leftBy (h.lendString lender bytes)).ViewsFit := by
  unfold Heap.lendString
  split <;> exact hfit.of_objects rfl

/-! ## Collections -/

variable {roots : List Value} {moves : StringHeap.Relocation}

theorem extent_relocateCell (cell : ObjectCell) : (relocateCell moves cell).kind.extent = cell.kind.extent := by
  obtain ⟨properties, kind⟩ := cell
  cases kind <;> rfl

/-- A view that a collection keeps was reached, so its buffer was, and that is kept as well. -/
theorem ViewsFit.kept (hfit : h.ViewsFit) (hk : Kept h roots h' moves) : h'.ViewsFit := by
  intro id extent hextent
  obtain ⟨cell', hcell', rfl⟩ := extent?_eq_some.mp hextent
  obtain ⟨cell, hcell, ⟨v, hv, hid⟩, rfl⟩ := (hk.object_iff _ _).mp hcell'
  rw [extent_relocateCell]
  have hadmits : h.Admits cell.kind.extent := hfit id _ (extent?_eq_some.mpr ⟨cell, hcell, rfl⟩)
  obtain ⟨properties, kind⟩ := cell
  cases kind with
  | view buffer offset length =>
    obtain ⟨size, hbuffer, hle⟩ := hadmits
    obtain ⟨cell₀, hcell₀, hsize⟩ := extent?_eq_some.mp hbuffer
    have hreach : h.Reaches roots (.arrayBuffer buffer) :=
      .held hv (cellOf?_eq_some.mpr ⟨id, hid, hcell⟩) (List.mem_append_left _ (List.mem_singleton_self _))
    have hkept := (hk.object_iff buffer.cell _).mpr ⟨cell₀, hcell₀, ⟨_, hreach, rfl⟩, rfl⟩
    exact ⟨size, extent?_eq_some.mpr ⟨_, hkept, (extent_relocateCell cell₀).trans hsize⟩, hle⟩
  | _ => trivial

theorem ViewsFit.collect (hfit : h.ViewsFit) (hs : h.Sound) (hu : h.Unmarked) (roots : List Value) (full : Bool)
    (slack : Nat) : (h.collect roots full slack).1.ViewsFit :=
  hfit.kept (kept_collect hs hu roots full slack)

end Heap

end ScriptEngine
