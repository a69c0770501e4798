import Mathlib.Algebra.BigOperators.Group.Finset.Basic
import ScriptEngine.Heap.Collect
import ScriptEngine.Proofs.Heap.Arena
import ScriptEngine.Proofs.Heap.Records
/-!
Reachability, and the marks that a collection makes.

`Heap.Reaches` is reachability from root values: through array items, property names and values, and
the buffers of views. `Marking` is the invariant of the worklist: what is marked is reached, and what is
reached is marked or still to be looked at. It holds of the start and is kept by every round, and when
nothing is left to be looked at, marks and reachability agree (`marked_markAll`). The limit of the
rounds is never met, because an object puts what it holds on the list once (`unlookedAt`).
-/

namespace ScriptEngine

theorem ObjectId.eq_of_cell_eq {id id' : ObjectId} (hcells : id.cell = id'.cell) : id = id' := by
  cases id
  cases id'
  exact congrArg ObjectId.mk hcells

/-- The cell that a value is a handle of. -/
def Value.cellId? : Value → Option ObjectId
  | object id | array id | arrayBuffer id | dataView id => some id
  | _ => none

/-- The record of the string heap that a value is. -/
def Value.offset? : Value → Option Nat
  | string (.owned offset) => some offset.val
  | _ => none

/-- The values that an object holds besides its properties. -/
def ObjectKind.values : ObjectKind → List Value
  | array items => items.toList
  | view id _ _ => [.arrayBuffer id]
  | plain | buffer _ => []

namespace Heap

/-- The names and values of properties. -/
def propertyValues (h : Heap) (ids : List PropertyId) : List Value :=
  ids.flatMap fun id =>
    match h.properties.get? id.cell with
    | some p => [p.name, p.value]
    | none => []

/-- The values that an object holds. -/
def heldBy (h : Heap) (cell : ObjectCell) : List Value :=
  cell.kind.values ++ h.propertyValues cell.properties.toList

/-- The object that a value is a live handle of. -/
def cellOf? (h : Heap) (v : Value) : Option ObjectCell :=
  v.cellId?.bind fun id => h.objects.get? id.cell

/-- The values that can be reached from the roots. -/
inductive Reaches (h : Heap) (roots : List Value) : Value → Prop where
  | root {v : Value} : v ∈ roots → Reaches h roots v
  | held {v w : Value} {cell : ObjectCell} :
      Reaches h roots v → h.cellOf? v = some cell → w ∈ h.heldBy cell → Reaches h roots w

/-- What every heap keeps to: live objects have live properties, and no two the same. -/
structure Sound (h : Heap) : Prop where
  objects : h.objects.Sound
  properties : h.properties.Sound
  signatures : h.signatures.Sound
  live : ∀ id cell, h.objects.get? id = some cell →
    ∀ p ∈ cell.properties.toList, (h.properties.get? p.cell).isSome
  nodup : ∀ id cell, h.objects.get? id = some cell → cell.properties.toList.Nodup
  disjoint : ∀ id id' cell cell' p, h.objects.get? id = some cell → h.objects.get? id' = some cell' →
    p ∈ cell.properties.toList → p ∈ cell'.properties.toList → id = id'

theorem Sound.owner_eq {h : Heap} (hs : h.Sound) {id id' : ObjectId} {cell cell' : ObjectCell} {p : PropertyId}
    (hcell : h.objects.get? id.cell = some cell) (hcell' : h.objects.get? id'.cell = some cell')
    (hp : p ∈ cell.properties.toList) (hp' : p ∈ cell'.properties.toList) : id = id' :=
  ObjectId.eq_of_cell_eq (hs.disjoint _ _ _ _ p hcell hcell' hp hp')

/-- Between collections nothing is marked. -/
structure Unmarked (h : Heap) : Prop where
  objects : h.objects.Unmarked
  properties : h.properties.Unmarked
  signatures : h.signatures.Unmarked

/-! ## Rounds -/

theorem held_eq (work : List Value) (kind : ObjectKind) :
    ObjectKind.held work kind = kind.values.reverse ++ work := by
  cases kind with
  | array items =>
    show items.foldl (fun work v => v :: work) work = _
    rw [← Array.foldl_toList, List.foldl_flip_cons_eq_append']
    rfl
  | plain => rfl
  | buffer bytes => rfl
  | view buffer offset length => rfl

/-- Properties that are live, distinct and not marked yet are all marked. -/
theorem markProperties_eq {h : Heap} (hs : h.properties.Sound) (work : List Value)
    {ids : List PropertyId} (hlive : ∀ id ∈ ids, (h.properties.get? id.cell).isSome)
    (hfresh : ∀ id ∈ ids, h.properties.isMarked id.cell.index.toNat = false) (hnodup : ids.Nodup) :
    ∃ properties : Arena Property, h.properties.Remarked properties ∧
      (∀ slot, properties.isMarked slot = true ↔
        h.properties.isMarked slot = true ∨ ∃ id ∈ ids, slot = id.cell.index.toNat) ∧
      h.markProperties work ids
        = ({ h with properties := properties }, (h.propertyValues ids).reverse ++ work) := by
  induction ids generalizing h work with
  | nil =>
    refine ⟨h.properties, Arena.Remarked.refl _, fun slot => by simp, rfl⟩
  | cons id rest ih =>
    obtain ⟨hnot, hnodup⟩ := List.nodup_cons.1 hnodup
    have hmark := Arena.remarked_mark h.properties id.cell
    have hlive' := hlive id (by simp)
    have hsnd : (h.properties.mark id.cell).2 = true := by
      rw [Arena.snd_mark, hlive', hfresh id (by simp)]
      rfl
    obtain ⟨p, hp⟩ := Option.isSome_iff_exists.1 hlive'
    have hget : (h.properties.mark id.cell).1.get? id.cell = some p := by
      rw [hmark.get?, hp]
    let h' : Heap := { h with properties := (h.properties.mark id.cell).1 }
    have hslots : ∀ slot, h'.properties.isMarked slot = true ↔
        h.properties.isMarked slot = true ∨ slot = id.cell.index.toNat := by
      intro slot
      show (h.properties.mark id.cell).1.isMarked slot = true ↔ _
      rw [hs.isMarked_mark, hlive']
      simp
    have hvalues : h'.propertyValues rest = h.propertyValues rest := by
      unfold propertyValues
      have : ∀ id, h'.properties.get? id = h.properties.get? id := hmark.get?
      simp only [this]
    obtain ⟨properties, hremarked, hmarked, heq⟩ := ih (h := h') (hmark.sound hs)
      (p.value :: p.name :: work)
      (fun id hid => by
        show ((h.properties.mark _).1.get? id.cell).isSome
        rw [hmark.get?]
        exact hlive id (by simp [hid]))
      (fun id' hid' => by
        rw [← Bool.not_eq_true, hslots]
        rintro (h1 | h1)
        · rw [hfresh id' (by simp [hid'])] at h1
          simp at h1
        · obtain ⟨p', hp'⟩ := Option.isSome_iff_exists.1 (hlive id' (by simp [hid']))
          have := Arena.eq_of_index_eq hp' hp (UInt32.toNat_inj.1 h1)
          have heq : id' = id := by
            cases id; cases id'
            simp_all
          exact hnot (heq ▸ hid'))
      hnodup
    refine ⟨properties, hmark.trans hremarked, fun slot => ?_, ?_⟩
    · rw [hmarked, hslots]
      simp [or_assoc]
    · have hfst : h.propertyValues (id :: rest) = [p.name, p.value] ++ h.propertyValues rest := by
        simp [propertyValues, hp]
      rw [markProperties]
      simp only [hsnd, if_true, hget]
      rw [heq, hvalues, hfst]
      simp [h']

/-- A marked object's handle is passed over. -/
theorem markObject_of_marked {h : Heap} (work : List Value) {id : ObjectId}
    (hskip : (h.objects.get? id.cell).isSome = false ∨
      h.objects.isMarked id.cell.index.toNat = true) :
    h.markObject work id = (h, work) := by
  have hsnd : (h.objects.mark id.cell).2 = false := by
    rw [Arena.snd_mark]
    rcases hskip with hskip | hskip <;> simp [hskip]
  have hfst : (h.objects.mark id.cell).1 = h.objects := by
    unfold Arena.mark at hsnd ⊢
    simp only at hsnd ⊢
    split
    · rename_i hcond
      simp [hcond] at hsnd
    · rfl
  unfold markObject
  simp only [hsnd, hfst]
  rfl

/-- One round: looks at a value. -/
def look (h : Heap) (offsets : List Nat) (work : List Value) (v : Value) :
    Heap × List Nat × List Value :=
  match v with
  | .string (.owned offset) => (h, offset.val :: offsets, work)
  | .object id | .array id | .arrayBuffer id | .dataView id =>
    ((h.markObject work id).1, offsets, (h.markObject work id).2)
  | .signature id => ({ h with signatures := (h.signatures.mark id.cell).1 }, offsets, work)
  | _ => (h, offsets, work)

theorem markAll_cons (h : Heap) (offsets : List Nat) (v : Value) (work : List Value) (limit : Nat) :
    h.markAll offsets (v :: work) (limit + 1)
      = (h.look offsets work v).1.markAll (h.look offsets work v).2.1 (h.look offsets work v).2.2 limit := by
  cases v with
  | string s => cases s <;> rfl
  | _ => rfl

theorem look_of_cellId {v : Value} {id : ObjectId} (hv : v.cellId? = some id) (h : Heap)
    (offsets : List Nat) (work : List Value) :
    h.look offsets work v = ((h.markObject work id).1, offsets, (h.markObject work id).2) := by
  cases v <;> simp [Value.cellId?] at hv <;> subst hv <;> rfl

/-! ## The invariant of the worklist -/

/-- A value has been looked at: what it is a live handle of is marked, and its record is noted. -/
structure Done (h₀ h : Heap) (offsets : List Nat) (v : Value) : Prop where
  object : ∀ id, v.cellId? = some id → (h₀.objects.get? id.cell).isSome →
    h.objects.isMarked id.cell.index.toNat = true
  signature : ∀ id, v = .signature id → (h₀.signatures.get? id.cell).isSome →
    h.signatures.isMarked id.cell.index.toNat = true
  record : ∀ offset, v.offset? = some offset → offset ∈ offsets

/-- Between two rounds: `h₀` is the heap at the start and `h` the one with the marks so far. -/
structure Marking (h₀ : Heap) (roots : List Value) (h : Heap) (offsets : List Nat)
    (work : List Value) : Prop where
  objects : h₀.objects.Remarked h.objects
  properties : h₀.properties.Remarked h.properties
  signatures : h₀.signatures.Remarked h.signatures
  strings : h.strings = h₀.strings
  /-- What is to be looked at and what is marked is reached. -/
  work_reached : ∀ v ∈ work, h₀.Reaches roots v
  objects_reached : ∀ id cell, h₀.objects.get? id.cell = some cell →
    h.objects.isMarked id.cell.index.toNat = true → ∃ v, h₀.Reaches roots v ∧ v.cellId? = some id
  signatures_reached : ∀ id f, h₀.signatures.get? id.cell = some f →
    h.signatures.isMarked id.cell.index.toNat = true → h₀.Reaches roots (.signature id)
  offsets_reached : ∀ offset ∈ offsets, ∃ v, h₀.Reaches roots v ∧ v.offset? = some offset
  /-- A property is marked with its object. -/
  properties_marked : ∀ p prop, h₀.properties.get? p.cell = some prop →
    (h.properties.isMarked p.cell.index.toNat = true ↔
      ∃ id cell, h₀.objects.get? id = some cell ∧ h.objects.isMarked id.index.toNat = true ∧
        p ∈ cell.properties.toList)
  /-- What is reached in one step from the roots or from a marked object is on the list or done. -/
  roots_covered : ∀ v ∈ roots, v ∈ work ∨ Done h₀ h offsets v
  held_covered : ∀ id cell, h₀.objects.get? id = some cell →
    h.objects.isMarked id.index.toNat = true → ∀ v ∈ h₀.heldBy cell, v ∈ work ∨ Done h₀ h offsets v

theorem marking_start {h : Heap} (hu : h.Unmarked) (roots : List Value) :
    Marking h roots h [] roots := by
  refine ⟨.refl _, .refl _, .refl _, rfl, fun v hv => .root hv, ?_, ?_, by simp, ?_,
    fun v hv => .inl hv, ?_⟩
  · intro id cell _ hm
    simp [hu.objects _] at hm
  · intro id f _ hm
    simp [hu.signatures _] at hm
  · intro p prop _
    constructor
    · intro hm
      simp [hu.properties _] at hm
    · rintro ⟨id, cell, -, hm, -⟩
      simp [hu.objects _] at hm
  · intro id cell _ hm
    simp [hu.objects _] at hm

section Rounds

variable {h₀ h : Heap} {roots work : List Value} {offsets : List Nat} {v : Value}

/-- A value that is done can go from the list. -/
theorem Marking.drop (hm : Marking h₀ roots h offsets (v :: work)) (hdone : Done h₀ h offsets v) :
    Marking h₀ roots h offsets work := by
  have hcover : ∀ w, w ∈ v :: work ∨ Done h₀ h offsets w → w ∈ work ∨ Done h₀ h offsets w := by
    intro w hw
    rcases hw with hw | hw
    · rcases List.mem_cons.1 hw with rfl | hw
      · exact .inr hdone
      · exact .inl hw
    · exact .inr hw
  exact { hm with
    work_reached := fun w hw => hm.work_reached w (by simp [hw])
    roots_covered := fun w hw => hcover w (hm.roots_covered w hw)
    held_covered := fun id cell hid hmarked w hw => hcover w (hm.held_covered id cell hid hmarked w hw) }

/-- A record is noted. -/
theorem Marking.note (hm : Marking h₀ roots h offsets (v :: work)) {offset : Nat}
    (hv : v.offset? = some offset) : Marking h₀ roots h (offset :: offsets) work := by
  have hgrow : ∀ w, Done h₀ h offsets w → Done h₀ h (offset :: offsets) w := fun w hw =>
    ⟨hw.object, hw.signature, fun o ho => List.mem_cons_of_mem _ (hw.record o ho)⟩
  have hstep : Marking h₀ roots h (offset :: offsets) (v :: work) :=
    { hm with
      offsets_reached := by
        intro o ho
        rcases List.mem_cons.1 ho with rfl | ho
        · exact ⟨v, hm.work_reached v (by simp), hv⟩
        · exact hm.offsets_reached o ho
      roots_covered := fun w hw => (hm.roots_covered w hw).imp_right (hgrow w)
      held_covered := fun id cell hid hmarked w hw =>
        (hm.held_covered id cell hid hmarked w hw).imp_right (hgrow w) }
  refine hstep.drop ⟨?_, ?_, ?_⟩
  · intro id hid
    cases v <;> simp_all [Value.offset?, Value.cellId?]
  · rintro id rfl
    simp [Value.offset?] at hv
  · intro o ho
    rw [hv, Option.some.injEq] at ho
    simp [ho]

/-- A foreign function is marked. -/
theorem Marking.markSignature (hs : h₀.Sound) {id : SignatureId}
    (hm : Marking h₀ roots h offsets (.signature id :: work)) :
    Marking h₀ roots { h with signatures := (h.signatures.mark id.cell).1 } offsets work := by
  have hsound := hm.signatures.sound hs.signatures
  have hmarked : ∀ slot, (h.signatures.mark id.cell).1.isMarked slot = true ↔
      h.signatures.isMarked slot = true ∨
        (h₀.signatures.get? id.cell).isSome = true ∧ slot = id.cell.index.toNat := by
    intro slot
    rw [hsound.isMarked_mark, hm.signatures.get?]
    simp
  have hgrow : ∀ w, Done h₀ h offsets w →
      Done h₀ { h with signatures := (h.signatures.mark id.cell).1 } offsets w := fun w hw =>
    ⟨hw.object, fun id' hid' hlive => (hmarked _).2 (.inl (hw.signature id' hid' hlive)), hw.record⟩
  have hstep : Marking h₀ roots { h with signatures := (h.signatures.mark id.cell).1 } offsets
      (.signature id :: work) :=
    { hm with
      signatures := hm.signatures.trans (Arena.remarked_mark _ _)
      signatures_reached := by
        intro id' f hf hslot
        rcases (hmarked _).1 hslot with hslot | ⟨hlive, hslot⟩
        · exact hm.signatures_reached id' f hf hslot
        · obtain ⟨f', hf'⟩ := Option.isSome_iff_exists.1 hlive
          have hid : id'.cell = id.cell := Arena.eq_of_index_eq hf hf' (UInt32.toNat_inj.1 hslot)
          have : id' = id := by
            cases id; cases id'
            simp_all
          exact this ▸ hm.work_reached _ (by simp)
      roots_covered := fun w hw => (hm.roots_covered w hw).imp_right (hgrow w)
      held_covered := fun id' cell hid hmarked w hw =>
        (hm.held_covered id' cell hid hmarked w hw).imp_right (hgrow w) }
  refine hstep.drop ⟨fun id' hid' => by simp [Value.cellId?] at hid', ?_, fun o ho => by
    simp [Value.offset?] at ho⟩
  intro id' hid' hlive
  have : id = id' := by simpa using hid'
  subst this
  exact (hmarked _).2 (.inr ⟨hlive, rfl⟩)

theorem propertyValues_congr {h h' : Heap} (hremarked : h.properties.Remarked h'.properties)
    (ids : List PropertyId) : h'.propertyValues ids = h.propertyValues ids := by
  unfold propertyValues
  simp only [hremarked.get?]

/-- A live object that is not marked yet is marked with its properties, and what it holds goes on the
list. -/
theorem Marking.markObject (hs : h₀.Sound) (hm : Marking h₀ roots h offsets (v :: work)) {id : ObjectId}
    {cell : ObjectCell} (hv : v.cellId? = some id) (hcell : h₀.objects.get? id.cell = some cell)
    (hfresh : h.objects.isMarked id.cell.index.toNat = false) :
    ∃ h', h.markObject work id = (h', (h₀.heldBy cell).reverse ++ work) ∧
      Marking h₀ roots h' offsets ((h₀.heldBy cell).reverse ++ work) ∧
      ∀ slot, h'.objects.isMarked slot = true ↔
        h.objects.isMarked slot = true ∨ slot = id.cell.index.toNat := by
  have hobjects := hm.objects.sound hs.objects
  have hlive : (h.objects.get? id.cell).isSome = true := by
    rw [hm.objects.get?, hcell]
    rfl
  have hsnd : (h.objects.mark id.cell).2 = true := by
    rw [Arena.snd_mark, hlive, hfresh]
    rfl
  have hremark := Arena.remarked_mark h.objects id.cell
  have hget : (h.objects.mark id.cell).1.get? id.cell = some cell := by
    rw [hremark.get?, hm.objects.get?, hcell]
  have hslots : ∀ slot, (h.objects.mark id.cell).1.isMarked slot = true ↔
      h.objects.isMarked slot = true ∨ slot = id.cell.index.toNat := by
    intro slot
    rw [hobjects.isMarked_mark, hlive]
    simp
  -- A property of the object is marked with this object only.
  have hunmarked : ∀ p ∈ cell.properties.toList, h.properties.isMarked p.cell.index.toNat = false := by
    intro p hp
    obtain ⟨prop, hprop⟩ := Option.isSome_iff_exists.1 (hs.live _ _ hcell p hp)
    rw [← Bool.not_eq_true, hm.properties_marked p prop hprop]
    rintro ⟨id', cell', hid', hmarked, hmem⟩
    rw [hs.disjoint _ _ _ _ p hid' hcell hmem hp, hfresh] at hmarked
    simp at hmarked
  obtain ⟨properties, hremarked, hmarked, heq⟩ :=
    markProperties_eq (h := { h with objects := (h.objects.mark id.cell).1 })
      (hm.properties.sound hs.properties) (ObjectKind.held work cell.kind)
      (fun p hp => by
        show (h.properties.get? p.cell).isSome = true
        rw [hm.properties.get?]
        exact hs.live _ _ hcell p hp)
      hunmarked (hs.nodup _ _ hcell)
  have hvalues : (h.propertyValues cell.properties.toList).reverse
      ++ (cell.kind.values.reverse ++ work) = (h₀.heldBy cell).reverse ++ work := by
    rw [propertyValues_congr hm.properties, heldBy, List.reverse_append, List.append_assoc]
  let h' : Heap := { h with objects := (h.objects.mark id.cell).1, properties := properties }
  have hdo : h.markObject work id = (h', (h₀.heldBy cell).reverse ++ work) := by
    unfold Heap.markObject
    simp only [hsnd, if_true, hget]
    rw [heq, held_eq, ← hvalues]
    rfl
  refine ⟨h', hdo, ?_, hslots⟩
  have hgrow : ∀ w, Done h₀ h offsets w → Done h₀ h' offsets w := fun w hw =>
    ⟨fun id' hid' hl => (hslots _).2 (.inl (hw.object id' hid' hl)), hw.signature, hw.record⟩
  have hreached : h₀.Reaches roots v := hm.work_reached v (by simp)
  have hof : h₀.cellOf? v = some cell := by
    rw [cellOf?, hv]
    exact hcell
  have hvdone : Done h₀ h' offsets v := by
    refine ⟨fun id' hid' _ => ?_, ?_, ?_⟩
    · rw [hv, Option.some.injEq] at hid'
      subst hid'
      exact (hslots _).2 (.inr rfl)
    · rintro id' rfl
      simp [Value.cellId?] at hv
    · intro o ho
      cases v <;> simp_all [Value.offset?, Value.cellId?]
  have hcover : ∀ w, w ∈ v :: work ∨ Done h₀ h offsets w →
      w ∈ (h₀.heldBy cell).reverse ++ work ∨ Done h₀ h' offsets w := by
    rintro w (hw | hw)
    · rcases List.mem_cons.1 hw with rfl | hw
      · exact .inr hvdone
      · exact .inl (by simp [hw])
    · exact .inr (hgrow w hw)
  -- The marked objects are those of before and this one.
  have hobject : ∀ id' cell', h₀.objects.get? id' = some cell' →
      h'.objects.isMarked id'.index.toNat = true →
      h.objects.isMarked id'.index.toNat = true ∨ id' = id.cell := by
    intro id' cell' hid' hslot
    rcases (hslots _).1 hslot with hslot | hslot
    · exact .inl hslot
    · exact .inr (Arena.eq_of_index_eq hid' hcell (UInt32.toNat_inj.1 hslot))
  refine ⟨hm.objects.trans hremark, hm.properties.trans hremarked, hm.signatures, hm.strings, ?_, ?_,
    hm.signatures_reached, hm.offsets_reached, ?_, fun w hw => hcover w (hm.roots_covered w hw), ?_⟩
  · intro w hw
    rcases List.mem_append.1 hw with hw | hw
    · exact .held hreached hof (List.mem_reverse.1 hw)
    · exact hm.work_reached w (by simp [hw])
  · intro id' cell' hid' hslot
    rcases hobject _ _ hid' hslot with hslot | hsame
    · exact hm.objects_reached id' cell' hid' hslot
    · have : id' = id := by
        cases id; cases id'
        simp_all
      exact ⟨v, hreached, this ▸ hv⟩
  · intro p prop hp
    rw [show h'.properties.isMarked p.cell.index.toNat = true ↔ _ from hmarked _,
      show h.properties.isMarked p.cell.index.toNat = true ↔ _ from hm.properties_marked p prop hp]
    constructor
    · rintro (⟨id', cell', hid', hslot, hmem⟩ | ⟨p', hp', hindex⟩)
      · exact ⟨id', cell', hid', (hslots _).2 (.inl hslot), hmem⟩
      · obtain ⟨prop', hprop'⟩ := Option.isSome_iff_exists.1 (hs.live _ _ hcell p' hp')
        have hsame := Arena.eq_of_index_eq hp hprop' (UInt32.toNat_inj.1 hindex)
        have : p = p' := by
          cases p; cases p'
          simp_all
        exact ⟨id.cell, cell, hcell, (hslots _).2 (.inr rfl), this ▸ hp'⟩
    · rintro ⟨id', cell', hid', hslot, hmem⟩
      rcases hobject _ _ hid' hslot with hslot | rfl
      · exact .inl ⟨id', cell', hid', hslot, hmem⟩
      · have : cell' = cell := by
          rw [hid', Option.some.injEq] at hcell
          exact hcell
        exact .inr ⟨p, this ▸ hmem, rfl⟩
  · intro id' cell' hid' hslot w hw
    rcases hobject _ _ hid' hslot with hslot | rfl
    · exact hcover w (hm.held_covered id' cell' hid' hslot w hw)
    · have : cell' = cell := by
        rw [hid', Option.some.injEq] at hcell
        exact hcell
      exact .inl (by simp [← this, hw])

/-- A round keeps the invariant. -/
theorem Marking.look (hs : h₀.Sound) (hm : Marking h₀ roots h offsets (v :: work)) :
    Marking h₀ roots (h.look offsets work v).1 (h.look offsets work v).2.1 (h.look offsets work v).2.2 := by
  cases hid : v.cellId? with
  | some id =>
    rw [look_of_cellId hid]
    by_cases hskip : (h.objects.get? id.cell).isSome = false ∨
        h.objects.isMarked id.cell.index.toNat = true
    · rw [markObject_of_marked work hskip]
      refine hm.drop ⟨fun id' hid' hlive => ?_, ?_, ?_⟩
      · rw [hid, Option.some.injEq] at hid'
        subst hid'
        rcases hskip with hskip | hskip
        · rw [hm.objects.get?, hlive] at hskip
          simp at hskip
        · exact hskip
      · rintro id' rfl
        simp [Value.cellId?] at hid
      · intro o ho
        cases v <;> simp_all [Value.offset?, Value.cellId?]
    · simp only [not_or, Bool.not_eq_false, Bool.not_eq_true, hm.objects.get?] at hskip
      obtain ⟨cell, hcell⟩ := Option.isSome_iff_exists.1 hskip.1
      obtain ⟨h', heq, hmarking, -⟩ := hm.markObject hs hid hcell hskip.2
      rw [heq]
      exact hmarking
  | none =>
    cases hoffset : v.offset? with
    | some offset =>
      have hlook : h.look offsets work v = (h, offset :: offsets, work) := by
        cases v with
        | string s =>
          cases s <;> simp [Value.offset?] at hoffset
          rw [← hoffset]
          rfl
        | _ => simp [Value.offset?] at hoffset
      rw [hlook]
      exact hm.note hoffset
    | none =>
      cases v with
      | signature id => exact hm.markSignature hs
      | object id => simp [Value.cellId?] at hid
      | array id => simp [Value.cellId?] at hid
      | arrayBuffer id => simp [Value.cellId?] at hid
      | dataView id => simp [Value.cellId?] at hid
      | string s =>
        cases s with
        | owned offset => simp [Value.offset?] at hoffset
        | inline text => exact hm.drop ⟨by simp [hid], by simp, by simp [hoffset]⟩
        | foreign index => exact hm.drop ⟨by simp [hid], by simp, by simp [hoffset]⟩
      | _ => exact hm.drop ⟨by simp [hid], by simp, by simp [hoffset]⟩

end Rounds

/-! ## The limit -/

/-- How many values the cell of a slot can put on the list. -/
def weightAt (objects : Arena ObjectCell) (slot : Nat) : Nat :=
  (objects.cells[slot]?.join.map cellWeight).getD 0

/-- How many values the objects that are not marked can still put on the list. -/
def unlookedAt (objects : Arena ObjectCell) : Nat :=
  ∑ slot ∈ Finset.range objects.cells.size,
    if objects.isMarked slot = true then 0 else weightAt objects slot

theorem length_propertyValues_le (h : Heap) (ids : List PropertyId) :
    (h.propertyValues ids).length ≤ 2 * ids.length := by
  induction ids with
  | nil => simp [propertyValues]
  | cons id rest ih =>
    unfold propertyValues at ih ⊢
    rw [List.flatMap_cons, List.length_append, List.length_cons]
    cases h.properties.get? id.cell with
    | none =>
      simp only [List.length_nil]
      omega
    | some p =>
      simp only [List.length_cons, List.length_nil]
      omega

theorem length_heldBy_le (h : Heap) (cell : ObjectCell) :
    (h.heldBy cell).length ≤ cellWeight cell := by
  have hprops := length_propertyValues_le h cell.properties.toList
  rw [Array.length_toList] at hprops
  unfold heldBy cellWeight
  rw [List.length_append]
  cases cell.kind <;> simp [ObjectKind.values] <;> omega

/-- Marking an object takes its share away. -/
theorem unlookedAt_mark {objects objects' : Arena ObjectCell} (hremarked : objects.Remarked objects')
    {id : CellId} {cell : ObjectCell} (hcell : objects.get? id = some cell)
    (hfresh : objects.isMarked id.index.toNat = false)
    (hslots : ∀ slot, objects'.isMarked slot = true ↔
      objects.isMarked slot = true ∨ slot = id.index.toNat) :
    unlookedAt objects' + cellWeight cell = unlookedAt objects := by
  have hat := (Arena.get?_eq_some.1 hcell).2
  have hlt : id.index.toNat < objects.cells.size := (Array.getElem?_eq_some_iff.1 hat).1
  have hmem : id.index.toNat ∈ Finset.range objects.cells.size := Finset.mem_range.2 hlt
  have hweight : ∀ slot, weightAt objects' slot = weightAt objects slot := by
    intro slot
    rw [weightAt, weightAt, hremarked.cells_eq]
  have hcellWeight : weightAt objects id.index.toNat = cellWeight cell := by
    rw [weightAt, hat]
    rfl
  unfold unlookedAt
  rw [hremarked.cells_eq, ← Finset.add_sum_erase _ _ hmem, ← Finset.add_sum_erase _ _ hmem,
    if_pos ((hslots _).2 (.inr rfl)), if_neg (by simp [hfresh]), hcellWeight, Nat.zero_add, Nat.add_comm]
  congr 1
  refine Finset.sum_congr rfl fun slot hslot => ?_
  have hne := (Finset.mem_erase.1 hslot).1
  rw [hweight]
  have : objects'.isMarked slot = true ↔ objects.isMarked slot = true := by
    rw [hslots]
    simp [hne]
  simp only [this]

section Limit

variable {h₀ h : Heap} {roots work : List Value} {offsets : List Nat} {v : Value}

/-- A round takes one value from what there is to be looked at. -/
theorem Marking.length_look (hs : h₀.Sound) (hm : Marking h₀ roots h offsets (v :: work)) :
    (h.look offsets work v).2.2.length + unlookedAt (h.look offsets work v).1.objects
      ≤ work.length + unlookedAt h.objects := by
  cases hid : v.cellId? with
  | some id =>
    rw [look_of_cellId hid]
    by_cases hskip : (h.objects.get? id.cell).isSome = false ∨
        h.objects.isMarked id.cell.index.toNat = true
    · rw [markObject_of_marked work hskip]
    · simp only [not_or, Bool.not_eq_false, Bool.not_eq_true, hm.objects.get?] at hskip
      obtain ⟨cell, hcell⟩ := Option.isSome_iff_exists.1 hskip.1
      obtain ⟨h', heq, hmarking, hslots⟩ := hm.markObject hs hid hcell hskip.2
      rw [heq]
      have hremarked : h.objects.Remarked h'.objects := by
        refine ⟨?_, by rw [hmarking.objects.2, hm.objects.2]⟩
        rw [hmarking.objects.1, hm.objects.1]
      have hsum := unlookedAt_mark hremarked (by rw [hm.objects.get?]; exact hcell) hskip.2 hslots
      have hlength := length_heldBy_le h₀ cell
      simp only [List.length_append, List.length_reverse]
      omega
  | none =>
    cases v with
    | string s => cases s <;> exact Nat.le_refl _
    | _ => first | exact Nat.le_refl _ | simp [Value.cellId?] at hid

theorem Marking.markAll (hs : h₀.Sound) {limit : Nat} (hm : Marking h₀ roots h offsets work)
    (hlimit : work.length + unlookedAt h.objects < limit) :
    Marking h₀ roots (h.markAll offsets work limit).1 (h.markAll offsets work limit).2 [] := by
  induction limit generalizing h offsets work with
  | zero => omega
  | succ limit ih =>
    cases work with
    | nil => exact hm
    | cons v work =>
      rw [markAll_cons]
      have hlength := hm.length_look hs
      rw [List.length_cons] at hlimit
      exact ih (hm.look hs) (by omega)

theorem foldl_add_eq_sum (cells : List (Option ObjectCell)) :
    cells.foldl (fun n cell => n + (cell.map cellWeight).getD 0) 0
      = ∑ slot ∈ Finset.range cells.length, (cells[slot]?.join.map cellWeight).getD 0 := by
  induction cells using List.reverseRecOn with
  | nil => simp
  | append_singleton cells cell ih =>
    rw [List.foldl_append, ih, List.length_append, List.length_singleton, Finset.sum_range_succ]
    simp only [List.foldl_cons, List.foldl_nil]
    congr 1
    · refine Finset.sum_congr rfl fun slot hslot => ?_
      rw [List.getElem?_append_left (Finset.mem_range.1 hslot)]
    · rw [List.getElem?_concat_length]
      rfl

theorem lt_markLimit {h : Heap} (hu : h.Unmarked) (roots : List Value) :
    roots.length + unlookedAt h.objects < h.markLimit roots := by
  unfold markLimit unlookedAt weightAt
  rw [← Array.foldl_toList, foldl_add_eq_sum]
  simp only [hu.objects _, Bool.false_eq_true, if_false, Array.length_toList, Array.getElem?_toList]
  omega

end Limit

/-! ## What is marked in the end -/

/-- An object can be reached. -/
def ReachesObject (h : Heap) (roots : List Value) (id : ObjectId) : Prop :=
  ∃ v, h.Reaches roots v ∧ v.cellId? = some id

/-- A property of an object that can be reached. -/
def ReachesProperty (h : Heap) (roots : List Value) (p : PropertyId) : Prop :=
  ∃ id cell, h.ReachesObject roots id ∧ h.objects.get? id.cell = some cell ∧
    p ∈ cell.properties.toList

/-- A record can be reached. -/
def ReachesRecord (h : Heap) (roots : List Value) (offset : Nat) : Prop :=
  ∃ v, h.Reaches roots v ∧ v.offset? = some offset

/-- With nothing left to be looked at, everything that is reached is done. -/
theorem Marking.done_of_reaches {h₀ h : Heap} {roots : List Value} {offsets : List Nat} {v : Value}
    (hm : Marking h₀ roots h offsets []) (hv : h₀.Reaches roots v) : Done h₀ h offsets v := by
  induction hv with
  | root hroot => exact (hm.roots_covered _ hroot).resolve_left (by simp)
  | @held v w cell _ hcell hmem ih =>
    cases hid : v.cellId? with
    | none => simp [cellOf?, hid] at hcell
    | some id =>
      rw [cellOf?, hid, Option.bind_some] at hcell
      have hmarked := ih.object id hid (by rw [hcell]; rfl)
      exact (hm.held_covered _ _ hcell hmarked _ hmem).resolve_left (by simp)

/-- Behind marking, exactly what can be reached is marked, and the offsets are those of the records that
can be reached. -/
structure Marked (h₀ : Heap) (roots : List Value) (h : Heap) (offsets : List Nat) : Prop where
  objects : h₀.objects.Remarked h.objects
  properties : h₀.properties.Remarked h.properties
  signatures : h₀.signatures.Remarked h.signatures
  strings : h.strings = h₀.strings
  isMarked_object : ∀ id cell, h₀.objects.get? id.cell = some cell →
    (h.objects.isMarked id.cell.index.toNat = true ↔ h₀.ReachesObject roots id)
  isMarked_property : ∀ p prop, h₀.properties.get? p.cell = some prop →
    (h.properties.isMarked p.cell.index.toNat = true ↔ h₀.ReachesProperty roots p)
  isMarked_signature : ∀ id f, h₀.signatures.get? id.cell = some f →
    (h.signatures.isMarked id.cell.index.toNat = true ↔ h₀.Reaches roots (.signature id))
  mem_offsets : ∀ offset, offset ∈ offsets ↔ h₀.ReachesRecord roots offset

theorem marked_markAll {h : Heap} (hs : h.Sound) (hu : h.Unmarked) (roots : List Value) :
    Marked h roots (h.markAll [] roots (h.markLimit roots)).1
      (h.markAll [] roots (h.markLimit roots)).2 := by
  have hm := (marking_start hu roots).markAll hs (lt_markLimit hu roots)
  have hobject : ∀ id cell, h.objects.get? id.cell = some cell →
      ((h.markAll [] roots (h.markLimit roots)).1.objects.isMarked id.cell.index.toNat = true ↔
        h.ReachesObject roots id) := by
    intro id cell hcell
    constructor
    · exact hm.objects_reached id cell hcell
    · rintro ⟨v, hv, hid⟩
      exact (hm.done_of_reaches hv).object id hid (by rw [hcell]; rfl)
  refine ⟨hm.objects, hm.properties, hm.signatures, hm.strings, hobject, ?_, ?_, ?_⟩
  · intro p prop hp
    rw [hm.properties_marked p prop hp]
    constructor
    · rintro ⟨id, cell, hcell, hmarked, hmem⟩
      exact ⟨⟨id⟩, cell, (hobject ⟨id⟩ cell hcell).1 hmarked, hcell, hmem⟩
    · rintro ⟨id, cell, hreach, hcell, hmem⟩
      exact ⟨id.cell, cell, hcell, (hobject id cell hcell).2 hreach, hmem⟩
  · intro id f hf
    constructor
    · exact hm.signatures_reached id f hf
    · intro hreach
      exact (hm.done_of_reaches hreach).signature id rfl (by rw [hf]; rfl)
  · intro offset
    constructor
    · exact hm.offsets_reached offset
    · rintro ⟨v, hv, hoffset⟩
      exact (hm.done_of_reaches hv).record offset hoffset

end Heap

end ScriptEngine
