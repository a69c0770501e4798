import Mathlib.Data.List.Find
import ScriptEngine.Proofs.Heap.Preservation
import ScriptEngine.Proofs.Machine.Inhibition
/-!
What objects hold under names.

In a heap in order the look-up of an object's own property never fails, and finds the first property of that name
(`Sound.getOwn_eq`). Setting a property changes what one object holds under one name, and nothing else
(`Sound.getOwn_set`). Every other change `Spares` what an object holds under a name: it stays there
(`Stores.spared`), also while texts are added, and a collection only moves it (`Stores.collected`).
-/

namespace ScriptEngine

/-! ## Texts that stay -/

namespace Varint

theorem decodeGroupsAt_mono {f g : Nat → Option UInt8} (hfg : ∀ i b, f i = some b → g i = some b) {groups : Nat}
    {pos : Nat} {found : Nat × Nat} (h : decodeGroupsAt f pos groups = some found) :
    decodeGroupsAt g pos groups = some found := by
  induction groups generalizing pos found with
  | zero => cases h
  | succ groups ih =>
    unfold decodeGroupsAt at h ⊢
    cases hb : f pos with
    | none =>
      rw [hb] at h
      cases h
    | some b =>
      rw [hb] at h
      rw [hfg pos b hb]
      dsimp only at h ⊢
      split_ifs at h ⊢ with hsmall
      · exact h
      · obtain ⟨rest, hrest, heq⟩ := Option.map_eq_some_iff.mp h
        rw [ih hrest, Option.map_some, heq]

end Varint

namespace StringHeap

/-- More texts, behind those that were there. -/
structure Extends (s t : StringHeap) : Prop where
  data : s.data.data.toList <+: t.data.data.toList
  borrowed : s.borrowed.toList <+: t.borrowed.toList

/-- Whether a value that is a text refers to one that is there. -/
def isReadable (s : StringHeap) : Value → Bool
  | .string (.owned offset) => (s.span? offset.val).isSome
  | .string (.foreign index) => index.val < s.borrowed.size
  | _ => true

variable {s t u : StringHeap} {v : Value}

theorem Extends.refl (s : StringHeap) : s.Extends s :=
  ⟨List.prefix_rfl, List.prefix_rfl⟩

theorem Extends.span? (h : s.Extends t) {offset : Nat} {span : Nat × Nat} (hspan : s.span? offset = some span) :
    t.span? offset = some span := by
  have hbyte (i : Nat) (b : UInt8) (hb : Buffer.byte? s.data i = some b) : Buffer.byte? t.data i = some b := by
    rw [Buffer.byte?_eq] at hb ⊢
    obtain ⟨rest, hrest⟩ := h.data
    rw [← hrest, List.getElem?_append_left (List.getElem?_eq_some_iff.mp hb).1, hb]
  have hsize : s.data.size ≤ t.data.size := h.data.length_le
  unfold StringHeap.span? at hspan ⊢
  split at hspan
  · rename_i length used hdecode
    obtain ⟨found, hgroups, hfound⟩ := Option.map_eq_some_iff.mp hdecode
    have hdecode' : Varint.decodeAt (Buffer.byte? t.data) offset = some (length, used) := by
      rw [Varint.decodeAt, Varint.decodeGroupsAt_mono hbyte hgroups, Option.map_some, hfound]
    split_ifs at hspan with hroom
    simp only [hdecode', if_pos (Nat.le_trans hroom hsize), hspan]
  · cases hspan

theorem Extends.isReadable (h : s.Extends t) (hv : s.isReadable v = true) : t.isReadable v = true := by
  unfold StringHeap.isReadable at hv ⊢
  split
  · obtain ⟨span, hspan⟩ := Option.isSome_iff_exists.mp hv
    rw [h.span? hspan]
    rfl
  · rw [decide_eq_true_eq] at hv ⊢
    have hsize := h.borrowed.length_le
    rw [Array.length_toList, Array.length_toList] at hsize
    exact Nat.lt_of_lt_of_le hv hsize
  · rfl

/-- A text that is there stays the text that it is. -/
theorem Extends.text? (h : s.Extends t) (hv : s.isReadable v = true) : t.text? v = s.text? v := by
  unfold StringHeap.isReadable at hv
  split at hv
  · rename_i offset
    obtain ⟨⟨start, length⟩, hspan⟩ := Option.isSome_iff_exists.mp hv
    obtain ⟨rest, hrest⟩ := h.data
    have hroom : start + length ≤ s.data.data.toList.length := span?_le hspan
    simp only [StringHeap.text?, bytes_owned hspan, bytes_owned (h.span? hspan), ← hrest]
    rw [List.drop_append_of_le_length (by omega), List.take_append_of_le_length (by rw [List.length_drop]; omega)]
  · rename_i index
    obtain ⟨rest, hrest⟩ := h.borrowed
    rw [decide_eq_true_eq] at hv
    have hget : t.borrowed[index.val]? = s.borrowed[index.val]? := by
      rw [← Array.getElem?_toList, ← Array.getElem?_toList, ← hrest, List.getElem?_append_left (by simpa using hv)]
    simp only [StringHeap.text?, StringHeap.bytes, borrowedText, hget]
  · rename_i howned hforeign
    unfold StringHeap.text?
    split
    · rename_i r
      cases r with
      | inline text => rfl
      | owned offset => exact absurd rfl (howned offset)
      | foreign index => exact absurd rfl (hforeign index)
    · rfl

theorem extends_lend (s : StringHeap) (lender : Lender) (bytes : List UInt8) :
    s.Extends (leftBy (s.lend lender bytes)) := by
  refine ⟨Heap.records_lend s lender bytes, ?_⟩
  unfold StringHeap.lend
  split
  · exact List.prefix_rfl
  · dsimp only
    split
    · dsimp only [leftBy]
      split
      · exact List.prefix_rfl
      · rw [Array.toList_push]
        exact List.prefix_append _ _
    · exact List.prefix_rfl

theorem extends_alloc (s : StringHeap) (bytes : List UInt8) : s.Extends (leftBy (s.alloc bytes)) := by
  refine ⟨Heap.records_alloc s bytes, ?_⟩
  unfold StringHeap.alloc
  split
  · exact List.prefix_rfl
  · unfold StringHeap.allocRecord
    split <;> exact List.prefix_rfl

end StringHeap

namespace Heap

variable {h h' : Heap} {id id' : ObjectId} {key v : Value} {name name' : List UInt8} {cell cell' : ObjectCell}

theorem extends_storeString (h : Heap) {store : EStateM Error StringHeap Value}
    (hstore : h.strings.Extends (leftBy (store h.strings))) :
    h.strings.Extends (leftBy (h.storeString store)).strings := by
  unfold storeString
  split
  · rename_i v s heq
    rw [heq] at hstore
    exact hstore
  · rename_i e s heq
    rw [heq] at hstore
    exact hstore

/-! ## Looking up own properties -/

/-- Whether the property of a handle has a name. -/
def hasName (h : Heap) (name : List UInt8) (p : PropertyId) : Bool :=
  (h.properties.get? p.cell).any fun prop => h.isNamed prop name

theorem isNamed_iff {prop : Property} : h.isNamed prop name = true ↔ h.text? prop.name = some name := by
  unfold isNamed text? StringHeap.text?
  cases prop.name with
  | string s =>
    simp only [StringHeap.spells, StringHeap.length_eq, Bool.and_eq_true, beq_iff_eq, Option.some.injEq]
    exact ⟨fun hboth => hboth.2, fun heq => ⟨congrArg List.length heq, heq⟩⟩
  | _ => simp

theorem hasName_iff {p : PropertyId} :
    h.hasName name p = true ↔ ∃ prop, h.properties.get? p.cell = some prop ∧ h.text? prop.name = some name := by
  unfold hasName
  rw [Option.any_eq_true]
  simp only [isNamed_iff]

/-- The search among live properties finds the first of a name. -/
theorem findIn_eq {ids : Array PropertyId} (hlive : ∀ p ∈ ids.toList, (h.properties.get? p.cell).isSome)
    (name : List UInt8) {n : Nat} (hn : n ≤ ids.size) :
    ∃ found, h.findIn name ids n = .ok found
      ∧ found.map Prod.snd = (ids.toList.drop (ids.size - n)).find? (h.hasName name)
      ∧ ∀ place p, found = some (place, p) → ids[place]? = some p := by
  induction n with
  | zero =>
    refine ⟨none, rfl, ?_, fun _ _ hnone => by cases hnone⟩
    rw [Nat.sub_zero, List.drop_of_length_le (Nat.le_of_eq Array.length_toList)]
    rfl
  | succ n ih =>
    have hlt : ids.size - (n + 1) < ids.size := by omega
    have hnext : ids.size - (n + 1) + 1 = ids.size - n := by omega
    have hget := Array.getElem?_eq_getElem hlt
    have hmem : ids[ids.size - (n + 1)] ∈ ids.toList := Array.mem_toList_iff.mpr (Array.getElem_mem hlt)
    have hdrop : ids.toList.drop (ids.size - (n + 1)) = ids[ids.size - (n + 1)] :: ids.toList.drop (ids.size - n) := by
      rw [List.drop_eq_getElem_cons (by simpa using hlt), Array.getElem_toList, hnext]
    obtain ⟨prop, hprop⟩ := Option.isSome_iff_exists.mp (hlive _ hmem)
    have hname : h.hasName name ids[ids.size - (n + 1)] = h.isNamed prop name := by
      rw [hasName, hprop, Option.any_some]
    unfold findIn
    simp only [hget, Heap.property, hprop]
    rw [hdrop, List.find?_cons, hname]
    cases h.isNamed prop name with
    | true =>
      refine ⟨_, if_pos rfl, rfl, fun place p heq => ?_⟩
      cases heq
      exact hget
    | false => exact ih (by omega)

theorem Sound.find_eq (hs : h.Sound) (hcell : h.objects.get? id.cell = some cell) (name : List UInt8) :
    ∃ found, h.find id name = .ok found ∧ found.map Prod.snd = cell.properties.toList.find? (h.hasName name)
      ∧ ∀ place p, found = some (place, p) → cell.properties[place]? = some p := by
  obtain ⟨found, hfind, hsnd, hplace⟩ := findIn_eq (hs.live id.cell cell hcell) name (Nat.le_refl _)
  rw [Nat.sub_self, List.drop_zero] at hsnd
  exact ⟨found, by simp only [Heap.find, Heap.cell, hcell, hfind], hsnd, hplace⟩

/-- What an object holds under a name is the value of the first property that has it. -/
theorem Sound.getOwn_eq (hs : h.Sound) (hcell : h.objects.get? id.cell = some cell) (name : List UInt8) :
    h.getOwn id name = .ok ((cell.properties.toList.find? (h.hasName name)).bind fun p =>
      (h.properties.get? p.cell).map Property.value) := by
  obtain ⟨found, hfind, hsnd, -⟩ := hs.find_eq hcell name
  unfold getOwn
  rw [hfind, ← hsnd]
  cases found with
  | none => rfl
  | some entry =>
    obtain ⟨place, p⟩ := entry
    have hmem : p ∈ cell.properties.toList := List.mem_of_find?_eq_some (hsnd.symm.trans rfl)
    obtain ⟨prop, hprop⟩ := Option.isSome_iff_exists.mp (hs.live id.cell cell hcell p hmem)
    simp [Heap.property, hprop, Except.map]

/-- The handle of an object is good. -/
def IsLive (h : Heap) (id : ObjectId) : Prop :=
  ∃ cell, h.objects.get? id.cell = some cell

theorem getOwn_of_dead (hcell : h.objects.get? id.cell = none) (name : List UInt8) :
    h.getOwn id name = .error .invalidHandle := by
  simp only [getOwn, Heap.find, Heap.cell, hcell]

/-- An object with the same properties, by the same names and with the same values, holds the same. -/
theorem Sound.getOwn_congr (hs : h.Sound) (hs' : h'.Sound)
    (hcells : (h'.objects.get? id.cell).map ObjectCell.properties = (h.objects.get? id.cell).map ObjectCell.properties)
    (hsame : ∀ cell, h.objects.get? id.cell = some cell → ∀ p ∈ cell.properties.toList,
      h'.hasName name p = h.hasName name p
        ∧ (h'.properties.get? p.cell).map Property.value = (h.properties.get? p.cell).map Property.value) :
    h'.getOwn id name = h.getOwn id name := by
  cases hcell : h.objects.get? id.cell with
  | none =>
    rw [hcell, Option.map_none, Option.map_eq_none_iff] at hcells
    rw [getOwn_of_dead hcell, getOwn_of_dead hcells]
  | some cell =>
    rw [hcell, Option.map_some, Option.map_eq_some_iff] at hcells
    obtain ⟨cell', hcell', hproperties⟩ := hcells
    rw [hs.getOwn_eq hcell, hs'.getOwn_eq hcell', hproperties,
      List.find?_congr fun p hp => (hsame cell hcell p hp).1]
    refine congrArg Except.ok (Option.bind_congr fun p hp => ?_)
    exact (hsame cell hcell p (List.mem_of_find?_eq_some hp)).2

/-! ## Setting a property -/

/-- A property has one name. -/
theorem hasName_unique {p : PropertyId} (hp : h.hasName name p = true) (hp' : h.hasName name' p = true) :
    name' = name := by
  obtain ⟨prop, hprop, hname⟩ := hasName_iff.mp hp
  obtain ⟨prop', hprop', hname'⟩ := hasName_iff.mp hp'
  rw [hprop] at hprop'
  cases hprop'
  rw [hname] at hname'
  exact (Option.some.inj hname').symm

/-- The heap with another value for a property. -/
def withValue (h : Heap) (p : PropertyId) (v : Value) : Heap :=
  { h with properties := h.properties.modify p.cell fun prop => { prop with value := v } }

theorem get?_withValue (h : Heap) (p : PropertyId) (v : Value) (q : PropertyId) :
    (h.withValue p v).properties.get? q.cell
      = if q = p then (h.properties.get? q.cell).map fun prop => { prop with value := v }
        else h.properties.get? q.cell := by
  show (h.properties.modify p.cell _).get? q.cell = _
  rw [Arena.get?_modify]
  by_cases heq : q = p
  · rw [if_pos heq, if_pos (congrArg PropertyId.cell heq), heq]
  · have hne : q.cell ≠ p.cell := fun hcells => heq (by cases q; cases p; exact congrArg PropertyId.mk hcells)
    rw [if_neg heq, if_neg hne]

@[simp] theorem hasName_withValue (h : Heap) (p : PropertyId) (v : Value) (name : List UInt8) (q : PropertyId) :
    (h.withValue p v).hasName name q = h.hasName name q := by
  unfold hasName
  rw [get?_withValue]
  split
  · rw [Option.any_map]
    rfl
  · rfl

/-- Another value for a property changes what its object holds under its name. -/
theorem Sound.getOwn_withValue (hs : h.Sound) (hcell : h.objects.get? id.cell = some cell) {p : PropertyId}
    (hp : cell.properties.toList.find? (h.hasName name) = some p) {v : Value} (hs' : (h.withValue p v).Sound)
    (id' : ObjectId) (name' : List UInt8) :
    (h.withValue p v).getOwn id' name' = if id' = id ∧ name' = name then .ok (some v) else h.getOwn id' name' := by
  have hmem := List.mem_of_find?_eq_some hp
  by_cases hsame : id' = id ∧ name' = name
  · obtain ⟨rfl, rfl⟩ := hsame
    obtain ⟨prop, hprop⟩ := Option.isSome_iff_exists.mp (hs.live _ _ hcell p hmem)
    rw [if_pos ⟨rfl, rfl⟩, hs'.getOwn_eq hcell]
    simp only [hasName_withValue, hp, Option.bind_some, get?_withValue, if_true, hprop, Option.map_some]
  · rw [if_neg hsame]
    -- The property that changes is that of another object, or one of another name.
    cases hcell' : h.objects.get? id'.cell with
    | none => rw [getOwn_of_dead hcell', getOwn_of_dead (show (h.withValue p v).objects.get? _ = _ from hcell')]
    | some cell' =>
      rw [hs.getOwn_eq hcell', hs'.getOwn_eq hcell']
      simp only [hasName_withValue]
      refine congrArg Except.ok (Option.bind_congr fun q hq => ?_)
      have hne : q ≠ p := by
        rintro rfl
        exact hsame ⟨hs.owner_eq hcell' hcell (List.mem_of_find?_eq_some hq) hmem,
          hasName_unique (List.find?_some hp) (List.find?_some hq)⟩
      rw [get?_withValue, if_neg hne]

/-- The handle of the property that an addition makes. -/
def addedProperty (h : Heap) (name value : Value) : PropertyId :=
  ⟨(h.properties.alloc ⟨name, value⟩).2.1⟩

theorem get?_addProperty (hs : h.Sound) (ha : (h.addProperty id key v).Addressable) (q : PropertyId) :
    (h.addProperty id key v).properties.get? q.cell
      = if q = h.addedProperty key v then some ⟨key, v⟩ else h.properties.get? q.cell := by
  rw [show (h.addProperty id key v).properties.get? q.cell = _ from hs.properties.get?_alloc ha.properties q.cell]
  by_cases heq : q = h.addedProperty key v
  · rw [if_pos heq, if_pos (by rw [heq]; rfl)]
  · rw [if_neg heq, if_neg fun hcells => heq (by cases q; exact congrArg PropertyId.mk hcells)]

/-- The properties of objects are none that an addition makes. -/
theorem Sound.get?_addProperty_of_mem (hs : h.Sound) (ha : (h.addProperty id key v).Addressable)
    (hcell : h.objects.get? id'.cell = some cell) {q : PropertyId} (hq : q ∈ cell.properties.toList) :
    (h.addProperty id key v).properties.get? q.cell = h.properties.get? q.cell := by
  rw [get?_addProperty hs ha, if_neg]
  rintro rfl
  have hlive := hs.live _ _ hcell _ hq
  rw [show h.properties.get? (h.addedProperty key v).cell = none from
    hs.properties.get?_alloc_id ha.properties] at hlive
  cases hlive

theorem get?_objects_addProperty (h : Heap) (id : ObjectId) (key v : Value) (id' : ObjectId) :
    (h.addProperty id key v).objects.get? id'.cell
      = if id' = id then (h.objects.get? id.cell).map fun cell =>
          { cell with properties := cell.properties.push (h.addedProperty key v) }
        else h.objects.get? id'.cell := by
  unfold addProperty
  exact get?_modifyCell _ id _ id'

/-- A property that an object does not have comes behind the others. -/
theorem Sound.getOwn_addProperty (hs : h.Sound) (ha : (h.addProperty id key v).Addressable)
    (hs' : (h.addProperty id key v).Sound) (hkey : h.text? key = some name)
    (hcell : h.objects.get? id.cell = some cell) (hnone : cell.properties.toList.find? (h.hasName name) = none)
    (id' : ObjectId) (name' : List UInt8) :
    (h.addProperty id key v).getOwn id' name'
      = if id' = id ∧ name' = name then .ok (some v) else h.getOwn id' name' := by
  have hnames {id₀ : ObjectId} {cell₀ : ObjectCell} (hcell₀ : h.objects.get? id₀.cell = some cell₀) (name₀ : List UInt8)
      {q : PropertyId} (hq : q ∈ cell₀.properties.toList) :
      (h.addProperty id key v).hasName name₀ q = h.hasName name₀ q := by
    unfold hasName
    rw [hs.get?_addProperty_of_mem ha hcell₀ hq]
    rfl
  by_cases hid : id' = id
  · subst hid
    have hcell' := h.get?_objects_addProperty id' key v id'
    rw [if_pos rfl, hcell, Option.map_some] at hcell'
    rw [hs'.getOwn_eq hcell', hs.getOwn_eq hcell, Array.toList_push, List.find?_append,
      List.find?_congr fun q hq => hnames hcell name' hq]
    by_cases hname : name' = name
    · subst hname
      have hnew : (h.addProperty id' key v).hasName name' (h.addedProperty key v) = true :=
        hasName_iff.mpr ⟨⟨key, v⟩, by rw [get?_addProperty hs ha, if_pos rfl], hkey⟩
      rw [if_pos ⟨rfl, rfl⟩, hnone, Option.none_or, List.find?_singleton, if_pos hnew, Option.bind_some,
        get?_addProperty hs ha, if_pos rfl]
      rfl
    · have hnew : (h.addProperty id' key v).hasName name' (h.addedProperty key v) = false := by
        rw [← Bool.not_eq_true, hasName_iff]
        rintro ⟨prop, hprop, htext⟩
        rw [get?_addProperty hs ha, if_pos rfl] at hprop
        cases hprop
        rw [show (h.addProperty id' key v).text? key = h.text? key from rfl, hkey] at htext
        exact hname (Option.some.inj htext).symm
      rw [if_neg fun hboth => hname hboth.2, List.find?_singleton, if_neg (by rw [hnew]; decide), Option.or_none]
      refine congrArg Except.ok (Option.bind_congr fun q hq => ?_)
      rw [hs.get?_addProperty_of_mem ha hcell (List.mem_of_find?_eq_some hq)]
  · rw [if_neg fun hboth => hid hboth.1]
    refine hs.getOwn_congr hs' (by rw [get?_objects_addProperty, if_neg hid]) fun cell' hcell' q hq =>
      ⟨hnames hcell' name' hq, ?_⟩
    rw [hs.get?_addProperty_of_mem ha hcell' hq]

/-- Setting a property changes the first one that has the name, or adds one that has it. -/
theorem Sound.set_cases (hs : h.Sound) (hset : h.set id key v = .ok () h') :
    ∃ cell name, h.objects.get? id.cell = some cell ∧ h.text? key = some name ∧
      ((∃ p, cell.properties.toList.find? (h.hasName name) = some p ∧ h' = h.withValue p v) ∨
        (cell.properties.toList.find? (h.hasName name) = none ∧ h' = h.addProperty id key v)) := by
  cases hkey : h.text? key with
  | none => simp [Heap.set, keyBytes, hkey] at hset
  | some name =>
    cases hcell : h.objects.get? id.cell with
    | none => simp [Heap.set, keyBytes, hkey, Heap.find, Heap.cell, hcell] at hset
    | some cell =>
      obtain ⟨found, hfind, hsnd, -⟩ := hs.find_eq hcell name
      refine ⟨cell, name, rfl, rfl, ?_⟩
      cases found with
      | none =>
        simp only [Heap.set, keyBytes, hkey, hfind] at hset
        cases hset
        exact .inr ⟨hsnd.symm, rfl⟩
      | some entry =>
        simp only [Heap.set, keyBytes, hkey, hfind] at hset
        cases hset
        exact .inl ⟨entry.2, hsnd.symm, rfl⟩

/-- What is set under a name in an object is what the object holds under it, and no object holds anything else under
any other name. -/
theorem Sound.getOwn_set (hs : h.Sound) (hu : h.Unmarked) (hset : h.set id key v = .ok () h') (ha : h'.Addressable)
    (hkey : h.text? key = some name) (id' : ObjectId) (name' : List UInt8) :
    h'.getOwn id' name' = if id' = id ∧ name' = name then .ok (some v) else h.getOwn id' name' := by
  have hs' : h'.Sound := by
    have hkeeps := h.keeps_set id key v
    rw [hset] at hkeeps
    exact hkeeps.sound ha hu hs
  obtain ⟨cell, name₀, hcell, hkey₀, ⟨p, hp, rfl⟩ | ⟨hnone, rfl⟩⟩ := hs.set_cases hset
  all_goals
    rw [hkey] at hkey₀
    cases hkey₀
  · exact hs.getOwn_withValue hcell hp hs' id' name'
  · exact hs.getOwn_addProperty ha hs' hkey hcell hnone id' name'

theorem error_of_set {e : Error} (hset : h.set id key v = .error e h') : h' = h := by
  unfold Heap.set at hset
  split at hset
  · cases hset
    rfl
  · split at hset <;> cases hset
    rfl

theorem text?_of_set (hset : h.set id key v = .ok () h') : ∃ bytes, h.text? key = some bytes := by
  unfold Heap.set keyBytes at hset
  cases hkey : h.text? key with
  | some bytes => exact ⟨bytes, rfl⟩
  | none =>
    rw [hkey] at hset
    cases hset

/-- The heap with one property of an object less. -/
def withoutProperty (h : Heap) (id : ObjectId) (place : Nat) : Heap :=
  h.modifyCell id fun cell => { cell with properties := cell.properties.eraseIdxIfInBounds place }

theorem toList_eraseIdxIfInBounds {α : Type} (xs : Array α) (i : Nat) :
    (xs.eraseIdxIfInBounds i).toList = xs.toList.eraseIdx i := by
  unfold Array.eraseIdxIfInBounds
  split
  · exact Array.toList_eraseIdx
  · rw [List.eraseIdx_of_length_le (by rw [Array.length_toList]; omega)]

/-- Removing a property takes the first one that has the name out of the object. -/
theorem Sound.delete_cases (hs : h.Sound) {found : Bool} (hdelete : h.delete id key = .ok found h') :
    ∃ cell name, h.objects.get? id.cell = some cell ∧ h.text? key = some name ∧
      ((found = false ∧ cell.properties.toList.find? (h.hasName name) = none ∧ h' = h) ∨
        (found = true ∧ ∃ place p, cell.properties.toList.find? (h.hasName name) = some p ∧
          cell.properties.toList[place]? = some p ∧ h' = h.withoutProperty id place)) := by
  cases hkey : h.text? key with
  | none => simp [Heap.delete, keyBytes, hkey] at hdelete
  | some name =>
    cases hcell : h.objects.get? id.cell with
    | none => simp [Heap.delete, keyBytes, hkey, Heap.find, Heap.cell, hcell] at hdelete
    | some cell =>
      obtain ⟨entry, hfind, hsnd, hplace⟩ := hs.find_eq hcell name
      refine ⟨cell, name, rfl, rfl, ?_⟩
      cases entry with
      | none =>
        simp only [Heap.delete, keyBytes, hkey, hfind] at hdelete
        cases hdelete
        exact .inl ⟨rfl, hsnd.symm, rfl⟩
      | some entry =>
        simp only [Heap.delete, keyBytes, hkey, hfind] at hdelete
        cases hdelete
        exact .inr ⟨rfl, entry.1, entry.2, hsnd.symm,
          (Array.getElem?_toList ..).trans (hplace entry.1 entry.2 rfl), rfl⟩

theorem get?_withoutProperty (h : Heap) (id : ObjectId) (place : Nat) (id' : ObjectId) :
    (h.withoutProperty id place).objects.get? id'.cell
      = if id' = id then (h.objects.get? id.cell).map fun cell =>
          { cell with properties := cell.properties.eraseIdxIfInBounds place }
        else h.objects.get? id'.cell :=
  h.get?_modifyCell id _ id'

theorem error_of_delete {e : Error} (hdelete : h.delete id key = .error e h') : h' = h := by
  unfold Heap.delete at hdelete
  split at hdelete
  · cases hdelete
    rfl
  · split at hdelete <;> cases hdelete
    rfl

/-! ## What spares a property -/

/-- A change of a heap that writes nothing under a name in an object. What it writes there under other names goes by
texts that are there. -/
inductive Spares (id : ObjectId) (name : List UInt8) (h : Heap) : Heap → Prop where
  | cell (kind : ObjectKind) : Spares id name h (h.newCell kind).1
  | signature (f : Ffi.ForeignFunction) : Spares id name h (h.newSignature f).1
  | string (bytes : List UInt8) : Spares id name h (leftBy (h.newString bytes))
  | concat (s t : StringRef) : Spares id name h (leftBy (h.concatStrings s t))
  | lend (lender : Lender) (bytes : List UInt8) : Spares id name h (leftBy (h.lendString lender bytes))
  | set (id' : ObjectId) (key v : Value)
      (hother : id' = id → h.text? key ≠ some name ∧ h.strings.isReadable key = true) :
      Spares id name h (leftBy (h.set id' key v))
  | delete (id' : ObjectId) (key : Value) (hother : id' = id → h.text? key ≠ some name) :
      Spares id name h (leftBy (h.delete id' key))
  | items (id' : ObjectId) (f : Array Value → Array Value) : Spares id name h (leftBy (h.modifyItems id' f))
  | byte (id' : ObjectId) (index shown : Nat) (b : UInt8) : Spares id name h (leftBy (h.setByte id' index shown b))

theorem Spares.keeps (hspares : h.Spares id name h') : h.Keeps h' := by
  cases hspares with
  | cell kind => exact h.keeps_newCell kind
  | signature f => exact Change.keeps (.signature f)
  | string bytes => exact Change.keeps (.string bytes)
  | concat s t => exact Change.keeps (.concat s t)
  | lend lender bytes => exact Change.keeps (.lend lender bytes)
  | set id' key v => exact Change.keeps (.set id' key v)
  | delete id' key => exact Change.keeps (.delete id' key)
  | items id' f => exact Change.keeps (.items id' f)
  | byte id' index shown b => exact Change.keeps (.byte id' index shown b)

/-- The names of an object's properties are texts that are there. -/
def Legible (h : Heap) (id : ObjectId) : Prop :=
  ∀ cell, h.objects.get? id.cell = some cell → ∀ p ∈ cell.properties.toList, ∀ prop,
    h.properties.get? p.cell = some prop → h.strings.isReadable prop.name = true

/-- An object of a heap in order, the names of which are legible, holds a value under a name. -/
structure Stores (h : Heap) (id : ObjectId) (name : List UInt8) (v : Value) : Prop where
  sound : h.Sound
  unmarked : h.Unmarked
  legible : h.Legible id
  value : h.getOwn id name = .ok (some v)

theorem Stores.exists_cell (hst : h.Stores id name v) : ∃ cell, h.objects.get? id.cell = some cell := by
  cases hcell : h.objects.get? id.cell with
  | some cell => exact ⟨cell, rfl⟩
  | none =>
    have hvalue := hst.value
    rw [getOwn_of_dead hcell] at hvalue
    cases hvalue

theorem hasName_of_extends {p : PropertyId} (hget : h'.properties.get? p.cell = h.properties.get? p.cell)
    (hext : h.strings.Extends h'.strings)
    (hlegible : ∀ prop, h.properties.get? p.cell = some prop → h.strings.isReadable prop.name = true) :
    h'.hasName name p = h.hasName name p := by
  rw [Bool.eq_iff_iff, hasName_iff, hasName_iff, hget]
  refine exists_congr fun prop => and_congr_right fun hprop => ?_
  rw [show h'.text? prop.name = h.text? prop.name from hext.text? (hlegible prop hprop)]

/-- What leaves an object its properties, and texts where they are, leaves it what it holds. -/
theorem Stores.next (hst : h.Stores id name v) (hs' : h'.Sound) (hu' : h'.Unmarked)
    (hext : h.strings.Extends h'.strings)
    (hcells : (h'.objects.get? id.cell).map ObjectCell.properties = (h.objects.get? id.cell).map ObjectCell.properties)
    (hproperties : ∀ cell, h.objects.get? id.cell = some cell → ∀ p ∈ cell.properties.toList,
      h'.properties.get? p.cell = h.properties.get? p.cell) : h'.Stores id name v := by
  obtain ⟨cell, hcell⟩ := hst.exists_cell
  refine ⟨hs', hu', fun cell' hcell' p hp prop hprop => ?_, ?_⟩
  · rw [hcell, hcell', Option.map_some, Option.map_some, Option.some.injEq] at hcells
    rw [hcells] at hp
    rw [hproperties cell hcell p hp] at hprop
    exact hext.isReadable (hst.legible cell hcell p hp prop hprop)
  · rw [hst.sound.getOwn_congr hs' hcells fun cell hcell p hp => ⟨?_, ?_⟩]
    · exact hst.value
    · exact hasName_of_extends (hproperties cell hcell p hp) hext (hst.legible cell hcell p hp)
    · rw [hproperties cell hcell p hp]

theorem find?_eraseIdx {α : Type} {p : α → Bool} {l : List α} {i : Nat} {x : α} (hx : l[i]? = some x)
    (hp : p x = false) : (l.eraseIdx i).find? p = l.find? p := by
  induction l generalizing i with
  | nil => rfl
  | cons y l ih =>
    cases i with
    | zero =>
      obtain rfl : y = x := Option.some.inj hx
      rw [List.eraseIdx_cons_zero, List.find?_cons, hp]
    | succ i =>
      rw [List.eraseIdx_cons_succ, List.find?_cons, List.find?_cons, ih hx]

theorem properties_modifyCell (h : Heap) {f : ObjectCell → ObjectCell}
    (hf : ∀ cell, (f cell).properties = cell.properties)
    (id id' : ObjectId) :
    ((h.modifyCell id' f).objects.get? id.cell).map ObjectCell.properties
      = (h.objects.get? id.cell).map ObjectCell.properties := by
  rw [get?_modifyCell]
  split
  · rename_i heq
    rw [heq, Option.map_map]
    exact Option.map_congr fun cell _ => hf cell
  · rfl

theorem Legible.set (hl : h.Legible id) (hs : h.Sound) {id' : ObjectId} {w : Value}
    (hset : h.set id' key w = .ok () h') (ha : h'.Addressable)
    (hkey : id' = id → h.strings.isReadable key = true) : h'.Legible id := by
  intro cell' hcell' p hp prop hprop
  obtain ⟨cell, name, hcell, -, ⟨q, -, rfl⟩ | ⟨-, rfl⟩⟩ := hs.set_cases hset
  · -- The names are what they were.
    rw [get?_withValue] at hprop
    split_ifs at hprop with hq
    · obtain ⟨old, hold, rfl⟩ := Option.map_eq_some_iff.mp hprop
      exact hl cell' hcell' p hp old hold
    · exact hl cell' hcell' p hp prop hprop
  · -- There is one more name, which is a text that is there.
    rw [get?_objects_addProperty] at hcell'
    by_cases hid : id = id'
    · subst hid
      rw [if_pos rfl, hcell] at hcell'
      cases hcell'
      rw [Array.toList_push, List.mem_append, List.mem_singleton] at hp
      rcases hp with hp | rfl
      · rw [hs.get?_addProperty_of_mem ha hcell hp] at hprop
        exact hl cell hcell p hp prop hprop
      · rw [get?_addProperty hs ha, if_pos rfl, Option.some.injEq] at hprop
        subst hprop
        exact hkey rfl
    · rw [if_neg hid] at hcell'
      rw [hs.get?_addProperty_of_mem ha hcell' hp] at hprop
      exact hl cell' hcell' p hp prop hprop

/-- What is set under another name leaves what is there. -/
theorem Stores.set (hst : h.Stores id name v) {id' : ObjectId} {w : Value} {bytes : List UInt8}
    (hset : h.set id' key w = .ok () h') (ha : h'.Addressable) (hbytes : h.text? key = some bytes)
    (hother : id' = id → h.text? key ≠ some name ∧ h.strings.isReadable key = true) : h'.Stores id name v := by
  have hkeeps := h.keeps_set id' key w
  rw [hset] at hkeeps
  have hne : ¬ (id = id' ∧ name = bytes) := fun ⟨hid, hname⟩ => (hother hid.symm).1 (hname ▸ hbytes)
  have hvalue := hst.sound.getOwn_set hst.unmarked hset ha hbytes id name
  rw [if_neg hne, hst.value] at hvalue
  exact ⟨hkeeps.sound ha hst.unmarked hst.sound, hkeeps.unmarked hst.unmarked,
    hst.legible.set hst.sound hset ha fun hid => (hother hid).2, hvalue⟩

/-- What is removed under another name leaves what is there. -/
theorem Stores.delete (hst : h.Stores id name v) {id' : ObjectId} {found : Bool}
    (hdelete : h.delete id' key = .ok found h') (ha : h'.Addressable)
    (hother : id' = id → h.text? key ≠ some name) : h'.Stores id name v := by
  have hkeeps := h.keeps_delete id' key
  rw [hdelete] at hkeeps
  have hs' : h'.Sound := hkeeps.sound ha hst.unmarked hst.sound
  have hu' : h'.Unmarked := hkeeps.unmarked hst.unmarked
  obtain ⟨cell, bytes, hcell, htext, ⟨-, -, rfl⟩ | ⟨-, place, q, hfind, hplace, rfl⟩⟩ :=
    hst.sound.delete_cases hdelete
  · exact hst
  · have hget := h.get?_withoutProperty id' place id
    by_cases hid : id = id'
    · subst hid
      rw [if_pos rfl, hcell, Option.map_some] at hget
      have hne : h.hasName name q = false := by
        rw [← Bool.not_eq_true]
        exact fun hname =>
          hother rfl (htext.trans (congrArg some (hasName_unique hname (List.find?_some hfind))))
      refine ⟨hs', hu', fun cell' hcell' p hp prop hprop => ?_, ?_⟩
      · rw [hget] at hcell'
        cases hcell'
        rw [toList_eraseIdxIfInBounds] at hp
        exact hst.legible cell hcell p (List.mem_of_mem_eraseIdx hp) prop hprop
      · have hfinds := hs'.getOwn_eq hget name
        rw [toList_eraseIdxIfInBounds, show (h.withoutProperty id place).hasName name = h.hasName name from rfl,
          find?_eraseIdx hplace hne] at hfinds
        have hvalue := hst.value
        rw [hst.sound.getOwn_eq hcell] at hvalue
        exact hfinds.trans hvalue
    · rw [if_neg hid] at hget
      exact hst.next hs' hu' (.refl _) (congrArg (Option.map ObjectCell.properties) hget) fun _ _ _ _ => rfl

/-- More texts leave what is there. -/
theorem Stores.more (hst : h.Stores id name v) (hs' : h'.Sound) (hu' : h'.Unmarked)
    (hext : h.strings.Extends h'.strings) (hobjects : h'.objects = h.objects)
    (hproperties : h'.properties = h.properties) : h'.Stores id name v :=
  hst.next hs' hu' hext (by rw [hobjects]) fun _ _ _ _ => by rw [hproperties]

theorem Stores.storeString (hst : h.Stores id name v) {store : EStateM Error StringHeap Value}
    (hs' : (leftBy (h.storeString store)).Sound) (hu' : (leftBy (h.storeString store)).Unmarked)
    (hext : h.strings.Extends (leftBy (store h.strings))) : (leftBy (h.storeString store)).Stores id name v := by
  refine hst.more hs' hu' (extends_storeString h hext) ?_ ?_ <;>
  · unfold Heap.storeString
    split <;> rfl

/-- What is done to the contents of an object leaves its properties. -/
theorem Stores.modifyCell (hst : h.Stores id name v) {f : ObjectCell → ObjectCell}
    (hf : ∀ cell, (f cell).properties = cell.properties) {id' : ObjectId} (hs' : (h.modifyCell id' f).Sound)
    (hu' : (h.modifyCell id' f).Unmarked) : (h.modifyCell id' f).Stores id name v :=
  hst.next hs' hu' (.refl _) (h.properties_modifyCell hf id id') fun _ _ _ _ => rfl

/-- What a change spares stays. -/
theorem Stores.spared (hst : h.Stores id name v) (hspares : h.Spares id name h') (ha : h'.Addressable) :
    h'.Stores id name v := by
  have hkeeps := hspares.keeps
  have hs' := hkeeps.sound ha hst.unmarked hst.sound
  have hu' := hkeeps.unmarked hst.unmarked
  obtain ⟨cell, hcell⟩ := hst.exists_cell
  cases hspares with
  | cell kind =>
    have hget := hst.sound.objects.get?_alloc ha.objects id.cell
    have hfresh := hst.sound.objects.get?_alloc_id ha.objects
    rw [if_neg fun heq => by rw [← heq, hcell] at hfresh; cases hfresh] at hget
    exact hst.next hs' hu' (.refl _) (congrArg (Option.map ObjectCell.properties) hget) fun _ _ _ _ => rfl
  | signature f => exact hst.more hs' hu' (.refl _) rfl rfl
  | string bytes => exact hst.storeString hs' hu' (h.strings.extends_alloc bytes)
  | concat s t => exact hst.storeString hs' hu' (by rw [StringHeap.concat_eq]; exact h.strings.extends_alloc _)
  | lend lender bytes =>
    have hext := h.strings.extends_lend lender bytes
    unfold lendString at hs' hu' ⊢
    split at hs' <;> rename_i heq <;> rw [heq] at hext hu' <;> exact hst.more hs' hu' hext rfl rfl
  | set id' key w hother =>
    cases hset : h.set id' key w with
    | error e k => exact error_of_set hset ▸ hst
    | ok u k =>
      obtain ⟨bytes, hbytes⟩ := text?_of_set hset
      rw [hset] at ha
      exact hst.set hset ha hbytes hother
  | delete id' key hother =>
    cases hdelete : h.delete id' key with
    | error e k => exact error_of_delete hdelete ▸ hst
    | ok found k =>
      rw [hdelete] at ha
      exact hst.delete hdelete ha hother
  | items id' f =>
    unfold modifyItems at hs' hu' ⊢
    split at hs'
    · rename_i heq
      simp only [heq] at hu' ⊢
      exact hst.modifyCell (fun cell => by obtain ⟨properties, kind⟩ := cell; cases kind <;> rfl) hs' hu'
    · exact hst
    · exact hst
  | byte id' index shown b =>
    unfold setByte at hs' hu' ⊢
    split at hs'
    · rename_i size heq
      simp only [heq] at hu' ⊢
      by_cases hlt : index < size
      · rw [if_pos hlt] at hs' hu' ⊢
        exact hst.modifyCell (fun cell => by obtain ⟨properties, kind⟩ := cell; cases kind <;> rfl) hs' hu'
      · rw [if_neg hlt]
        exact hst
    · exact hst

/-! ## Collections -/

variable {roots : List Value} {moves : StringHeap.Relocation}

/-- A text that a collection keeps is there afterwards, where it was moved. -/
theorem Collected.readable (hc : Collected h roots h' moves) (hv : h.Reaches roots v)
    (hreadable : h.strings.isReadable v = true) :
    h'.strings.isReadable (StringHeap.relocate moves v) = true
      ∧ h'.text? (StringHeap.relocate moves v) = h.text? v := by
  cases v with
  | string r =>
    cases r with
    | inline text => exact ⟨rfl, rfl⟩
    | owned offset =>
      obtain ⟨new, hnew, ⟨texts, hholds, t, ht⟩, hbytes⟩ := hc.string offset hv
      rw [hnew]
      refine ⟨?_, congrArg some hbytes⟩
      show (h'.strings.span? new.val).isSome = true
      rw [hholds.span?_eq ht]
      rfl
    | foreign index =>
      refine ⟨?_, ?_⟩
      · show decide (index.val < h'.strings.borrowed.size) = true
        rw [hc.borrowed]
        exact hreadable
      · simp only [StringHeap.relocate, Heap.text?, StringHeap.text?, StringHeap.bytes, StringHeap.borrowedText,
          hc.borrowed]
  | _ => exact ⟨rfl, rfl⟩

/-- The properties of an object that a collection keeps are kept, with their names. -/
theorem Collected.property_eq (hc : Collected h roots h' moves) (hl : h.Legible id)
    (hid : h.ReachesObject roots id) (hcell : h.objects.get? id.cell = some cell) {p : PropertyId}
    (hp : p ∈ cell.properties.toList) :
    h'.properties.get? p.cell = (h.properties.get? p.cell).map (relocateProperty moves) ∧
      ∀ prop, h.properties.get? p.cell = some prop →
        h'.strings.isReadable (StringHeap.relocate moves prop.name) = true
          ∧ h'.text? (StringHeap.relocate moves prop.name) = h.text? prop.name := by
  obtain ⟨w, hw, hwid⟩ := hid
  have hof : h.cellOf? w = some cell := cellOf?_eq_some.mpr ⟨_, hwid, hcell⟩
  refine ⟨hc.toKept.get?_property hw hof hp, fun prop hprop => hc.readable ?_ (hl cell hcell p hp prop hprop)⟩
  exact .held hw hof (List.mem_append_right _ (mem_propertyValues.mpr ⟨p, hp, prop, hprop, List.mem_cons_self⟩))

theorem Collected.hasName_eq (hc : Collected h roots h' moves) (hl : h.Legible id)
    (hid : h.ReachesObject roots id) (hcell : h.objects.get? id.cell = some cell) {p : PropertyId}
    (hp : p ∈ cell.properties.toList) (name : List UInt8) : h'.hasName name p = h.hasName name p := by
  obtain ⟨hget, htext⟩ := hc.property_eq hl hid hcell hp
  unfold hasName
  rw [hget, Option.any_map]
  cases hprop : h.properties.get? p.cell with
  | none => rfl
  | some prop =>
    rw [Option.any_some, Option.any_some, Bool.eq_iff_iff]
    show h'.isNamed (relocateProperty moves prop) name = true ↔ _
    rw [isNamed_iff, isNamed_iff, ← (htext prop hprop).2]
    rfl

/-- A collection that keeps an object keeps what it holds, and moves it. -/
theorem Collected.getOwn_eq (hc : Collected h roots h' moves) (hs : h.Sound) (hl : h.Legible id)
    (hid : h.ReachesObject roots id) (hcell : h.objects.get? id.cell = some cell) (name : List UInt8) :
    h'.getOwn id name = (h.getOwn id name).map (Option.map (StringHeap.relocate moves)) := by
  have hcell' : h'.objects.get? id.cell = some (relocateCell moves cell) :=
    (hc.object_iff _ _).mpr ⟨cell, hcell, hid, rfl⟩
  rw [(hc.toKept.sound hs).getOwn_eq hcell', hs.getOwn_eq hcell, properties_relocateCell,
    List.find?_congr fun p hp => hc.hasName_eq hl hid hcell hp name]
  cases hfound : cell.properties.toList.find? (h.hasName name) with
  | none => rfl
  | some p =>
    rw [Option.bind_some, Option.bind_some, (hc.property_eq hl hid hcell (List.mem_of_find?_eq_some hfound)).1]
    cases h.properties.get? p.cell <;> rfl

theorem Legible.collected (hl : h.Legible id) (hc : Collected h roots h' moves) (hid : h.ReachesObject roots id)
    (hcell : h.objects.get? id.cell = some cell) : h'.Legible id := by
  intro cell' hcell' p hp prop' hprop'
  rw [(hc.object_iff _ _).mpr ⟨cell, hcell, hid, rfl⟩] at hcell'
  cases hcell'
  rw [properties_relocateCell] at hp
  obtain ⟨hget, htext⟩ := hc.property_eq hl hid hcell hp
  rw [hget, Option.map_eq_some_iff] at hprop'
  obtain ⟨prop, hprop, rfl⟩ := hprop'
  exact (htext prop hprop).1

theorem Stores.collected (hst : h.Stores id name v) (hc : Collected h roots h' moves)
    (hid : h.ReachesObject roots id) : h'.Stores id name (StringHeap.relocate moves v) := by
  obtain ⟨cell, hcell⟩ := hst.exists_cell
  refine ⟨hc.toKept.sound hst.sound, hc.unmarked, hst.legible.collected hc hid hcell, ?_⟩
  rw [hc.getOwn_eq hst.sound hst.legible hid hcell, hst.value]
  rfl

end Heap

end ScriptEngine
