import ScriptEngine.Proofs.Heap.Histories
/-!
Properties of objects as maps that keep the order of insertion.

A `NameMap` has names, in the order in which they were put there since they were dropped last, and the value that was
put under each name last. An object shows a map (`Shows`) if its list of properties has these names, in this order, and
a look-up finds these values. Every request changes the maps as `mapsAfter` says: setting a property puts a name there,
in the map of one object; removing one drops it; a collection moves the values of the objects that it keeps, and takes
the others away. The objects of a heap show the maps that its history makes (`Refines.run`), so that what is said of
maps is true of lists of properties (`Lists`).
-/

namespace ScriptEngine

/-- Names with values, in the order in which the names came. -/
structure NameMap where
  names : List (List UInt8)
  value : List UInt8 → Option Value

namespace NameMap

/-- No names. -/
def empty : NameMap := ⟨[], fun _ => none⟩

/-- Puts a value under a name. A name that is there keeps its place; a new one comes last. -/
def put (m : NameMap) (name : List UInt8) (v : Value) : NameMap :=
  ⟨if name ∈ m.names then m.names else m.names ++ [name], fun n => if n = name then some v else m.value n⟩

/-- Takes a name away. -/
def drop (m : NameMap) (name : List UInt8) : NameMap :=
  ⟨m.names.erase name, fun n => if n = name then none else m.value n⟩

/-- Changes all values. -/
def map (m : NameMap) (f : Value → Value) : NameMap :=
  ⟨m.names, fun n => (m.value n).map f⟩

end NameMap

namespace Heap

/-- The name of a property. -/
def nameOf (h : Heap) (p : PropertyId) : Option (List UInt8) :=
  (h.properties.get? p.cell).bind fun prop => h.text? prop.name

/-- An object's list of properties is a map. -/
structure Shows (h : Heap) (id : ObjectId) (m : NameMap) : Prop where
  listed : ∃ cell, h.objects.get? id.cell = some cell ∧ cell.properties.toList.map h.nameOf = m.names.map some
  nodup : m.names.Nodup
  value : ∀ name, h.getOwn id name = .ok (m.value name)

/-- The maps of the objects that are there. -/
abbrev Maps := ObjectId → Option NameMap

/-- Changes the map of one object. -/
def Maps.change (maps : Maps) (obj : ObjectId) (f : NameMap → NameMap) : Maps :=
  fun id => if id = obj then (maps id).map f else maps id

open Classical in
/-- The maps behind a request. -/
noncomputable def mapsAfter (h : Heap) (maps : Maps) : Request → Maps
  | .create kind => fun id => if id = (h.newCell kind).2 then some .empty else maps id
  | .text _ | .lend _ _ => maps
  | .set obj key v =>
    match h.text? key with
    | some name => maps.change obj fun m => m.put name v
    | none => maps
  | .delete obj key =>
    match h.text? key with
    | some name => maps.change obj fun m => m.drop name
    | none => maps
  | .collect roots full slack => fun id =>
    if h.ReachesObject roots id then (maps id).map fun m => m.map (StringHeap.relocate (h.collect roots full slack).2.1)
    else none

/-- The maps behind a row of requests. -/
noncomputable def mapsBehind (h : Heap) (maps : Maps) : List Request → Maps
  | [] => maps
  | q :: qs => (h.after q).mapsBehind (h.mapsAfter maps q) qs

/-- The objects that are there show these maps. -/
structure Refines (h : Heap) (maps : Maps) : Prop where
  live_iff : ∀ id, h.IsLive id ↔ (maps id).isSome = true
  shows : ∀ id m, maps id = some m → h.Shows id m

variable {h h' : Heap} {id : ObjectId} {key v : Value} {name : List UInt8} {m : NameMap} {cell cell' : ObjectCell}
  {p : PropertyId}

/-! ## Names -/

theorem nameOf_eq_some : h.nameOf p = some name ↔ h.hasName name p = true := by
  rw [hasName_iff, nameOf, Option.bind_eq_some_iff]

theorem hasName_congr (hname : h'.nameOf p = h.nameOf p) (name : List UInt8) :
    h'.hasName name p = h.hasName name p := by
  rw [Bool.eq_iff_iff, ← nameOf_eq_some, ← nameOf_eq_some, hname]

theorem nameOf_withValue (h : Heap) (q : PropertyId) (v : Value) (p : PropertyId) :
    (h.withValue q v).nameOf p = h.nameOf p := by
  unfold nameOf
  rw [get?_withValue]
  split
  · cases h.properties.get? p.cell <;> rfl
  · rfl

/-- Properties that have the names of a list are found under these. -/
theorem mem_names_iff {ids : List PropertyId} {names : List (List UInt8)} (hnames : ids.map h.nameOf = names.map some) :
    name ∈ names ↔ ∃ p ∈ ids, h.hasName name p = true := by
  rw [← List.mem_map_of_injective (Option.some_injective _), ← hnames, List.mem_map]
  simp only [nameOf_eq_some]

theorem find?_eq_none_iff {ids : List PropertyId} {names : List (List UInt8)}
    (hnames : ids.map h.nameOf = names.map some) : ids.find? (h.hasName name) = none ↔ name ∉ names := by
  rw [mem_names_iff hnames, List.find?_eq_none]
  simp

/-- A map has values under its names only. -/
theorem Shows.mem_names (hsh : h.Shows id m) (hs : h.Sound) (name : List UInt8) :
    name ∈ m.names ↔ (m.value name).isSome = true := by
  obtain ⟨cell, hcell, hnames⟩ := hsh.listed
  have hvalue := (hsh.value name).symm.trans (hs.getOwn_eq hcell name)
  rw [Except.ok.injEq] at hvalue
  rw [hvalue, ← not_iff_not, ← find?_eq_none_iff hnames]
  cases hfound : cell.properties.toList.find? (h.hasName name) with
  | none => simp
  | some q =>
    obtain ⟨prop, hprop⟩ := Option.isSome_iff_exists.mp (hs.live _ _ hcell q (List.mem_of_find?_eq_some hfound))
    simp [hprop]

/-! ## Single requests -/

/-- What leaves an object its properties, with their names and values, leaves it its map. -/
theorem Shows.next (hsh : h.Shows id m) (hs : h.Sound) (hs' : h'.Sound) (hcell : h.objects.get? id.cell = some cell)
    (hcell' : h'.objects.get? id.cell = some cell') (hlist : cell'.properties = cell.properties)
    (hproperties : ∀ p ∈ cell.properties.toList, h'.nameOf p = h.nameOf p
      ∧ (h'.properties.get? p.cell).map Property.value = (h.properties.get? p.cell).map Property.value) :
    h'.Shows id m := by
  obtain ⟨cell₀, hcell₀, hnames⟩ := hsh.listed
  rw [hcell] at hcell₀
  cases hcell₀
  refine ⟨⟨cell', hcell', ?_⟩, hsh.nodup, fun name => ?_⟩
  · rw [← hnames, hlist]
    exact List.map_congr_left fun p hp => (hproperties p hp).1
  · rw [← hsh.value name]
    refine hs.getOwn_congr hs' (by rw [hcell, hcell', Option.map_some, Option.map_some, hlist]) ?_
    intro cell₀ hcell₀ p hp
    rw [hcell] at hcell₀
    cases hcell₀
    exact ⟨hasName_congr (hproperties p hp).1 name, (hproperties p hp).2⟩

/-- More texts leave an object its map. -/
theorem Shows.texts (hsh : h.Shows id m) (ht : h.Tidy) (hs' : h'.Sound) (hobjects : h'.objects = h.objects)
    (hproperties : h'.properties = h.properties) (hgrows : h.strings.Grows h'.strings) : h'.Shows id m := by
  obtain ⟨cell, hcell, -⟩ := hsh.listed
  refine hsh.next ht.sound hs' hcell (by rw [hobjects, hcell]) rfl fun p hp => ?_
  rw [nameOf, hproperties]
  refine ⟨Option.bind_congr fun prop hprop => ?_, rfl⟩
  exact (ht.names p.cell prop hprop).1.text?_eq hgrows

/-- The object of a new handle was not there. -/
theorem not_isLive_newCell (hs : h.Sound) {kind : ObjectKind} (ha : (h.newCell kind).1.Addressable) :
    ¬h.IsLive (h.newCell kind).2 := by
  rintro ⟨cell, hcell⟩
  rw [show h.objects.get? (h.newCell kind).2.cell = none from hs.objects.get?_alloc_id ha.objects] at hcell
  cases hcell

theorem Shows.create (hsh : h.Shows id m) (hs : h.Sound) {kind : ObjectKind} (hs' : (h.newCell kind).1.Sound)
    (ha : (h.newCell kind).1.Addressable) : (h.newCell kind).1.Shows id m := by
  obtain ⟨cell, hcell, -⟩ := hsh.listed
  have hlive : h.IsLive id := ⟨cell, hcell⟩
  have hold : id ≠ (h.newCell kind).2 := by
    rintro rfl
    exact not_isLive_newCell hs ha hlive
  have hget := (get?_objects_newCell hs ha id).trans (if_neg hold)
  exact hsh.next hs hs' hcell (hget.trans hcell) rfl fun p _ => ⟨rfl, rfl⟩

/-- A new object has no properties. -/
theorem shows_create (hs : h.Sound) {kind : ObjectKind} (hs' : (h.newCell kind).1.Sound)
    (ha : (h.newCell kind).1.Addressable) : (h.newCell kind).1.Shows (h.newCell kind).2 .empty := by
  have hget := (get?_objects_newCell hs ha _).trans (if_pos rfl)
  exact ⟨⟨_, hget, rfl⟩, List.nodup_nil, fun name => hs'.getOwn_eq hget name⟩

/-- An object and its properties are left as they are. -/
structure Leaves (h h' : Heap) (id : ObjectId) : Prop where
  cell : h'.objects.get? id.cell = h.objects.get? id.cell
  properties : ∀ cell, h.objects.get? id.cell = some cell →
    ∀ p ∈ cell.properties.toList, h'.properties.get? p.cell = h.properties.get? p.cell
  strings : h'.strings = h.strings

theorem Leaves.refl (h : Heap) (id : ObjectId) : h.Leaves h id :=
  ⟨rfl, fun _ _ _ _ => rfl, rfl⟩

theorem Shows.left (hsh : h.Shows id m) (hs : h.Sound) (hs' : h'.Sound) (hleaves : h.Leaves h' id) : h'.Shows id m := by
  obtain ⟨cell, hcell, -⟩ := hsh.listed
  refine hsh.next hs hs' hcell (hleaves.cell.trans hcell) rfl fun p hp => ?_
  rw [nameOf, hleaves.properties cell hcell p hp]
  exact ⟨Option.bind_congr fun prop _ => by rw [Heap.text?, hleaves.strings, Heap.text?], rfl⟩

/-- Setting a property of another object leaves an object as it is. -/
theorem Sound.leaves_set (hs : h.Sound) {obj : ObjectId} (hne : id ≠ obj) (hset : h.set obj key v = .ok () h')
    (ha : h'.Addressable) : h.Leaves h' id := by
  obtain ⟨target, name, htarget, -, ⟨q, hq, rfl⟩ | ⟨-, rfl⟩⟩ := hs.set_cases hset
  · refine ⟨rfl, fun cell hcell p hp => ?_, rfl⟩
    have hother : p ≠ q := by
      rintro rfl
      exact hne (hs.owner_eq hcell htarget hp (List.mem_of_find?_eq_some hq))
    rw [get?_withValue, if_neg hother]
  · exact ⟨by rw [get?_objects_addProperty, if_neg hne], fun _ hcell _ hp => hs.get?_addProperty_of_mem ha hcell hp, rfl⟩

/-- Removing a property of another object leaves an object as it is. -/
theorem Sound.leaves_delete (hs : h.Sound) {obj : ObjectId} (hne : id ≠ obj) {found : Bool}
    (hdelete : h.delete obj key = .ok found h') : h.Leaves h' id := by
  obtain ⟨-, -, -, -, ⟨-, -, rfl⟩ | ⟨-, place, -, -, -, rfl⟩⟩ := hs.delete_cases hdelete
  · exact .refl h' id
  · exact ⟨by rw [get?_withoutProperty, if_neg hne], fun _ _ _ _ => rfl, rfl⟩

/-- Setting a property of an object puts a value under its name. -/
theorem Shows.set (hsh : h.Shows id m) (hs : h.Sound) (hu : h.Unmarked) (hkey : h.text? key = some name)
    (hset : h.set id key v = .ok () h') (ha : h'.Addressable) : h'.Shows id (m.put name v) := by
  have hvalue : ∀ name', h'.getOwn id name' = .ok ((m.put name v).value name') := by
    intro name'
    rw [hs.getOwn_set hu hset ha hkey id name', hsh.value name']
    show _ = Except.ok (if name' = name then some v else m.value name')
    by_cases hname : name' = name
    · rw [if_pos ⟨rfl, hname⟩, if_pos hname]
    · rw [if_neg fun hboth => hname hboth.2, if_neg hname]
  obtain ⟨cell, hcell, hnames⟩ := hsh.listed
  obtain ⟨cell₀, name₀, hcell₀, hkey₀, hcases⟩ := hs.set_cases hset
  rw [hcell] at hcell₀
  rw [hkey] at hkey₀
  cases hcell₀
  cases hkey₀
  obtain ⟨q, hq, rfl⟩ | ⟨hnone, rfl⟩ := hcases
  · -- The name is there, and keeps its place.
    have hmem : name ∈ m.names := (mem_names_iff hnames).2 ⟨q, List.mem_of_find?_eq_some hq, List.find?_some hq⟩
    have hput : (m.put name v).names = m.names := if_pos hmem
    refine ⟨⟨cell, hcell, ?_⟩, by rw [hput]; exact hsh.nodup, hvalue⟩
    rw [hput, ← hnames]
    exact List.map_congr_left fun p _ => nameOf_withValue h q v p
  · -- The name is new, and comes last.
    have hnew : name ∉ m.names := (find?_eq_none_iff hnames).1 hnone
    have hput : (m.put name v).names = m.names ++ [name] := if_neg hnew
    refine ⟨⟨_, (get?_objects_addProperty h id key v id).trans (by rw [if_pos rfl, hcell]; rfl), ?_⟩, ?_, hvalue⟩
    · have hadded : (h.addProperty id key v).nameOf (h.addedProperty key v) = some name := by
        rw [nameOf, get?_addProperty hs ha, if_pos rfl]
        exact hkey
      rw [hput, Array.toList_push, List.map_append, List.map_append, ← hnames, List.map_singleton, List.map_singleton,
        hadded]
      refine congrArg (· ++ _) (List.map_congr_left fun p hp => ?_)
      rw [nameOf, hs.get?_addProperty_of_mem ha hcell hp]
      rfl
    · rw [hput]
      exact List.nodup_append.2 ⟨hsh.nodup, List.nodup_singleton _, fun a ha b hb heq =>
        hnew (List.mem_singleton.1 hb ▸ heq ▸ ha)⟩

/-- Removing a property of an object takes its name away. -/
theorem Shows.delete (hsh : h.Shows id m) (hs : h.Sound) (hs' : h'.Sound) (hkey : h.text? key = some name)
    {found : Bool} (hdelete : h.delete id key = .ok found h') : h'.Shows id (m.drop name) := by
  obtain ⟨cell, hcell, hnames⟩ := hsh.listed
  obtain ⟨cell₀, name₀, hcell₀, hkey₀, hcases⟩ := hs.delete_cases hdelete
  rw [hcell] at hcell₀
  rw [hkey] at hkey₀
  cases hcell₀
  cases hkey₀
  obtain ⟨-, hnone, rfl⟩ | ⟨-, place, q, hq, hplace, rfl⟩ := hcases
  · -- There is nothing to take away.
    have hnot : name ∉ m.names := (find?_eq_none_iff hnames).1 hnone
    have hvalue : m.value name = none := by
      have hmem := hsh.mem_names hs name
      rw [iff_false_left hnot] at hmem
      simpa using hmem
    have hdrop : m.drop name = m := by
      unfold NameMap.drop
      rw [List.erase_of_not_mem hnot]
      congr 1
      funext n
      split
      · rename_i heq
        rw [heq, hvalue]
      · rfl
    rw [hdrop]
    exact hsh
  · have hget := h.get?_withoutProperty id place id
    rw [if_pos rfl, hcell, Option.map_some] at hget
    have hasq : h.hasName name q = true := List.find?_some hq
    -- The place of the property is the place of its name, which does not come twice.
    have hnames' : (cell.properties.toList.eraseIdx place).map h.nameOf = (m.names.erase name).map some := by
      have hname : m.names[place]? = some name := by
        have hplaced := congrArg (·[place]?) hnames
        rw [List.getElem?_map, List.getElem?_map, hplace, Option.map_some,
          nameOf_eq_some.2 hasq] at hplaced
        obtain ⟨name', hname', heq⟩ := Option.map_eq_some_iff.1 hplaced.symm
        rw [hname', ← Option.some.inj heq]
      obtain ⟨hlt, hname⟩ := List.getElem?_eq_some_iff.1 hname
      rw [← List.eraseIdx_map, hnames, List.eraseIdx_map, ← hname, hsh.nodup.erase_getElem]
    refine ⟨⟨_, hget, ?_⟩, hsh.nodup.erase name, fun name' => ?_⟩
    · rw [toList_eraseIdxIfInBounds]
      exact hnames'
    · have hfinds := hs'.getOwn_eq hget name'
      rw [toList_eraseIdxIfInBounds,
        show (h.withoutProperty id place).hasName name' = h.hasName name' from rfl] at hfinds
      rw [hfinds]
      show _ = Except.ok (if name' = name then none else m.value name')
      by_cases hname : name' = name
      · subst hname
        rw [if_pos rfl, (find?_eq_none_iff hnames').2 hsh.nodup.not_mem_erase]
        rfl
      · have hother : h.hasName name' q = false := by
          rw [← Bool.not_eq_true]
          exact fun hhas => hname (hasName_unique hasq hhas)
        rw [if_neg hname, find?_eraseIdx hplace hother, ← hsh.value name', hs.getOwn_eq hcell]
        rfl

/-- A collection that keeps an object keeps its properties in order, and moves their values. -/
theorem Shows.collected (hsh : h.Shows id m) (ht : h.Tidy) {roots : List Value} {moves : StringHeap.Relocation}
    (hc : Collected h roots h' moves) (hid : h.ReachesObject roots id) :
    h'.Shows id (m.map (StringHeap.relocate moves)) := by
  obtain ⟨cell, hcell, hnames⟩ := hsh.listed
  refine ⟨⟨relocateCell moves cell, (hc.object_iff _ _).2 ⟨cell, hcell, hid, rfl⟩, ?_⟩, hsh.nodup, fun name => ?_⟩
  · refine Eq.trans ?_ hnames
    rw [properties_relocateCell]
    refine List.map_congr_left fun p hp => ?_
    obtain ⟨hget, htext⟩ := hc.property_eq (ht.legible id) hid hcell hp
    rw [nameOf, nameOf, hget, Option.bind_map]
    exact Option.bind_congr fun prop hprop => (htext prop hprop).2
  · rw [hc.getOwn_eq ht.sound (ht.legible id) hid hcell, hsh.value name]
    rfl

/-! ## Which objects are there -/

theorem Sound.isLive_set (hs : h.Sound) {obj : ObjectId} (hset : h.set obj key v = .ok () h') (id : ObjectId) :
    h'.IsLive id ↔ h.IsLive id := by
  obtain ⟨target, name, htarget, -, ⟨q, -, rfl⟩ | ⟨-, rfl⟩⟩ := hs.set_cases hset
  · rfl
  · unfold IsLive
    rw [get?_objects_addProperty]
    split
    · rename_i heq
      rw [heq, htarget]
      simp
    · rfl

theorem Sound.isLive_delete (hs : h.Sound) {obj : ObjectId} {found : Bool} (hdelete : h.delete obj key = .ok found h')
    (id : ObjectId) : h'.IsLive id ↔ h.IsLive id := by
  obtain ⟨target, name, htarget, -, ⟨-, -, rfl⟩ | ⟨-, place, -, -, -, rfl⟩⟩ := hs.delete_cases hdelete
  · rfl
  · unfold IsLive
    rw [get?_withoutProperty]
    split
    · rename_i heq
      rw [heq, htarget]
      simp
    · rfl

/-- A property can be set in any object that is there, under any text. -/
theorem Sound.exists_set (hs : h.Sound) (hid : h.IsLive id) (hkey : h.text? key = some name) (v : Value) :
    ∃ k, h.set id key v = .ok () k := by
  obtain ⟨cell, hcell⟩ := hid
  obtain ⟨found, hfind, -⟩ := hs.find_eq hcell name
  simp only [Heap.set, keyBytes, hkey, hfind]
  rcases found with _ | entry
  · exact ⟨_, rfl⟩
  · exact ⟨_, rfl⟩

theorem Sound.exists_delete (hs : h.Sound) (hid : h.IsLive id) (hkey : h.text? key = some name) :
    ∃ found k, h.delete id key = .ok found k := by
  obtain ⟨cell, hcell⟩ := hid
  obtain ⟨found, hfind, -⟩ := hs.find_eq hcell name
  simp only [Heap.delete, keyBytes, hkey, hfind]
  rcases found with _ | entry
  · exact ⟨_, _, rfl⟩
  · exact ⟨_, _, rfl⟩

variable {maps : Maps}

/-- What leaves all objects that are there, and no others, with their maps. -/
theorem Refines.next (hr : h.Refines maps) (hlive : ∀ id, h'.IsLive id ↔ h.IsLive id)
    (hshows : ∀ id m, h.Shows id m → h'.Shows id m) : h'.Refines maps :=
  ⟨fun id => (hlive id).trans (hr.live_iff id), fun id m hm => hshows id m (hr.shows id m hm)⟩

/-- What leaves all objects that are there, and no others, with their maps, except for one that it changes. -/
theorem Refines.update (hr : h.Refines maps) {obj : ObjectId} {f : NameMap → NameMap}
    (hlive : ∀ id, h'.IsLive id ↔ h.IsLive id) (hother : ∀ id m, id ≠ obj → h.Shows id m → h'.Shows id m)
    (hobj : ∀ m, h.Shows obj m → h'.Shows obj (f m)) :
    h'.Refines (maps.change obj f) where
  live_iff id := by
    rw [hlive id, hr.live_iff id]
    unfold Maps.change
    split
    · rw [Option.isSome_map]
    · rfl
  shows id m hm := by
    unfold Maps.change at hm
    split at hm
    · rename_i heq
      subst heq
      obtain ⟨m₀, hm₀, rfl⟩ := Option.map_eq_some_iff.1 hm
      exact hobj m₀ (hr.shows id m₀ hm₀)
    · rename_i hne
      exact hother id m hne (hr.shows id m hm)

/-- A change of an object that is not there is none. -/
theorem Refines.absent (hr : h.Refines maps) {obj : ObjectId} (hobj : ¬h.IsLive obj) (f : NameMap → NameMap) :
    h.Refines (maps.change obj f) :=
  hr.update (fun _ => Iff.rfl) (fun _ _ _ hsh => hsh) fun _ hsh =>
    absurd (let ⟨cell, hcell, _⟩ := hsh.listed; ⟨cell, hcell⟩) hobj

theorem Refines.create (hr : h.Refines maps) (ht : h.Tidy) (kind : ObjectKind)
    (ha : (h.newCell kind).1.Addressable) : (h.newCell kind).1.Refines (h.mapsAfter maps (.create kind)) := by
  have hs' := (h.keeps_newCell kind).sound ha ht.unmarked ht.sound
  refine ⟨fun id => ?_, fun id m hm => ?_⟩
  · dsimp only [IsLive, mapsAfter]
    rw [get?_objects_newCell ht.sound ha]
    split
    · simp
    · exact hr.live_iff id
  · dsimp only [mapsAfter] at hm
    split at hm
    · rename_i heq
      cases hm
      exact heq ▸ shows_create ht.sound hs' ha
    · exact (hr.shows id m hm).create ht.sound hs' ha

theorem Refines.set (hr : h.Refines maps) (ht : h.Tidy) (obj : ObjectId) (key v : Value)
    (ha : (leftBy (h.set obj key v)).Addressable) :
    (leftBy (h.set obj key v)).Refines (h.mapsAfter maps (.set obj key v)) := by
  have hs' := (h.keeps_set obj key v).sound ha ht.unmarked ht.sound
  dsimp only [mapsAfter]
  cases hset : h.set obj key v with
  | error e k =>
    rw [show leftBy (.error e k) = h from error_of_set hset]
    split
    · rename_i name hkey
      refine hr.absent (fun hobj => ?_) _
      obtain ⟨k', hok⟩ := ht.sound.exists_set hobj hkey v
      rw [hset] at hok
      cases hok
    · exact hr
  | ok u k =>
    rw [hset] at ha hs'
    obtain ⟨name, hkey⟩ := text?_of_set hset
    simp only [hkey]
    refine hr.update (ht.sound.isLive_set hset) (fun id m hne hsh => ?_) fun m hsh => ?_
    · exact hsh.left ht.sound hs' (ht.sound.leaves_set hne hset ha)
    · exact hsh.set ht.sound ht.unmarked hkey hset ha

theorem Refines.delete (hr : h.Refines maps) (ht : h.Tidy) (obj : ObjectId) (key : Value)
    (ha : (leftBy (h.delete obj key)).Addressable) :
    (leftBy (h.delete obj key)).Refines (h.mapsAfter maps (.delete obj key)) := by
  have hs' := (h.keeps_delete obj key).sound ha ht.unmarked ht.sound
  dsimp only [mapsAfter]
  cases hdelete : h.delete obj key with
  | error e k =>
    rw [show leftBy (.error e k) = h from error_of_delete hdelete]
    split
    · rename_i name hkey
      refine hr.absent (fun hobj => ?_) _
      obtain ⟨found, k', hok⟩ := ht.sound.exists_delete hobj hkey
      rw [hdelete] at hok
      cases hok
    · exact hr
  | ok found k =>
    rw [hdelete] at ha hs'
    obtain ⟨-, name, -, hkey, -⟩ := ht.sound.delete_cases hdelete
    simp only [hkey]
    refine hr.update (ht.sound.isLive_delete hdelete) (fun id m hne hsh => ?_) fun m hsh => ?_
    · exact hsh.left ht.sound hs' (ht.sound.leaves_delete hne hdelete)
    · exact hsh.delete ht.sound hs' hkey hdelete

theorem Refines.collect (hr : h.Refines maps) (ht : h.Tidy) {roots : List Value} (hroots : ∀ v ∈ roots, h.Knows v)
    (full : Bool) (slack : Nat) :
    (h.collect roots full slack).1.Refines (h.mapsAfter maps (.collect roots full slack)) := by
  have hc := collected_collect ht.sound ht.unmarked (ht.rooted hroots) full slack
  dsimp only [mapsAfter]
  refine ⟨fun id => ?_, fun id m hm => ?_⟩
  · rw [IsLive]
    simp only [hc.object_iff]
    split
    · rename_i hid
      rw [Option.isSome_map, ← hr.live_iff id]
      exact ⟨fun ⟨_, cell, hcell, _⟩ => ⟨cell, hcell⟩, fun ⟨cell, hcell⟩ => ⟨_, cell, hcell, hid, rfl⟩⟩
    · rename_i hid
      exact iff_of_false (fun ⟨_, _, _, hreach, _⟩ => hid hreach) Bool.false_ne_true
  · split at hm
    · rename_i hid
      obtain ⟨m₀, hm₀, rfl⟩ := Option.map_eq_some_iff.1 hm
      exact (hr.shows id m₀ hm₀).collected ht hc hid
    · cases hm

/-- A request that is allowed changes the maps as it is to. -/
theorem Refines.after (hr : h.Refines maps) (ht : h.Tidy) {q : Request} (hallows : h.Allows q)
    (ha : (h.after q).Addressable) : (h.after q).Refines (h.mapsAfter maps q) := by
  have hs' := (h.keeps_after q).sound ha ht.unmarked ht.sound
  cases q with
  | create kind => exact hr.create ht kind ha
  | text bytes =>
    obtain ⟨hobjects, hproperties, -⟩ := h.after_text bytes
    exact hr.next (fun id => by rw [IsLive, hobjects, IsLive]) fun id m hsh =>
      hsh.texts ht hs' hobjects hproperties (grows_after hallows (by simp))
  | lend lender bytes =>
    obtain ⟨hobjects, hproperties, -⟩ := h.after_lend lender bytes
    exact hr.next (fun id => by rw [IsLive, hobjects, IsLive]) fun id m hsh =>
      hsh.texts ht hs' hobjects hproperties (grows_after hallows (by simp))
  | set obj key v => exact hr.set ht obj key v ha
  | delete obj key => exact hr.delete ht obj key ha
  | collect roots full slack => exact hr.collect ht hallows full slack

/-- The maps behind a row of requests are those that the objects show. -/
theorem Refines.run (hr : h.Refines maps) (ht : h.Tidy) {qs : List Request} (hallows : h.AllowsAll qs)
    (ha : (h.run qs).Addressable) : (h.run qs).Refines (h.mapsBehind maps qs) := by
  induction qs generalizing h maps with
  | nil => exact hr
  | cons q qs ih =>
    have hq : (h.after q).Addressable := Addressable.of_run ha
    exact ih (hr.after ht hallows.1 hq) (ht.after hallows.1 hq) hallows.2 ha

/-! ## Lists of properties -/

theorem namesOf_eq {ids : List PropertyId} (hlive : ∀ p ∈ ids, (h.properties.get? p.cell).isSome) :
    ∃ names, h.namesOf ids = .ok names
      ∧ names.map some = ids.map fun p => (h.properties.get? p.cell).map Property.name := by
  induction ids with
  | nil => exact ⟨[], rfl, rfl⟩
  | cons p ids ih =>
    obtain ⟨hp, hids⟩ := List.forall_mem_cons.1 hlive
    obtain ⟨prop, hprop⟩ := Option.isSome_iff_exists.1 hp
    obtain ⟨names, hnames, heq⟩ := ih hids
    refine ⟨prop.name :: names, ?_, ?_⟩
    · rw [namesOf, Heap.property, hprop, hnames]
      rfl
    · rw [List.map_cons, List.map_cons, heq, hprop]
      rfl

/-- The list of properties of an object is a map, whatever is asked. -/
structure Lists (h : Heap) (id : ObjectId) (m : NameMap) : Prop where
  /-- The list is one of properties that are there, none of them twice, and these have the names of the map. -/
  listed : ∃ cell, h.objects.get? id.cell = some cell ∧ cell.properties.toList.Nodup ∧
    (∀ p ∈ cell.properties.toList, (h.properties.get? p.cell).isSome) ∧
    cell.properties.toList.map h.nameOf = m.names.map some
  /-- Another object has none of these properties. -/
  apart : ∀ id' cell cell', id' ≠ id → h.objects.get? id.cell = some cell → h.objects.get? id'.cell = some cell' →
    ∀ p ∈ cell.properties.toList, p ∉ cell'.properties.toList
  /-- No name comes twice. -/
  nodup : m.names.Nodup
  mem_names : ∀ name, name ∈ m.names ↔ (m.value name).isSome = true
  value : ∀ name, h.getOwn id name = .ok (m.value name)
  /-- It does not matter how a name is stored. -/
  valueOfKey : ∀ key name, h.text? key = some name → (h.keyBytes key).bind (h.getOwn id) = .ok (m.value name)
  /-- The names come in the order of the map, all together and one by one. -/
  keys : ∃ keys, h.keys id = .ok keys ∧ keys.map h.text? = m.names.map some ∧ ∀ n, h.nthKey id n = .ok keys[n]?
  set : ∀ key name v, h.text? key = some name → ∃ k, h.set id key v = .ok () k
  delete : ∀ key name, h.text? key = some name → ∃ k, h.delete id key = .ok (m.value name).isSome k
  /-- What is set or removed in another object leaves this one as it is. -/
  others : ∀ obj key, id ≠ obj →
    (∀ v, (leftBy (h.set obj key v)).Addressable → h.Leaves (leftBy (h.set obj key v)) id) ∧
      h.Leaves (leftBy (h.delete obj key)) id

theorem Shows.keys (hsh : h.Shows id m) (hs : h.Sound) :
    ∃ keys, h.keys id = .ok keys ∧ keys.map h.text? = m.names.map some ∧ ∀ n, h.nthKey id n = .ok keys[n]? := by
  obtain ⟨cell, hcell, hnames⟩ := hsh.listed
  have hlive := hs.live id.cell cell hcell
  obtain ⟨keys, hkeys, heq⟩ := namesOf_eq hlive
  have hget : h.cell id = .ok cell := by rw [Heap.cell, hcell]
  refine ⟨keys, by rw [Heap.keys, hget]; exact hkeys, ?_, fun n => ?_⟩
  · rw [← hnames]
    have htexts := congrArg (List.map fun key => Option.bind key h.text?) heq
    rw [List.map_map, List.map_map] at htexts
    refine htexts.trans (List.map_congr_left fun p _ => ?_)
    exact Option.bind_map
  · have hplace : keys[n]?.map some
        = cell.properties[n]?.map fun p => (h.properties.get? p.cell).map Property.name := by
      rw [← List.getElem?_map, heq, List.getElem?_map, Array.getElem?_toList]
    rw [Heap.nthKey, hget]
    dsimp only
    cases hp : cell.properties[n]? with
    | none =>
      rw [hp] at hplace
      rw [Option.map_eq_none_iff.1 hplace]
    | some p =>
      rw [hp] at hplace
      obtain ⟨prop, hprop⟩ := Option.isSome_iff_exists.1 (hlive p (Array.mem_toList_iff.2 (Array.mem_of_getElem? hp)))
      rw [Option.map_some, hprop] at hplace
      obtain ⟨key, hkey, hsome⟩ := Option.map_eq_some_iff.1 hplace
      simp only [Heap.property, hprop, hkey]
      exact congrArg Except.ok hsome.symm

end Heap

end ScriptEngine
