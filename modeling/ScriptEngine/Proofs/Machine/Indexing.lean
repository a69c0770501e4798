import ScriptEngine.Proofs.Heap.Delegation
import ScriptEngine.Proofs.Heap.PairedChanges
import ScriptEngine.Proofs.Machine.Variables
import ScriptEngine.Proofs.Number.Text
/-!
Objects and arrays as maps.

A key names an entry by its text. On an array, digits up to the largest index name an item, whichever way they are
written; every other text names a property, as on a plain object. A write sets one property (`SetsProperty`) or one item
(`SetsItem`), and reads find what was written under the key and what was there before under every other one
(`indexing_as_map`). The names of the properties that objects and arrays have by their kind are left out, and so is
the delegation name, since a read under another name may go on where it leads.
-/

namespace ScriptEngine

variable {W : Type} {env : Embedding W} {m m' : Machine W} {h h' : Heap} {id id' : ObjectId} {key v holder : Value}
  {name name' : List UInt8} {i j : Nat}

/-! ## Texts that are stored -/

namespace StringHeap

variable {s t : StringHeap}

/-- A record behind all others is found at its offset. -/
theorem span?_of_appendRecord {text : ByteArray} (hdata : t.data = appendRecord s.data text)
    (hshort : text.size < UInt64.size) :
    t.span? s.data.size = some (s.data.size + Varint.length text.size, text.size) := by
  have hlist := toList_appendRecord s.data text
  have hlength := congrArg List.length hlist
  rw [List.length_append, length_record] at hlength
  have hsize : t.data.size = s.data.size + (Varint.length text.size + text.size + 1) := by
    rw [hdata]
    exact hlength
  have hdecode : Varint.decodeAt (Buffer.byte? t.data) s.data.size = some (text.size, Varint.length text.size) :=
    decodeAt_record (by rw [hdata, hlist, List.append_nil]) hshort
  simp only [span?, hdecode]
  rw [if_pos (by omega)]

theorem size_of_allocRecord {text : ByteArray} (halloc : s.allocRecord text = .ok v t) :
    t.data.size = s.data.size + (Varint.length text.size + text.size + 1) := by
  unfold allocRecord at halloc
  split at halloc
  · cases halloc
    have hlength := congrArg List.length (toList_appendRecord s.data text)
    rwa [List.length_append, length_record] at hlength
  · cases halloc

/-- While offsets are in range, a text is stored as a record, and read there. -/
theorem exists_allocRecord {text : ByteArray} (hroom : s.data.size < payloadSize) (hshort : text.size < UInt64.size) :
    ∃ v t, s.allocRecord text = .ok v t ∧ t.text? v = some text.data.toList := by
  have hword : (UInt64.ofNat s.data.size).toNat = s.data.size :=
    UInt64.toNat_ofNat_of_lt' (Nat.lt_trans hroom (by decide))
  have hoffset : Value.ofOwned? (UInt64.ofNat s.data.size) = .ok (.string (.owned ⟨s.data.size, hroom⟩)) := by
    simp only [Value.ofOwned?, Payload.ofWord?, hword, dif_pos hroom, Except.map]
  refine ⟨.string (.owned ⟨s.data.size, hroom⟩),
    { s with data := appendRecord s.data text, size := sizeFor s.size (appendRecord s.data text).size }, ?_, ?_⟩
  · rw [allocRecord, hoffset]
  · have hspan := span?_of_appendRecord (s := s)
      (t := { s with data := appendRecord s.data text, size := sizeFor s.size (appendRecord s.data text).size })
      rfl hshort
    have hshape : (appendRecord s.data text).data.toList
        = (s.data.data.toList ++ Varint.encode text.size) ++ (text.data.toList ++ [0]) := by
      rw [toList_appendRecord, record, List.append_assoc, List.append_assoc]
      rfl
    refine congrArg some ((bytes_owned hspan).trans ?_)
    rw [hshape, List.drop_left' (by rw [List.length_append, Varint.length_encode]; rfl)]
    exact List.take_left' rfl

/-- So a text is stored, and read where it is. -/
theorem exists_alloc {bytes : List UInt8} (s : StringHeap) (hroom : s.data.size < payloadSize)
    (hshort : bytes.length < UInt64.size) : ∃ v t, s.alloc bytes = .ok v t ∧ t.text? v = some bytes := by
  unfold alloc
  cases hinline : Value.ofInline? bytes with
  | some v =>
    refine ⟨v, s, rfl, ?_⟩
    obtain ⟨text, htext, rfl⟩ := Option.map_eq_some_iff.mp hinline
    unfold InlineText.ofBytes? at htext
    split at htext <;> cases htext
    rfl
  | none => simpa using @exists_allocRecord s bytes.toByteArray hroom (by simpa using hshort)

theorem text?_of_alloc {bytes : List UInt8} (halloc : s.alloc bytes = .ok v t) (hfits : t.data.size < payloadSize) :
    t.text? v = some bytes := by
  have hbounds : s.data.size < payloadSize ∧ bytes.length < UInt64.size := by
    unfold alloc at halloc
    split at halloc
    · rename_i hinline
      cases halloc
      refine ⟨hfits, Nat.lt_of_le_of_lt ?_ (by decide : maxInlineLength < UInt64.size)⟩
      obtain ⟨text, htext, -⟩ := Option.map_eq_some_iff.mp hinline
      unfold InlineText.ofBytes? at htext
      split at htext
      · assumption
      · cases htext
    · have hsize := size_of_allocRecord halloc
      rw [List.size_toByteArray] at hsize
      exact ⟨by omega, Nat.lt_trans (by omega) (by decide : payloadSize < UInt64.size)⟩
  obtain ⟨w, u, heq, htext⟩ := exists_alloc s hbounds.1 hbounds.2
  cases halloc.symm.trans heq
  exact htext

end StringHeap

/-! ## Items -/

/-- A write to an item makes the array as long as the item needs, with nothing in between. -/
theorem Heap.size_setItem (items : Array Value) (i : Nat) (v : Value) :
    (setItem items i v).size = max items.size (i + 1) := by
  unfold setItem
  split_ifs with hi
  · rw [Array.size_setIfInBounds]
    omega
  · rw [Array.size_push, Array.size_append, Array.size_replicate]
    omega

theorem Heap.getElem?_setItem (items : Array Value) (i : Nat) (v : Value) (j : Nat) :
    (setItem items i v)[j]? = if j = i then some v
      else if j < i then some (items[j]?.getD .undefined) else items[j]? := by
  unfold setItem
  by_cases hi : i < items.size
  · rw [if_pos hi, Array.getElem?_setIfInBounds]
    by_cases hj : j = i
    · rw [if_pos hj, if_pos hj.symm, if_pos hi]
    · rw [if_neg hj, if_neg (Ne.symm hj)]
      split_ifs with hlt
      · rw [Array.getElem?_eq_getElem (Nat.lt_trans hlt hi), Option.getD_some]
      · rfl
  · have hsize : (items ++ Array.replicate (i - items.size) Value.undefined).size = i := by
      rw [Array.size_append, Array.size_replicate]
      omega
    rw [if_neg hi, Array.getElem?_push, hsize, Array.getElem?_append, Array.getElem?_replicate]
    split_ifs with hj hold hlt hroom hlt
    · rfl
    · rw [Array.getElem?_eq_getElem hold, Option.getD_some]
    · rfl
    · rw [Array.getElem?_eq_none (Nat.not_lt.mp hold), Option.getD_none]
    · omega
    · omega
    · rw [Array.getElem?_eq_none (Nat.not_lt.mp hold)]

namespace Heap

/-! ## Look-ups -/

/-- A look-up goes by what objects hold under the name and under the delegation name. -/
theorem getFrom_congr (hown : ∀ o, h'.getOwn o name = h.getOwn o name)
    (hdelegate : ∀ o, h'.getOwn o delegateKey = h.getOwn o delegateKey) (seen : List ObjectId) (obj : ObjectId)
    (limit : Nat) : h'.getFrom name seen obj limit = h.getFrom name seen obj limit := by
  induction limit generalizing seen obj with
  | zero => rfl
  | succ limit ih => simp only [getFrom, hown, hdelegate, ih]

theorem get_of_getOwn (hown : h.getOwn id name = .ok (some v)) : h.get id name = .ok (some v) := by
  unfold get getFrom
  simp [hown]

/-- The items of an object are part of what it is. -/
theorem items_congr
    (hkind : (h'.objects.get? id.cell).map ObjectCell.kind = (h.objects.get? id.cell).map ObjectCell.kind) :
    h'.items id = h.items id := by
  unfold items cell
  cases hcell : h.objects.get? id.cell with
  | none =>
    rw [hcell, Option.map_none, Option.map_eq_none_iff] at hkind
    rw [hkind]
  | some cell =>
    rw [hcell, Option.map_some, Option.map_eq_some_iff] at hkind
    obtain ⟨cell', hcell', hkind⟩ := hkind
    obtain ⟨properties, kind⟩ := cell
    obtain ⟨properties', kind'⟩ := cell'
    obtain rfl : kind' = kind := hkind
    rw [hcell']
    cases kind' <;> rfl

/-! ## Writes -/

/-- The object holds the value under the name, and everything else is as it was. -/
structure SetsProperty (h : Heap) (id : ObjectId) (name : List UInt8) (v : Value) (h' : Heap) : Prop where
  own : ∀ o n, h'.getOwn o n = if o = id ∧ n = name then .ok (some v) else h.getOwn o n
  items : ∀ o, h'.items o = h.items o
  objects : h'.objects.cells.size = h.objects.cells.size
  texts : h.strings.Extends h'.strings

/-- The array has the value as an item, and everything else is as it was. -/
structure SetsItem (h : Heap) (id : ObjectId) (i : Nat) (v : Value) (h' : Heap) : Prop where
  own : ∀ o n, h'.getOwn o n = h.getOwn o n
  items : ∃ items, h.items id = .ok items ∧ h'.items id = .ok (setItem items i v)
  objects : h'.objects.cells.size = h.objects.cells.size
  texts : h.strings.Extends h'.strings

theorem Sound.setsProperty (hs : h.Sound) (hu : h.Unmarked) (hset : h.set id key v = .ok () h') (ha : h'.Addressable)
    (hkey : h.text? key = some name) : h.SetsProperty id name v h' := by
  refine ⟨hs.getOwn_set hu hset ha hkey, ?_, ?_, ?_⟩
  all_goals obtain ⟨cell, name, hcell, -, ⟨p, -, rfl⟩ | ⟨-, rfl⟩⟩ := hs.set_cases hset
  · exact fun o => rfl
  · refine fun o => items_congr ?_
    rw [get?_objects_addProperty]
    split_ifs with ho
    · rw [ho, Option.map_map]
      rfl
    · rfl
  · rfl
  · exact Arena.size_cells_modify _ _ _
  · exact .refl _
  · exact .refl _

/-- More texts leave what objects hold. -/
theorem Sound.getOwn_of_texts (hs : h.Sound) (hs' : h'.Sound) (hl : h.Legible id) (hobjects : h'.objects = h.objects)
    (hproperties : h'.properties = h.properties) (hext : h.strings.Extends h'.strings) (name : List UInt8) :
    h'.getOwn id name = h.getOwn id name :=
  hs.getOwn_congr hs' (by rw [hobjects]) fun cell hcell p hp =>
    ⟨hasName_of_extends (by rw [hproperties]) hext (hl cell hcell p hp), by rw [hproperties]⟩

/-- A name that is stored first is set like one that is there. -/
theorem Sound.setsProperty_newString (hs : h.Sound) (hu : h.Unmarked) (hl : ∀ o, h.Legible o) {stored : Heap}
    (hstore : h.newString name = .ok key stored) (hset : stored.set id key v = .ok () h') (hfits : h'.Fits) :
    h.SetsProperty id name v h' := by
  have hgrows := grows_set stored id key v
  rw [hset] at hgrows
  have hstrings : stored.strings.data.size < payloadSize := Nat.lt_of_le_of_lt hgrows.strings hfits.strings
  have hkeeps := (grows_newString h name).keeps
  have hext := h.strings.extends_alloc name
  rw [hstore] at hkeeps
  rw [newString_eq] at hstore
  split at hstore <;> cases hstore
  rename_i strings heq
  rw [heq] at hext
  have hkey := StringHeap.text?_of_alloc heq hstrings
  have hs' := hkeeps.sound (hgrows.keeps.addressable hfits.addressable) hu hs
  have hsets := hs'.setsProperty (hkeeps.unmarked hu) hset hfits.addressable hkey
  have hown (o : ObjectId) (n : List UInt8) := hs.getOwn_of_texts hs' (hl o) rfl rfl hext n
  exact ⟨fun o n => by rw [hsets.own, hown], hsets.items, hsets.objects,
    ⟨hext.data.trans hsets.texts.data, hext.borrowed.trans hsets.texts.borrowed⟩⟩

/-- What is done to the contents of an object leaves what objects hold. -/
theorem Sound.getOwn_modifyCell (hs : h.Sound) {f : ObjectCell → ObjectCell}
    (hf : ∀ cell, (f cell).properties = cell.properties) (hs' : (h.modifyCell id f).Sound) (o : ObjectId)
    (n : List UInt8) : (h.modifyCell id f).getOwn o n = h.getOwn o n :=
  hs.getOwn_congr hs' (h.properties_modifyCell hf o id) fun _ _ _ _ => ⟨rfl, rfl⟩

theorem Sound.setsItem (hs : h.Sound) (hu : h.Unmarked) (hset : h.arraySet id i v = .ok () h') (ha : h'.Addressable) :
    h.SetsItem id i v h' := by
  have hkeeps := h.keeps_modifyItems id fun items => setItem items i v
  unfold arraySet at hset
  rw [hset] at hkeeps
  have hs' : h'.Sound := hkeeps.sound ha hu hs
  unfold modifyItems at hset
  split at hset <;> cases hset
  rename_i properties items hcell
  refine ⟨hs.getOwn_modifyCell (fun cell => ?_) hs', ⟨items, ?_, ?_⟩, Arena.size_cells_modify _ _ _, .refl _⟩
  · obtain ⟨properties, kind⟩ := cell
    cases kind <;> rfl
  · unfold Heap.items
    rw [hcell]
  · unfold Heap.items Heap.cell
    rw [get?_modifyCell, if_pos rfl, cell_eq_ok.mp hcell]
    rfl

end Heap

namespace Machine

/-- The property of a kind that a name means is in the table under that name. -/
theorem mem_names_of_ofName {p : KindProperty} (hp : p ≠ .other) (h : KindProperty.ofName name = p) :
    (name, p) ∈ KindProperty.names := by
  unfold KindProperty.ofName at h
  cases hfound : KindProperty.names.find? (fun entry => entry.1 == name) with
  | none =>
    rw [hfound] at h
    exact absurd h.symm hp
  | some entry =>
    rw [hfound] at h
    obtain rfl : entry.1 = name := by simpa using List.find?_some hfound
    obtain rfl : entry.2 = p := h
    exact List.mem_of_find?_eq_some hfound

/-- The names of the properties that objects and arrays have by their kind. -/
def kindNames : Value → List (List UInt8)
  | .array _ => [Text.asciiBytes "apply", Text.asciiBytes "length", Text.asciiBytes "push"]
  | _ => [Text.asciiBytes "apply"]

/-- A key names the same index, whatever kind of value it is, as its text does. -/
theorem keyIndex?_of_textOf (hkey : h.textOf key = .ok name) : keyIndex? key name = nameIndex? name := by
  cases key with
  | number n =>
    obtain rfl := Except.ok.inj hkey
    exact keyIndex?_number n
  | _ => rfl

theorem textOf_of_readable (hext : h.strings.Extends h'.strings) (hkey : h.strings.isReadable key = true) :
    h'.textOf key = h.textOf key := by
  cases key with
  | string r => exact congrArg Except.ok (Option.some.inj (hext.text? hkey))
  | _ => rfl

/-! ## Writing -/

/-- The text of a key that is a text. -/
theorem text?_of_textOf (hstring : key.isString = true) (hkey : h.textOf key = .ok name) : h.text? key = some name := by
  cases key with
  | string r => exact congrArg some (Except.ok.inj hkey)
  | _ => cases hstring

/-- What a look at the machine finds. -/
theorem eq_of_inspect {α : Type} {f : Machine W → Except Error α} {a b : α} (hf : f m = .ok a)
    (h : inspect f m = .ok b m') : b = a ∧ m' = m := by
  unfold inspect at h
  rw [hf] at h
  cases h
  exact ⟨rfl, rfl⟩

/-- A named write sets a property, under a key that is a text or becomes one. -/
theorem setsProperty_of_setNamed (hs : m.heap.Sound) (hu : m.heap.Unmarked) (hl : ∀ o, m.heap.Legible o)
    (hkey : m.heap.textOf key = .ok name) (hset : setNamed id key v m = .ok () m') (hfits : m'.heap.Fits) :
    m.heap.SetsProperty id name v m'.heap := by
  unfold setNamed at hset
  obtain ⟨text, m₁, hstring, hwrite⟩ := bind_eq_ok.mp hset
  obtain ⟨h', hheap, rfl⟩ := set_of_onHeap hwrite
  unfold keyString at hstring
  split_ifs at hstring with hkind
  · cases hstring
    exact hs.setsProperty hu hheap hfits.addressable (text?_of_textOf hkind hkey)
  · obtain ⟨bytes, m₂, hbytes, hstore⟩ := bind_eq_ok.mp hstring
    obtain ⟨rfl, rfl⟩ := eq_of_inspect hkey hbytes
    unfold allocString onHeap at hstore
    split at hstore
    · rename_i stored heq
      cases hstore
      exact hs.setsProperty_newString hu hl heq hheap hfits
    · cases hstore

/-- A write to an object sets a property; one to an array sets an item if the key names an index, and else a
property. -/
theorem setProperty_cases (hs : m.heap.Sound) (hu : m.heap.Unmarked) (hl : ∀ o, m.heap.Legible o)
    (hholder : holder = .object id ∨ holder = .array id) (hkey : m.heap.textOf key = .ok name)
    (hset : setProperty env holder key v m = .ok () m') (hfits : m'.heap.Fits) :
    (holder = .array id ∧ ∃ i, nameIndex? name = some i ∧ m.heap.SetsItem id i v m'.heap)
    ∨ (holder = .array id → nameIndex? name = none) ∧ m.heap.SetsProperty id name v m'.heap := by
  rcases hholder with rfl | rfl
  · exact .inr ⟨nofun, setsProperty_of_setNamed hs hu hl hkey hset hfits⟩
  · obtain ⟨bytes, m₁, hbytes, hwrite⟩ := bind_eq_ok.mp hset
    obtain ⟨rfl, rfl⟩ := eq_of_inspect hkey hbytes
    rw [keyIndex?_of_textOf hkey] at hwrite
    cases hindex : nameIndex? bytes with
    | none =>
      rw [hindex] at hwrite
      exact .inr ⟨fun _ => rfl, setsProperty_of_setNamed hs hu hl hkey hwrite hfits⟩
    | some i =>
      rw [hindex] at hwrite
      dsimp only [onHeap] at hwrite
      split at hwrite
      · rename_i heq
        cases hwrite
        exact .inl ⟨rfl, i, rfl, hs.setsItem hu heq hfits.addressable⟩
      · cases hwrite

/-! ## Reading -/

/-- A name that is none of a kind's means no property of the kind. -/
theorem ofName_ne (hkind : name ∉ kindNames holder) : KindProperty.ofName name ≠ .apply
    ∧ (∀ id, holder = .array id → KindProperty.ofName name ≠ .push ∧ KindProperty.ofName name ≠ .length) := by
  have htable : ∀ entry ∈ KindProperty.names, (entry.2 = .apply → entry.1 = Text.asciiBytes "apply")
      ∧ (entry.2 = .push → entry.1 = Text.asciiBytes "push")
      ∧ (entry.2 = .length → entry.1 = Text.asciiBytes "length") := by decide
  refine ⟨fun h => hkind ?_, ?_⟩
  · have hname : name = Text.asciiBytes "apply" := (htable _ (mem_names_of_ofName (by decide) h)).1 rfl
    rw [hname]
    unfold kindNames
    split <;> exact List.mem_cons_self
  · rintro id rfl
    refine ⟨fun h => hkind ?_, fun h => hkind ?_⟩
    · have hname : name = Text.asciiBytes "push" := (htable _ (mem_names_of_ofName (by decide) h)).2.1 rfl
      rw [hname]
      exact .tail _ (.tail _ (.head _))
    · have hname : name = Text.asciiBytes "length" := (htable _ (mem_names_of_ofName (by decide) h)).2.2 rfl
      rw [hname]
      exact .tail _ (.head _)

theorem kindProperty_none (hholder : holder = .object id ∨ holder = .array id) (hkind : name ∉ kindNames holder) :
    kindProperty env m holder key name = .ok none := by
  obtain ⟨happly, harray⟩ := ofName_ne hkind
  rcases hholder with rfl | rfl
  · simp only [kindProperty, if_neg happly]
  · obtain ⟨hpush, hlength⟩ := harray _ rfl
    simp only [kindProperty, if_neg happly]
    unfold Heap.arrayProperty
    split
    · contradiction
    · contradiction
    · rfl

/-- A read under a name that is no index goes along delegation. -/
theorem property_named (hholder : holder = .object id ∨ holder = .array id) (hkey : m.heap.textOf key = .ok name)
    (hkind : name ∉ kindNames holder) (hnamed : holder = .array id → nameIndex? name = none) :
    m.property env holder key = (m.heap.get id name).map fun v => v.getD .undefined := by
  simp only [property, hkey, kindProperty_none hholder hkind, bind, Except.bind]
  rcases hholder with rfl | rfl
  · rfl
  · simp only [ownProperty, keyIndex?_of_textOf hkey, hnamed rfl]

/-- A read under an index is one of an item. -/
theorem property_item (hkey : m.heap.textOf key = .ok name) (hkind : name ∉ kindNames (.array id))
    (hindex : nameIndex? name = some i) : m.property env (.array id) key
      = (m.heap.items id).map fun items => items[i]?.getD .undefined := by
  simp only [property, hkey, kindProperty_none (.inr rfl) hkind, bind, Except.bind, ownProperty,
    keyIndex?_of_textOf hkey, hindex]

/-- A read goes by the look-up, or the item, under the name of the key. -/
theorem property_congr (hholder : holder = .object id ∨ holder = .array id) (hkey : m.heap.textOf key = .ok name)
    (hkey' : m'.heap.textOf key = .ok name) (hlength : holder = .array id → name ≠ Text.asciiBytes "length")
    (hget : m'.heap.get id name = m.heap.get id name)
    (hitems : ∀ i, holder = .array id → nameIndex? name = some i →
      (m'.heap.items id).map (fun items => items[i]?.getD .undefined)
        = (m.heap.items id).map fun items => items[i]?.getD .undefined) :
    m'.property env holder key = m.property env holder key := by
  by_cases hkind : name ∈ kindNames holder
  · -- The functions that objects and arrays have by their kind are the same at all times.
    have happly : KindProperty.ofName (Text.asciiBytes "apply") = .apply := by decide
    have hpush : KindProperty.ofName (Text.asciiBytes "push") = .push := by decide
    simp only [property, hkey, hkey', bind, Except.bind]
    rcases hholder with rfl | rfl
    · obtain rfl := List.mem_singleton.mp hkind
      simp only [kindProperty, if_pos happly]
    · simp only [kindNames, List.mem_cons, List.not_mem_nil, or_false] at hkind
      rcases hkind with rfl | rfl | rfl
      · simp only [kindProperty, if_pos happly]
      · exact absurd rfl (hlength rfl)
      · simp only [kindProperty, hpush, reduceCtorEq, if_false, Heap.arrayProperty]
  · by_cases hnamed : holder = .array id → nameIndex? name = none
    · rw [property_named hholder hkey hkind hnamed, property_named hholder hkey' hkind hnamed, hget]
    · obtain ⟨rfl, hindex⟩ := Classical.not_imp.mp hnamed
      obtain ⟨i, hindex⟩ := Option.ne_none_iff_exists'.mp hindex
      rw [property_item hkey hkind hindex, property_item hkey' hkind hindex, hitems i rfl hindex]

/-! ## Entries -/

/-- The items of an array behind a write under a name. -/
def ItemsWritten (name : List UInt8) (v : Value) (items items' : Array Value) : Prop :=
  match nameIndex? name with
  | none => items' = items
  | some i => items'.size = max items.size (i + 1) ∧ items'[i]? = some v
      ∧ (∀ j, items.size ≤ j → j < i → items'[j]? = some .undefined)
      ∧ ∀ j, j < items.size → j ≠ i → items'[j]? = items[j]?

theorem itemsWritten_setItem (hindex : nameIndex? name = some i) (items : Array Value) (v : Value) :
    ItemsWritten name v items (Heap.setItem items i v) := by
  unfold ItemsWritten
  rw [hindex]
  refine ⟨Heap.size_setItem items i v, ?_, fun j hj hlt => ?_, fun j hj hne => ?_⟩
  · rw [Heap.getElem?_setItem, if_pos rfl]
  · rw [Heap.getElem?_setItem, if_neg (by omega), if_pos hlt, Array.getElem?_eq_none hj, Option.getD_none]
  · rw [Heap.getElem?_setItem, if_neg hne, Array.getElem?_eq_getElem hj, Option.getD_some, ite_self]

/-- The names are those of one entry: they are equal, or on an array those of one item. -/
def SameEntry (holder : Value) (name name' : List UInt8) : Prop :=
  name' = name ∨ (∃ id, holder = .array id) ∧ ∃ i, nameIndex? name = some i ∧ nameIndex? name' = some i

/-- The length of an array, under whatever key. -/
theorem property_length {items : Array Value} (hitems : m.heap.items id = .ok items)
    (hkey : m.heap.textOf key = .ok (Text.asciiBytes "length")) :
    m.property env (.array id) key = .ok (.ofNat items.size) := by
  have hlength : KindProperty.ofName (Text.asciiBytes "length") = .length := by decide
  simp only [property, hkey, bind, Except.bind, kindProperty, hlength, reduceCtorEq, if_false, Heap.arrayProperty,
    hitems, Except.map]
  rfl

/-- **Objects and arrays are maps.** What is written under a key is read under every key with the same text, and under
every key with a text that names another entry what was read before, but for the length of an array. An array becomes
as long as an item that is written needs, with nothing in between, and stays as it is when a property is written. -/
theorem indexing_as_map (hs : m.heap.Sound) (hu : m.heap.Unmarked) (hl : ∀ o, m.heap.Legible o)
    (hholder : holder = .object id ∨ holder = .array id) (hkey : m.heap.textOf key = .ok name)
    (hdelegate : name ≠ Heap.delegateKey) (hkind : name ∉ kindNames holder)
    (hset : setProperty env holder key v m = .ok () m') (hfits : m'.heap.Fits) :
    (∀ k, m'.heap.textOf k = .ok name → m'.property env holder k = .ok v)
    ∧ (∀ k name', m.heap.strings.isReadable k = true → m.heap.textOf k = .ok name' → ¬ SameEntry holder name name' →
        (holder = .array id → name' ≠ Text.asciiBytes "length") →
        m'.property env holder k = m.property env holder k)
    ∧ (holder = .array id → ∀ items, m.heap.items id = .ok items →
        ∃ items', m'.heap.items id = .ok items' ∧ ItemsWritten name v items items'
          ∧ ∀ k, m'.heap.textOf k = .ok (Text.asciiBytes "length") →
              m'.property env holder k = .ok (.ofNat items'.size)) := by
  rcases setProperty_cases hs hu hl hholder hkey hset hfits with ⟨rfl, i, hindex, hsets⟩ | ⟨hnamed, hsets⟩
  · obtain ⟨items, hitems, hitems'⟩ := hsets.items
    refine ⟨fun k hk => ?_, fun k name' hreadable hk hother hlength => ?_, fun _ old hold => ?_⟩
    · rw [property_item hk hkind hindex, hitems']
      simp only [Except.map, Heap.getElem?_setItem, if_true, Option.getD_some]
    · refine property_congr hholder hk ((textOf_of_readable hsets.texts hreadable).trans hk) hlength ?_ ?_
      · rw [Heap.get, Heap.get, hsets.objects]
        exact Heap.getFrom_congr (fun o => hsets.own o _) (fun o => hsets.own o _) _ _ _
      · intro j _ hj
        have hne : j ≠ i := fun heq => hother (.inr ⟨⟨id, rfl⟩, i, hindex, heq ▸ hj⟩)
        rw [hitems, hitems']
        simp only [Except.map, Heap.getElem?_setItem, if_neg hne]
        split_ifs <;> rfl
    · rw [hitems] at hold
      cases hold
      exact ⟨_, hitems', itemsWritten_setItem hindex items v, fun k hk => property_length hitems' hk⟩
  · refine ⟨fun k hk => ?_, fun k name' hreadable hk hother hlength => ?_, ?_⟩
    · have hown := hsets.own id name
      rw [if_pos ⟨rfl, rfl⟩] at hown
      rw [property_named hholder hk hkind hnamed, Heap.get_of_getOwn hown]
      rfl
    · have hne : name' ≠ name := fun heq => hother (.inl heq)
      refine property_congr hholder hk ((textOf_of_readable hsets.texts hreadable).trans hk) hlength ?_ ?_
      · rw [Heap.get, Heap.get, hsets.objects]
        refine Heap.getFrom_congr (fun o => ?_) (fun o => ?_) _ _ _
        · rw [hsets.own, if_neg fun hboth => hne hboth.2]
        · rw [hsets.own, if_neg fun hboth => hdelegate hboth.2.symm]
      · intro j _ _
        rw [hsets.items]
    · rintro rfl items hitems
      have hitems' := (hsets.items id).trans hitems
      refine ⟨items, hitems', ?_, fun k hk => property_length hitems' hk⟩
      unfold ItemsWritten
      rw [hnamed rfl]

/-- A machine with an array of one item. -/
def oneItem : Machine Unit :=
  { bare {} ⟨"", none⟩ () with heap := ((Heap.empty {}).newArray [.null]).1 }

/-- The machine after something was written into the array. -/
def writtenUnder (text : String) : Machine Unit :=
  leftBy (setProperty noEmbedding (.array ⟨⟨0, 0⟩⟩) (shortName text) (.boolean true) oneItem)

/-- An item behind the end is there, what was there is, and there is nothing in between. -/
theorem indexing_as_map_third :
    oneItem.heap.Sound ∧ oneItem.heap.Unmarked ∧ (∀ o, oneItem.heap.Legible o)
    ∧ setProperty noEmbedding (.array ⟨⟨0, 0⟩⟩) (shortName "2") (.boolean true) oneItem = .ok () (writtenUnder "2")
    ∧ (writtenUnder "2").heap.Fits
    ∧ (writtenUnder "2").property noEmbedding (.array ⟨⟨0, 0⟩⟩) (shortName "2") = .ok (.boolean true)
    ∧ (writtenUnder "2").property noEmbedding (.array ⟨⟨0, 0⟩⟩) (shortName "0") = .ok .null
    ∧ ∃ items, (writtenUnder "2").heap.items ⟨⟨0, 0⟩⟩ = .ok items ∧ items.size = 3 ∧ items[1]? = some .undefined := by
  have hkeeps : (Heap.empty {}).Keeps oneItem.heap := Heap.keeps_newCell _ _
  have haddr : oneItem.heap.Addressable :=
    ⟨show oneItem.heap.objects.cells.size ≤ _ by decide +kernel,
      show oneItem.heap.properties.cells.size ≤ _ by decide +kernel,
      show oneItem.heap.signatures.cells.size ≤ _ by decide +kernel⟩
  have hfits : (writtenUnder "2").heap.Fits :=
    ⟨⟨show (writtenUnder "2").heap.objects.cells.size ≤ _ by decide +kernel,
      show (writtenUnder "2").heap.properties.cells.size ≤ _ by decide +kernel,
      show (writtenUnder "2").heap.signatures.cells.size ≤ _ by decide +kernel⟩,
      show (writtenUnder "2").heap.strings.data.size < _ by decide +kernel⟩
  have hs : oneItem.heap.Sound := hkeeps.sound haddr (Heap.unmarked_empty {}) (Heap.sound_empty {})
  have hu : oneItem.heap.Unmarked := hkeeps.unmarked (Heap.unmarked_empty {})
  have hl : ∀ o, oneItem.heap.Legible o := by
    intro o cell hcell p hp
    rw [show oneItem.heap.objects.get? o.cell = _ from Heap.get?_objects_newCell (Heap.sound_empty {}) haddr o]
      at hcell
    split_ifs at hcell
    · cases hcell
      cases hp
    · rw [show (Heap.empty {}).objects.get? o.cell = none from Arena.get?_empty _ _ _] at hcell
      cases hcell
  have hset : setProperty noEmbedding (.array ⟨⟨0, 0⟩⟩) (shortName "2") (.boolean true) oneItem
      = .ok () (writtenUnder "2") := by
    with_unfolding_all rfl
  have htext (m : Machine Unit) (text : String) (hshort : (Text.bytesOf text).length ≤ maxInlineLength) :
      m.heap.textOf (shortName text) = .ok (Text.bytesOf text) := by
    simp only [shortName, Value.ofInline?, InlineText.ofBytes?, dif_pos hshort, Option.map_some, Option.getD_some]
    rfl
  obtain ⟨hsame, hother, hitems⟩ := indexing_as_map hs hu hl (.inr rfl) (htext oneItem "2" (by decide +kernel))
    (by decide +kernel) (by decide +kernel) hset hfits
  refine ⟨hs, hu, hl, hset, hfits, hsame _ (htext _ "2" (by decide +kernel)), ?_, ?_⟩
  · rw [hother (shortName "0") (Text.bytesOf "0") (by decide +kernel) (htext _ "0" (by decide +kernel)) ?_ ?_]
    · with_unfolding_all rfl
    · have hzero : nameIndex? (Text.bytesOf "0") = some 0 := by decide +kernel
      have htwo : nameIndex? (Text.bytesOf "2") = some 2 := by decide +kernel
      rintro (heq | ⟨-, i, hi, hi'⟩)
      · exact absurd heq (by decide +kernel)
      · rw [htwo] at hi
        rw [hzero, ← hi] at hi'
        exact absurd hi' (by decide)
    · exact fun _ => by decide +kernel
  · obtain ⟨items, hget, hwritten, -⟩ := hitems rfl #[.null] (by with_unfolding_all rfl)
    have hindex : nameIndex? (Text.bytesOf "2") = some 2 := by decide +kernel
    unfold ItemsWritten at hwritten
    rw [hindex] at hwritten
    exact ⟨items, hget, hwritten.1, hwritten.2.2.1 1 (by decide) (by decide)⟩

/-- Zeros in front make another text, but not another item: the item under `5` is the one written under `05`. -/
theorem indexing_zeros_in_front :
    Text.bytesOf "05" ≠ Text.bytesOf "5" ∧ Text.bytesOf "05" ≠ Heap.delegateKey
    ∧ Text.bytesOf "05" ∉ kindNames (.array ⟨⟨0, 0⟩⟩)
    ∧ oneItem.property noEmbedding (.array ⟨⟨0, 0⟩⟩) (shortName "5") = .ok .undefined
    ∧ setProperty noEmbedding (.array ⟨⟨0, 0⟩⟩) (shortName "05") (.boolean true) oneItem = .ok () (writtenUnder "05")
    ∧ (writtenUnder "05").property noEmbedding (.array ⟨⟨0, 0⟩⟩) (shortName "5") = .ok (.boolean true) := by
  refine ⟨by decide +kernel, by decide +kernel, by decide +kernel, ?_, ?_, ?_⟩ <;> with_unfolding_all rfl

end Machine

end ScriptEngine
