import Mathlib.Data.List.Forall2
import ScriptEngine.Heap.Conversion
import ScriptEngine.Proofs.Heap.Changes
/-!
Heaps that hold the same.

A `Pairing` says which objects and which records of one heap stand for which of another. Two heaps are
`Paired` when objects that stand for each other hold values that do, in the same order, and records the
same bytes; what else is in the heaps, and where, does not matter. Nothing that can be asked of values in
pairs tells the heaps apart: their text, whether they are the same, their items, and what is found under a
name, delegation included.
-/

namespace ScriptEngine

/-! ## Rows of pairs -/

/-- Arrays of one size, related place by place. -/
def Rows {α β : Type} (R : α → β → Prop) (xs : Array α) (ys : Array β) : Prop :=
  List.Forall₂ R xs.toList ys.toList

section Rows

variable {α β : Type} {R S : α → β → Prop} {xs xs' : Array α} {ys ys' : Array β} {x : α} {y : β}

theorem rel_getElem? {l : List α} {l' : List β} (h : List.Forall₂ R l l') (i : Nat) :
    Option.Rel R l[i]? l'[i]? := by
  induction h generalizing i with
  | nil => exact .none
  | cons hx _ ih =>
    cases i with
    | zero => exact .some hx
    | succ i => exact ih i

theorem exists_rel_of_mem {l : List α} {l' : List β} (h : List.Forall₂ R l l') (hx : x ∈ l) : ∃ y, R x y := by
  obtain ⟨i, hi⟩ := List.getElem?_of_mem hx
  have hpair := rel_getElem? h i
  rw [hi] at hpair
  generalize l'[i]? = found at hpair
  cases hpair with
  | some hpair => exact ⟨_, hpair⟩

theorem rel_set {l : List α} {l' : List β} (h : List.Forall₂ R l l') (i : Nat) (hx : R x y) :
    List.Forall₂ R (l.set i x) (l'.set i y) := by
  induction h generalizing i with
  | nil => exact .nil
  | cons hfirst hrest ih =>
    cases i with
    | zero => exact .cons hx hrest
    | succ i => exact .cons hfirst (ih i)

theorem rel_replicate (n : Nat) (hx : R x y) : List.Forall₂ R (List.replicate n x) (List.replicate n y) := by
  induction n with
  | zero => exact .nil
  | succ n ih => exact .cons hx ih

namespace Rows

theorem empty : Rows R #[] #[] := .nil

theorem ofList {l : List α} {l' : List β} (h : List.Forall₂ R l l') : Rows R l.toArray l'.toArray := h

theorem imp (h : Rows R xs ys) (himp : ∀ x y, R x y → S x y) : Rows S xs ys :=
  List.Forall₂.imp himp h

theorem size_eq (h : Rows R xs ys) : ys.size = xs.size := by
  simpa using h.length_eq.symm

theorem getElem? (h : Rows R xs ys) (i : Nat) : Option.Rel R xs[i]? ys[i]? := by
  simpa using rel_getElem? h i

theorem back? (h : Rows R xs ys) : Option.Rel R xs.back? ys.back? := by
  rw [Array.back?_eq_getElem?, Array.back?_eq_getElem?, h.size_eq]
  exact h.getElem? _

theorem push (h : Rows R xs ys) (hx : R x y) : Rows R (xs.push x) (ys.push y) := by
  simpa [Rows] using List.rel_append h (.cons hx .nil)

theorem append (h : Rows R xs ys) (h' : Rows R xs' ys') : Rows R (xs ++ xs') (ys ++ ys') := by
  simpa [Rows] using List.rel_append h h'

theorem set (h : Rows R xs ys) (i : Nat) (hx : R x y) :
    Rows R (xs.setIfInBounds i x) (ys.setIfInBounds i y) := by
  simpa [Rows] using rel_set h i hx

theorem replicate (n : Nat) (hx : R x y) : Rows R (Array.replicate n x) (Array.replicate n y) := by
  simpa [Rows] using rel_replicate n hx

theorem take (h : Rows R xs ys) (n : Nat) : Rows R (xs.take n) (ys.take n) := by
  simpa [Rows] using List.forall₂_take n h

theorem shrink (h : Rows R xs ys) (n : Nat) : Rows R (xs.shrink n) (ys.shrink n) := by
  simpa [Rows] using List.forall₂_take n h

theorem drop (h : Rows R xs ys) (n : Nat) :
    List.Forall₂ R (xs.drop n).toList (ys.drop n).toList := by
  simpa [List.take_of_length_le] using List.forall₂_drop n h

theorem pop (h : Rows R xs ys) : Rows R xs.pop ys.pop := by
  have hlength := h.length_eq
  simpa [Rows, List.dropLast_eq_take, hlength] using List.forall₂_take (xs.toList.length - 1) h

end Rows

end Rows

/-! ## Pairings -/

/-- Which objects and which records of one heap stand for which of another. -/
structure Pairing where
  objects : ObjectId → ObjectId → Prop
  records : Payload → Payload → Prop

namespace Pairing

/-- Nothing stands for anything. -/
def empty : Pairing := ⟨fun _ _ => False, fun _ _ => False⟩

/-- The pairing seen from the other side. -/
def symm (p : Pairing) : Pairing :=
  ⟨fun id id' => p.objects id' id, fun offset offset' => p.records offset' offset⟩

/-- A pairing with another two objects. -/
def withObject (p : Pairing) (id id' : ObjectId) : Pairing :=
  ⟨fun a b => p.objects a b ∨ a = id ∧ b = id', p.records⟩

/-- A pairing with another two records. -/
def withRecord (p : Pairing) (offset offset' : Payload) : Pairing :=
  ⟨p.objects, fun a b => p.records a b ∨ a = offset ∧ b = offset'⟩

/-- Everything that stands for something in the one pairing does in the other. -/
structure Le (p q : Pairing) : Prop where
  objects : ∀ {id id'}, p.objects id id' → q.objects id id'
  records : ∀ {offset offset'}, p.records offset offset' → q.records offset offset'

/-- Texts that stand for each other. -/
inductive Texts (p : Pairing) : StringRef → StringRef → Prop
  | inline (text : InlineText) : Texts p (.inline text) (.inline text)
  | owned {offset offset' : Payload} (h : p.records offset offset') : Texts p (.owned offset) (.owned offset')
  | foreign (index : Payload) : Texts p (.foreign index) (.foreign index)

/-- Values that stand for each other. Foreign functions stand for nothing. -/
inductive Values (p : Pairing) : Value → Value → Prop
  | number (n : Number) : Values p (.number n) (.number n)
  | boolean (b : Bool) : Values p (.boolean b) (.boolean b)
  | null : Values p .null .null
  | undefined : Values p .undefined .undefined
  | string {s s' : StringRef} (h : p.Texts s s') : Values p (.string s) (.string s')
  | object {id id' : ObjectId} (h : p.objects id id') : Values p (.object id) (.object id')
  | array {id id' : ObjectId} (h : p.objects id id') : Values p (.array id) (.array id')
  | arrayBuffer {id id' : ObjectId} (h : p.objects id id') : Values p (.arrayBuffer id) (.arrayBuffer id')
  | dataView {id id' : ObjectId} (h : p.objects id id') : Values p (.dataView id) (.dataView id')
  | function (start : Payload) : Values p (.function start) (.function start)
  | native (id : NativeId) : Values p (.native id) (.native id)
  | foreign (address : Address) : Values p (.foreign address) (.foreign address)

/-- Kinds of objects that stand for each other. -/
inductive Kinds (p : Pairing) : ObjectKind → ObjectKind → Prop
  | plain : Kinds p .plain .plain
  | array {items items' : Array Value} (h : Rows p.Values items items') : Kinds p (.array items) (.array items')
  | buffer (bytes : Bytes) : Kinds p (.buffer bytes) (.buffer bytes)
  | view {id id' : ObjectId} (h : p.objects id id') (offset length : Nat) :
    Kinds p (.view id offset length) (.view id' offset length)

section Values

variable {p q r : Pairing} {s s' : StringRef} {v v' w w' : Value}

theorem Le.refl (p : Pairing) : p.Le p := ⟨fun h => h, fun h => h⟩

theorem Le.trans (h : p.Le q) (h' : q.Le r) : p.Le r :=
  ⟨fun hid => h'.objects (h.objects hid), fun ho => h'.records (h.records ho)⟩

theorem le_withObject (p : Pairing) (id id' : ObjectId) : p.Le (p.withObject id id') :=
  ⟨.inl, fun h => h⟩

theorem le_withRecord (p : Pairing) (offset offset' : Payload) : p.Le (p.withRecord offset offset') :=
  ⟨fun h => h, .inl⟩

theorem Texts.mono (h : p.Texts s s') (hle : p.Le q) : q.Texts s s' := by
  cases h with
  | inline text => exact .inline text
  | owned h => exact .owned (hle.records h)
  | foreign index => exact .foreign index

theorem Values.mono (h : p.Values v v') (hle : p.Le q) : q.Values v v' := by
  cases h with
  | number n => exact .number n
  | boolean b => exact .boolean b
  | null => exact .null
  | undefined => exact .undefined
  | string h => exact .string (h.mono hle)
  | object h => exact .object (hle.objects h)
  | array h => exact .array (hle.objects h)
  | arrayBuffer h => exact .arrayBuffer (hle.objects h)
  | dataView h => exact .dataView (hle.objects h)
  | function start => exact .function start
  | native id => exact .native id
  | foreign address => exact .foreign address

theorem Kinds.mono {kind kind' : ObjectKind} (h : p.Kinds kind kind') (hle : p.Le q) : q.Kinds kind kind' := by
  cases h with
  | plain => exact .plain
  | array h => exact .array (h.imp fun _ _ hv => hv.mono hle)
  | buffer bytes => exact .buffer bytes
  | view h offset length => exact .view (hle.objects h) offset length

theorem Texts.symm (h : p.Texts s s') : p.symm.Texts s' s := by
  cases h with
  | inline text => exact .inline text
  | owned h => exact .owned h
  | foreign index => exact .foreign index

theorem Values.symm (h : p.Values v v') : p.symm.Values v' v := by
  cases h with
  | number n => exact .number n
  | boolean b => exact .boolean b
  | null => exact .null
  | undefined => exact .undefined
  | string h => exact .string h.symm
  | object h => exact .object h
  | array h => exact .array h
  | arrayBuffer h => exact .arrayBuffer h
  | dataView h => exact .dataView h
  | function start => exact .function start
  | native id => exact .native id
  | foreign address => exact .foreign address

theorem Kinds.symm {kind kind' : ObjectKind} (h : p.Kinds kind kind') : p.symm.Kinds kind' kind := by
  cases h with
  | plain => exact .plain
  | array h => exact .array (List.Forall₂.flip (h.imp fun _ _ hv => hv.symm))
  | buffer bytes => exact .buffer bytes
  | view h offset length => exact .view (show p.symm.objects _ _ from h) offset length

/-! What a value is, apart from what it refers to, it has in common with the one that it stands for. -/

theorem Values.typeName_eq (h : p.Values v v') : v'.typeName = v.typeName := by
  cases h <;> rfl

theorem Values.isString_eq (h : p.Values v v') : v'.isString = v.isString := by
  cases h <;> rfl

theorem Values.asNumber?_eq (h : p.Values v v') : v'.asNumber? = v.asNumber? := by
  cases h <;> rfl

theorem Values.toNumber_eq (h : p.Values v v') : v'.toNumber = v.toNumber := by
  rw [Value.toNumber, Value.toNumber, h.asNumber?_eq]

theorem Values.propertyHolder? (h : p.Values v v') :
    Option.Rel p.objects v.propertyHolder? v'.propertyHolder? := by
  cases h <;> first | exact .none | exact .some ‹_›

theorem Values.ofNat (n : Nat) : p.Values (.ofNat n) (.ofNat n) := .number _

theorem Values.ofInline? {bytes : List UInt8} (h : Value.ofInline? bytes = some v) : p.Values v v := by
  unfold Value.ofInline? at h
  obtain ⟨text, -, rfl⟩ := Option.map_eq_some_iff.mp h
  exact .string (.inline text)

theorem Values.ofForeignText? {index : UInt64} (h : Value.ofForeignText? index = .ok v) : p.Values v v := by
  unfold Value.ofForeignText? at h
  cases hword : Payload.ofWord? index with
  | error e =>
    rw [hword] at h
    cases h
  | ok place =>
    rw [hword] at h
    cases h
    exact .string (.foreign place)

theorem Values.getD {o o' : Option Value} (h : Option.Rel p.Values o o') :
    p.Values (o.getD .undefined) (o'.getD .undefined) := by
  cases h with
  | some h => exact h
  | none => exact .undefined

end Values

end Pairing

/-! ## Paired heaps -/

namespace Heap

/-- What heaps keep to between collections: arenas are in order, and strings are a row of records. -/
structure Orderly (h : Heap) : Prop where
  sound : h.Sound
  unmarked : h.Unmarked
  holds : ∃ texts, h.strings.Holds texts

/-- Properties that stand for each other. -/
def PairsProperty (p : Pairing) (h h' : Heap) (id id' : PropertyId) : Prop :=
  ∃ prop prop', h.properties.get? id.cell = some prop ∧ h'.properties.get? id'.cell = some prop' ∧
    p.Values prop.name prop'.name ∧ p.Values prop.value prop'.value

/-- Objects that stand for each other. -/
structure PairsCell (p : Pairing) (h h' : Heap) (cell cell' : ObjectCell) : Prop where
  kind : p.Kinds cell.kind cell'.kind
  properties : Rows (PairsProperty p h h') cell.properties cell'.properties

/-- Heaps whose objects and records hold the same as those that they stand for. -/
structure Paired (p : Pairing) (h h' : Heap) : Prop where
  orderly : h.Orderly
  orderly' : h'.Orderly
  object : ∀ {id id'}, p.objects id id' → ∃ cell cell', h.objects.get? id.cell = some cell ∧
    h'.objects.get? id'.cell = some cell' ∧ PairsCell p h h' cell cell'
  right : ∀ {id a b}, p.objects id a → p.objects id b → a = b
  left : ∀ {a b id}, p.objects a id → p.objects b id → a = b
  record : ∀ {offset offset'}, p.records offset offset' → h.strings.IsRecord offset.val ∧
    h'.strings.IsRecord offset'.val ∧ h'.strings.bytes (.owned offset') = h.strings.bytes (.owned offset)
  borrowed : h'.strings.borrowed = h.strings.borrowed

variable {p q : Pairing} {h h' k k' : Heap} {v v' w w' : Value} {s s' : StringRef} {id id' : ObjectId}

theorem PairsProperty.symm {id id' : PropertyId} (hid : PairsProperty p h h' id id') :
    PairsProperty p.symm h' h id' id := by
  obtain ⟨prop, prop', hprop, hprop', hname, hvalue⟩ := hid
  exact ⟨prop', prop, hprop', hprop, hname.symm, hvalue.symm⟩

theorem Paired.symm (H : Paired p h h') : Paired p.symm h' h where
  orderly := H.orderly'
  orderly' := H.orderly
  object hid := by
    obtain ⟨cell, cell', hcell, hcell', hpair⟩ := H.object hid
    exact ⟨cell', cell, hcell', hcell, hpair.kind.symm,
      List.Forall₂.flip (hpair.properties.imp fun _ _ hprop => hprop.symm)⟩
  right := H.left
  left := H.right
  record ho := by
    obtain ⟨hrecord, hrecord', hbytes⟩ := H.record ho
    exact ⟨hrecord', hrecord, hbytes.symm⟩
  borrowed := H.borrowed.symm

/-- Objects stand for each other alone. -/
theorem Paired.eq_iff (H : Paired p h h') {a a' b b' : ObjectId} (ha : p.objects a a') (hb : p.objects b b') :
    a = b ↔ a' = b' := by
  constructor
  · rintro rfl
    exact H.right ha hb
  · rintro rfl
    exact H.left ha hb

/-! ## Texts and what values amount to -/

namespace Paired

variable (H : Paired p h h')
include H

theorem bytes_eq (hs : p.Texts s s') : h'.strings.bytes s' = h.strings.bytes s := by
  cases hs with
  | inline text => rfl
  | owned ho => exact (H.record ho).2.2
  | foreign index =>
    show StringHeap.borrowedText _ _ = StringHeap.borrowedText _ _
    unfold StringHeap.borrowedText
    rw [H.borrowed]

theorem length_eq (hs : p.Texts s s') : h'.strings.length s' = h.strings.length s := by
  rw [StringHeap.length_eq, StringHeap.length_eq, H.bytes_eq hs]

theorem byte?_eq (hs : p.Texts s s') (i : Nat) : h'.strings.byte? s' i = h.strings.byte? s i := by
  rw [StringHeap.byte?_eq, StringHeap.byte?_eq, H.bytes_eq hs]

theorem between_eq (hs : p.Texts s s') (start stop : Nat) :
    h'.strings.between s' start stop = h.strings.between s start stop := by
  rw [StringHeap.between_eq, StringHeap.between_eq, H.bytes_eq hs]

theorem spells_eq (hs : p.Texts s s') (bytes : List UInt8) :
    h'.strings.spells s' bytes = h.strings.spells s bytes := by
  unfold StringHeap.spells
  rw [H.length_eq hs, H.bytes_eq hs]

theorem text?_eq (hv : p.Values v v') : h'.text? v' = h.text? v := by
  cases hv with
  | string hs => exact congrArg some (H.bytes_eq hs)
  | _ => rfl

theorem keyBytes_eq (hv : p.Values v v') : h'.keyBytes v' = h.keyBytes v := by
  unfold keyBytes
  rw [H.text?_eq hv]

theorem textOf_eq (hv : p.Values v v') : h'.textOf v' = h.textOf v := by
  cases hv with
  | string hs => exact congrArg Except.ok (H.bytes_eq hs)
  | _ => rfl

theorem truthy_eq (hv : p.Values v v') : h'.truthy v' = h.truthy v := by
  cases hv with
  | string hs => exact congrArg (· != 0) (H.length_eq hs)
  | _ => rfl

theorem display_eq (nativeName : NativeId → Option String) (hv : p.Values v v') :
    h'.display nativeName v' = h.display nativeName v := by
  cases hv with
  | string hs => exact congrArg displayBytes (H.bytes_eq hs)
  | _ => rfl

/-- Sameness is sameness of what stands for it. -/
theorem strictEquals_eq (hv : p.Values v v') (hw : p.Values w w') :
    h'.strictEquals v' w' = h.strictEquals v w := by
  have hids {a a' b b' : ObjectId} (ha : p.objects a a') (hb : p.objects b b') : a' = b' ↔ a = b :=
    (H.eq_iff ha hb).symm
  cases hv <;> cases hw
  case string.string =>
    rename_i hs _ _ ht
    show (_ == _) = (_ == _)
    rw [H.bytes_eq hs, H.bytes_eq ht]
  all_goals first
    | rfl
    | (rename_i ha _ _ hb
       simp only [strictEquals, Bool.beq_eq_decide_eq, Value.object.injEq, Value.array.injEq,
         Value.arrayBuffer.injEq, Value.dataView.injEq, hids ha hb])

/-! ## Objects -/

theorem cell (hid : p.objects id id') : ResultLike (PairsCell p h h') (h.cell id) (h'.cell id') := by
  obtain ⟨cell, cell', hcell, hcell', hpair⟩ := H.object hid
  unfold Heap.cell
  rw [hcell, hcell']
  exact .ok hpair

theorem items (hid : p.objects id id') : ResultLike (Rows p.Values) (h.items id) (h'.items id') := by
  unfold Heap.items
  obtain ⟨⟨properties, kind⟩, ⟨properties', kind'⟩, hcell, hcell', hpair⟩ := H.object hid
  unfold Heap.cell
  rw [hcell, hcell']
  cases hpair.kind with
  | array hitems => exact .ok hitems
  | _ => exact .error _

theorem buffer_eq (hid : p.objects id id') : h'.buffer id' = h.buffer id := by
  unfold Heap.buffer
  obtain ⟨⟨properties, kind⟩, ⟨properties', kind'⟩, hcell, hcell', hpair⟩ := H.object hid
  unfold Heap.cell
  rw [hcell, hcell']
  cases hpair.kind <;> rfl

theorem view (hid : p.objects id id') :
    ResultLike (fun a b => p.objects a.1 b.1 ∧ b.2 = a.2) (h.view id) (h'.view id') := by
  unfold Heap.view
  obtain ⟨⟨properties, kind⟩, ⟨properties', kind'⟩, hcell, hcell', hpair⟩ := H.object hid
  unfold Heap.cell
  rw [hcell, hcell']
  cases hpair.kind with
  | view hbuffer offset length => exact .ok ⟨hbuffer, rfl⟩
  | _ => exact .error _

/-! ## Names -/

theorem isNamed_eq {prop prop' : Property} (hname : p.Values prop.name prop'.name) (key : List UInt8) :
    h'.isNamed prop' key = h.isNamed prop key := by
  obtain ⟨name, value⟩ := prop
  obtain ⟨name', value'⟩ := prop'
  unfold isNamed
  cases hname with
  | string hs => exact H.spells_eq hs key
  | _ => rfl

/-- What is found is at the same place. -/
theorem findIn {ids ids' : Array PropertyId} (hids : Rows (PairsProperty p h h') ids ids') (key : List UInt8)
    (n : Nat) :
    ResultLike (Option.Rel fun a b => b.1 = a.1 ∧ PairsProperty p h h' a.2 b.2) (h.findIn key ids n)
      (h'.findIn key ids' n) := by
  induction n with
  | zero => exact .ok .none
  | succ n ih =>
    have hplace := hids.getElem? (ids.size - (n + 1))
    simp only [Heap.findIn, hids.size_eq]
    cases hfound : ids[ids.size - (n + 1)]? with
    | none =>
      rw [hfound] at hplace
      cases hfound' : ids'[ids.size - (n + 1)]? with
      | none => exact .ok .none
      | some id' => rw [hfound'] at hplace; cases hplace
    | some id =>
      rw [hfound] at hplace
      cases hfound' : ids'[ids.size - (n + 1)]? with
      | none => rw [hfound'] at hplace; cases hplace
      | some id' =>
        rw [hfound'] at hplace
        cases hplace with
        | some hpair =>
          obtain ⟨prop, prop', hprop, hprop', hname, hvalue⟩ := hpair
          simp only [Heap.property, hprop, hprop', H.isNamed_eq hname]
          split
          · exact .ok (.some ⟨rfl, prop, prop', hprop, hprop', hname, hvalue⟩)
          · exact ih

theorem find (hid : p.objects id id') (key : List UInt8) :
    ResultLike (Option.Rel fun a b => b.1 = a.1 ∧ PairsProperty p h h' a.2 b.2) (h.find id key)
      (h'.find id' key) := by
  have hcell := H.cell hid
  unfold Heap.find
  generalize h.cell id = x, h'.cell id' = x' at hcell ⊢
  cases hcell with
  | error e => exact .error e
  | ok hpair =>
    simp only [hpair.properties.size_eq]
    exact H.findIn hpair.properties key _

theorem getOwn (hid : p.objects id id') (key : List UInt8) :
    ResultLike (Option.Rel p.Values) (h.getOwn id key) (h'.getOwn id' key) := by
  have hfind := H.find hid key
  unfold Heap.getOwn
  generalize h.find id key = x, h'.find id' key = x' at hfind ⊢
  cases hfind with
  | error e => exact .error e
  | ok hfound =>
    cases hfound with
    | none => exact .ok .none
    | some hplace =>
      obtain ⟨-, prop, prop', hprop, hprop', -, hvalue⟩ := hplace
      simp only [Heap.property, hprop, hprop']
      exact .ok (.some hvalue)

end Paired

/-- There are no more live objects than slots. -/
theorem length_le_of_live {seen : List ObjectId} (hnodup : seen.Nodup)
    (hlive : ∀ id ∈ seen, ∃ cell, h.objects.get? id.cell = some cell) : seen.length ≤ h.objects.cells.size := by
  have hslots : (seen.map fun id => id.cell.index.toNat).Nodup := by
    refine hnodup.map_on fun a ha b hb heq => ?_
    obtain ⟨cell, hcell⟩ := hlive a ha
    obtain ⟨cell', hcell'⟩ := hlive b hb
    exact ObjectId.eq_of_cell_eq (Arena.eq_of_index_eq hcell hcell' (UInt32.toNat_inj.mp heq))
  have hrange : (seen.map fun id => id.cell.index.toNat) ⊆ List.range h.objects.cells.size := by
    intro slot hslot
    obtain ⟨id, hid, rfl⟩ := List.mem_map.mp hslot
    obtain ⟨cell, hcell⟩ := hlive id hid
    exact List.mem_range.mpr (Array.getElem?_eq_some_iff.mp (Arena.get?_eq_some.mp hcell).2).1
  simpa using (hslots.subperm hrange).length_le

namespace Paired

variable (H : Paired p h h')
include H

theorem mem_iff {seen seen' : List ObjectId} (hseen : List.Forall₂ p.objects seen seen') (hid : p.objects id id') :
    id ∈ seen ↔ id' ∈ seen' := by
  induction hseen with
  | nil => simp
  | cons hfirst _ ih => simp only [List.mem_cons, ih, H.eq_iff hid hfirst]

/-- A walk along delegation ends before it has asked every live object, so its limit makes no difference. -/
theorem getFrom (key : List UInt8) {limit limit' : Nat} {seen seen' : List ObjectId}
    (hseen : List.Forall₂ p.objects seen seen') (hnodup : seen.Nodup) (hnodup' : seen'.Nodup)
    (hlimit : h.objects.cells.size < limit + seen.length)
    (hlimit' : h'.objects.cells.size < limit' + seen'.length) (hid : p.objects id id') :
    ResultLike (Option.Rel p.Values) (h.getFrom key seen id limit) (h'.getFrom key seen' id' limit') := by
  have hlive {seen seen' : List ObjectId} (hseen : List.Forall₂ p.objects seen seen') :
      (∀ a ∈ seen, ∃ cell, h.objects.get? a.cell = some cell) ∧
        ∀ a ∈ seen', ∃ cell, h'.objects.get? a.cell = some cell := by
    induction hseen with
    | nil => simp
    | cons hfirst _ ih =>
      obtain ⟨cell, cell', hcell, hcell', -⟩ := H.object hfirst
      simp only [List.mem_cons, forall_eq_or_imp]
      exact ⟨⟨⟨cell, hcell⟩, ih.1⟩, ⟨cell', hcell'⟩, ih.2⟩
  induction limit generalizing limit' seen seen' id id' with
  | zero =>
    have := length_le_of_live hnodup (hlive hseen).1
    omega
  | succ limit ih =>
    cases limit' with
    | zero =>
      have := length_le_of_live hnodup' (hlive hseen).2
      omega
    | succ limit' =>
      have hmem := H.mem_iff hseen hid
      simp only [Heap.getFrom, List.contains_iff_mem, hmem]
      split
      · exact .ok .none
      · rename_i hfresh
        have hown := H.getOwn hid key
        have hholder := H.getOwn hid delegateKey
        generalize h.getOwn id key = own, h'.getOwn id' key = own' at hown ⊢
        generalize h.getOwn id delegateKey = holder, h'.getOwn id' delegateKey = holder' at hholder ⊢
        cases hown with
        | error e => exact .error e
        | ok hown =>
          cases hown with
          | some hvalue => exact .ok (.some hvalue)
          | none =>
            cases hholder with
            | error e => exact .error e
            | ok hholder =>
              cases hholder with
              | none => exact .ok .none
              | @some v v' hvalue =>
                have hnext := hvalue.propertyHolder?
                simp only [Option.bind_some]
                generalize v.propertyHolder? = next, v'.propertyHolder? = next' at hnext ⊢
                cases hnext with
                | none => exact .ok .none
                | some hnext =>
                  have hlength : (id :: seen).length = seen.length + 1 := rfl
                  have hlength' : (id' :: seen').length = seen'.length + 1 := rfl
                  refine ih (.cons hid hseen) (List.nodup_cons.mpr ⟨fun hin => hfresh (hmem.mp hin), hnodup⟩)
                    (List.nodup_cons.mpr ⟨hfresh, hnodup'⟩) ?_ ?_ hnext <;> omega

theorem get (hid : p.objects id id') (key : List UInt8) :
    ResultLike (Option.Rel p.Values) (h.get id key) (h'.get id' key) :=
  H.getFrom key .nil .nil .nil (by simp) (by simp) hid

theorem nthKey (hid : p.objects id id') (n : Nat) :
    ResultLike (Option.Rel p.Values) (h.nthKey id n) (h'.nthKey id' n) := by
  have hcell := H.cell hid
  unfold Heap.nthKey
  generalize h.cell id = x, h'.cell id' = x' at hcell ⊢
  cases hcell with
  | error e => exact .error e
  | @ok cell cell' hpair =>
    have hplace := hpair.properties.getElem? n
    simp only
    generalize cell.properties[n]? = x, cell'.properties[n]? = x' at hplace ⊢
    cases hplace with
    | none => exact .ok .none
    | some hprop =>
      obtain ⟨prop, prop', hprop, hprop', hname, -⟩ := hprop
      simp only [Heap.property, hprop, hprop']
      exact .ok (.some hname)

end Paired

end Heap

end ScriptEngine
