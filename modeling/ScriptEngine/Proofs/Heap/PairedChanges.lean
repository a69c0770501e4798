import ScriptEngine.Proofs.Heap.Pairing
/-!
Changes of paired heaps.

The same change of both heaps keeps them paired, as long as they `Fit` into what handles and offsets can
name; new objects and new records stand for each other from then on. A heap `Grows` by all changes but
collections, so that one which fits has fitted before.
-/

namespace ScriptEngine

/-- Work that ends in results in a relation, or with the same error. -/
inductive Ends {σ σ' α β : Type} (R : α → β → Prop) :
    EStateM.Result Error σ α → EStateM.Result Error σ' β → Prop
  | ok {a : α} {b : β} {s : σ} {s' : σ'} (h : R a b) : Ends R (.ok a s) (.ok b s')
  | error (e : Error) {s : σ} {s' : σ'} : Ends R (.error e s) (.error e s')

theorem Ends.imp {σ σ' α β : Type} {R S : α → β → Prop} {r : EStateM.Result Error σ α}
    {r' : EStateM.Result Error σ' β} (h : Ends R r r') (himp : ∀ a b, R a b → S a b) : Ends S r r' := by
  cases h with
  | ok h => exact .ok (himp _ _ h)
  | error e => exact .error e

theorem Rows.map_left {α β γ : Type} {R : γ → β → Prop} {f : α → γ} {xs : Array α} {ys : Array β} :
    Rows R (xs.map f) ys ↔ Rows (fun x y => R (f x) y) xs ys := by
  unfold Rows
  rw [Array.toList_map, List.forall₂_map_left_iff]

theorem Rows.imp_getElem? {α β : Type} {R S : α → β → Prop} {xs : Array α} {ys : Array β} (h : Rows R xs ys)
    (himp : ∀ (i : Nat) x y, xs[i]? = some x → ys[i]? = some y → R x y → S x y) : Rows S xs ys := by
  have hlist : ∀ {l : List α} {l' : List β}, List.Forall₂ R l l' →
      (∀ (i : Nat) x y, l[i]? = some x → l'[i]? = some y → R x y → S x y) → List.Forall₂ S l l' := by
    intro l l' hl
    induction hl with
    | nil => exact fun _ => .nil
    | cons hfirst _ ih =>
      exact fun hall => .cons (hall 0 _ _ rfl rfl hfirst) (ih fun i x y hx hy => hall (i + 1) x y hx hy)
  exact hlist h (by simpa using himp)

namespace Heap

/-- Handles can name every slot, and offsets every record. -/
structure Fits (h : Heap) : Prop where
  addressable : h.Addressable
  strings : h.strings.data.size < payloadSize

/-- A change that frees nothing. -/
structure Grows (h k : Heap) : Prop where
  keeps : Keeps h k
  strings : h.strings.data.size ≤ k.strings.data.size

variable {α β : Type} {p q : Pairing} {h h' k k' l : Heap} {v v' w w' key key' : Value} {s s' t t' : StringRef}
  {id id' : ObjectId} {kind kind' : ObjectKind}

theorem Grows.refl (h : Heap) : Grows h h := ⟨.refl h, Nat.le_refl _⟩

theorem Grows.trans (hk : Grows h k) (hl : Grows k l) : Grows h l :=
  ⟨hk.keeps.trans hl.keeps, Nat.le_trans hk.strings hl.strings⟩

theorem Grows.fits (hk : Grows h k) (hfits : k.Fits) : h.Fits :=
  ⟨hk.keeps.addressable hfits.addressable, Nat.lt_of_le_of_lt hk.strings hfits.strings⟩

/-! ## What grows -/

theorem grows_newCell (h : Heap) (kind : ObjectKind) : Grows h (h.newCell kind).1 :=
  ⟨keeps_newCell h kind, Nat.le_refl _⟩

theorem size_allocRecord_le (strings : StringHeap) (text : ByteArray) :
    strings.data.size ≤ (leftBy (strings.allocRecord text)).data.size := by
  unfold StringHeap.allocRecord
  split
  · show strings.data.size ≤ (StringHeap.appendRecord strings.data text).size
    have hlist := congrArg List.length (StringHeap.toList_appendRecord strings.data text)
    rw [List.length_append] at hlist
    have hsize : strings.data.data.toList.length = strings.data.size := rfl
    have hsize' : (StringHeap.appendRecord strings.data text).data.toList.length
        = (StringHeap.appendRecord strings.data text).size := rfl
    omega
  · exact Nat.le_refl _

theorem size_alloc_le (strings : StringHeap) (bytes : List UInt8) :
    strings.data.size ≤ (leftBy (strings.alloc bytes)).data.size := by
  unfold StringHeap.alloc
  split
  · exact Nat.le_refl _
  · exact size_allocRecord_le strings _

/-- A new string, by what comes of storing its bytes. -/
theorem newString_eq (h : Heap) (bytes : List UInt8) :
    h.newString bytes = match h.strings.alloc bytes with
      | .ok v strings => .ok v { h with
          strings := strings
          needsCollection := h.needsCollection || strings.overThreshold }
      | .error e strings => .error e { h with strings := strings } := rfl

theorem storeString_congr {store store' : EStateM Error StringHeap Value}
    (hsame : store h.strings = store' h.strings) : h.storeString store = h.storeString store' := by
  unfold storeString
  rw [hsame]

/-- Two strings make what their bytes make. -/
theorem concatStrings_eq (h : Heap) (s t : StringRef) :
    h.concatStrings s t = h.newString (h.strings.bytes s ++ h.strings.bytes t) :=
  storeString_congr (h.strings.concat_eq s t)

theorem strings_newString (h : Heap) (bytes : List UInt8) :
    (leftBy (h.newString bytes)).strings = leftBy (h.strings.alloc bytes) := by
  rw [newString_eq]
  cases h.strings.alloc bytes <;> rfl

theorem grows_newString (h : Heap) (bytes : List UInt8) : Grows h (leftBy (h.newString bytes)) := by
  refine ⟨keeps_storeString h _, ?_⟩
  rw [strings_newString]
  exact size_alloc_le h.strings bytes

theorem grows_concatStrings (h : Heap) (s t : StringRef) : Grows h (leftBy (h.concatStrings s t)) := by
  rw [concatStrings_eq]
  exact grows_newString h _

theorem grows_lendString (h : Heap) (lender : Lender) (bytes : List UInt8) :
    Grows h (leftBy (h.lendString lender bytes)) := by
  refine ⟨keeps_lendString h lender bytes, Nat.le_of_eq ?_⟩
  unfold lendString StringHeap.lend
  cases Value.ofInline? bytes with
  | some v => rfl
  | none =>
    simp only
    cases Value.ofForeignText? _ with
    | error e => rfl
    | ok v =>
      simp only
      split <;> rfl

theorem grows_set (h : Heap) (id : ObjectId) (key v : Value) : Grows h (leftBy (h.set id key v)) := by
  refine ⟨keeps_set h id key v, Nat.le_of_eq ?_⟩
  unfold Heap.set
  split
  · rfl
  · split <;> rfl

theorem grows_modifyItems (h : Heap) (id : ObjectId) (f : Array Value → Array Value) :
    Grows h (leftBy (h.modifyItems id f)) := by
  refine ⟨keeps_modifyItems h id f, Nat.le_of_eq ?_⟩
  unfold modifyItems
  split <;> rfl

theorem grows_setByte (h : Heap) (id : ObjectId) (index shown : Nat) (b : UInt8) :
    Grows h (leftBy (h.setByte id index shown b)) := by
  refine ⟨keeps_setByte h id index shown b, Nat.le_of_eq ?_⟩
  unfold setByte
  split
  · split <;> rfl
  · rfl

/-! ## Order -/

theorem Orderly.keeps (ho : h.Orderly) (hk : Keeps h k) (hfits : k.Fits)
    (hholds : ∃ texts, k.strings.Holds texts) : k.Orderly :=
  ⟨hk.sound hfits.addressable ho.unmarked ho.sound, hk.unmarked ho.unmarked, hholds⟩

theorem orderly_empty (o : Options) : (Heap.empty o).Orderly :=
  ⟨sound_empty o, unmarked_empty o, [], rfl, fun _ h => absurd h List.not_mem_nil⟩

/-- Heaps without anything in them hold the same. -/
theorem paired_empty (o o' : Options) : Paired .empty (Heap.empty o) (Heap.empty o') where
  orderly := orderly_empty o
  orderly' := orderly_empty o'
  object h := h.elim
  right h := h.elim
  left h := h.elim
  record h := h.elim
  borrowed := rfl

theorem PairsProperty.mono {id id' : PropertyId} (hid : PairsProperty p h h' id id') (hle : p.Le q)
    (hsame : ∀ prop, h.properties.get? id.cell = some prop → k.properties.get? id.cell = some prop)
    (hsame' : ∀ prop, h'.properties.get? id'.cell = some prop → k'.properties.get? id'.cell = some prop) :
    PairsProperty q k k' id id' := by
  obtain ⟨prop, prop', hprop, hprop', hname, hvalue⟩ := hid
  exact ⟨prop, prop', hsame prop hprop, hsame' prop' hprop', hname.mono hle, hvalue.mono hle⟩

theorem PairsCell.mono {cell cell' : ObjectCell} (hcell : PairsCell p h h' cell cell') (hle : p.Le q)
    (hsame : ∀ id prop, h.properties.get? id = some prop → k.properties.get? id = some prop)
    (hsame' : ∀ id prop, h'.properties.get? id = some prop → k'.properties.get? id = some prop) :
    PairsCell q k k' cell cell' :=
  ⟨hcell.kind.mono hle, hcell.properties.imp fun _ _ hprop => hprop.mono hle (hsame _) (hsame' _)⟩

/-- What came of the same change of two heaps. -/
def Meets (p : Pairing) (R : Pairing → α → β → Prop) (r : EStateM.Result Error Heap α)
    (r' : EStateM.Result Error Heap β) : Prop :=
  ∃ q, p.Le q ∧ Paired q (leftBy r) (leftBy r') ∧ Ends (R q) r r'

/-- The same result. -/
def Same (_ : Pairing) (a b : α) : Prop := b = a

namespace Paired

variable (H : Paired p h h')
include H

/-- Marks and requests for collections apart, a heap is its cells and its strings. -/
theorem congr (hobjects : k.objects = h.objects) (hproperties : k.properties = h.properties)
    (hobjects' : k'.objects = h'.objects) (hproperties' : k'.properties = h'.properties) (ho : k.Orderly)
    (ho' : k'.Orderly) (hle : p.Le q)
    (hq : ∀ {a b}, q.objects a b → p.objects a b)
    (hrecord : ∀ {offset offset'}, q.records offset offset' → k.strings.IsRecord offset.val ∧
      k'.strings.IsRecord offset'.val ∧ k'.strings.bytes (.owned offset') = k.strings.bytes (.owned offset))
    (hborrowed : k'.strings.borrowed = k.strings.borrowed) : Paired q k k' where
  orderly := ho
  orderly' := ho'
  object hid := by
    obtain ⟨cell, cell', hcell, hcell', hpair⟩ := H.object (hq hid)
    refine ⟨cell, cell', by rw [hobjects, hcell], by rw [hobjects', hcell'], hpair.mono hle ?_ ?_⟩
    · rw [hproperties]
      exact fun _ _ h => h
    · rw [hproperties']
      exact fun _ _ h => h
  right ha hb := H.right (hq ha) (hq hb)
  left ha hb := H.left (hq ha) (hq hb)
  record := hrecord
  borrowed := hborrowed

/-! ## New objects -/

theorem newCell (hkind : p.Kinds kind kind') (hfits : (h.newCell kind).1.Fits)
    (hfits' : (h'.newCell kind').1.Fits) :
    Paired (p.withObject (h.newCell kind).2 (h'.newCell kind').2) (h.newCell kind).1 (h'.newCell kind').1 := by
  have hget : ∀ id, (h.newCell kind).1.objects.get? id
      = if id = (h.newCell kind).2.cell then some ⟨#[], kind⟩ else h.objects.get? id :=
    H.orderly.sound.objects.get?_alloc hfits.addressable.objects
  have hget' : ∀ id, (h'.newCell kind').1.objects.get? id
      = if id = (h'.newCell kind').2.cell then some ⟨#[], kind'⟩ else h'.objects.get? id :=
    H.orderly'.sound.objects.get?_alloc hfits'.addressable.objects
  have hfresh : h.objects.get? (h.newCell kind).2.cell = none :=
    H.orderly.sound.objects.get?_alloc_id hfits.addressable.objects
  have hfresh' : h'.objects.get? (h'.newCell kind').2.cell = none :=
    H.orderly'.sound.objects.get?_alloc_id hfits'.addressable.objects
  have hle := p.le_withObject (h.newCell kind).2 (h'.newCell kind').2
  have hnew {b : ObjectId} : ¬ p.objects (h.newCell kind).2 b := by
    intro hb
    obtain ⟨cell, cell', hcell, -⟩ := H.object hb
    rw [hfresh] at hcell
    cases hcell
  have hnew' {a : ObjectId} : ¬ p.objects a (h'.newCell kind').2 := by
    intro ha
    obtain ⟨cell, cell', -, hcell', -⟩ := H.object ha
    rw [hfresh'] at hcell'
    cases hcell'
  refine ⟨H.orderly.keeps (keeps_newCell h kind) hfits H.orderly.holds,
    H.orderly'.keeps (keeps_newCell h' kind') hfits' H.orderly'.holds, ?_, ?_, ?_, H.record, H.borrowed⟩
  · rintro a b (hab | ⟨rfl, rfl⟩)
    · obtain ⟨cell, cell', hcell, hcell', hpair⟩ := H.object hab
      have hne : a.cell ≠ (h.newCell kind).2.cell := fun heq => by
        rw [heq, hfresh] at hcell
        cases hcell
      have hne' : b.cell ≠ (h'.newCell kind').2.cell := fun heq => by
        rw [heq, hfresh'] at hcell'
        cases hcell'
      exact ⟨cell, cell', by rw [hget, if_neg hne, hcell], by rw [hget', if_neg hne', hcell'],
        hpair.mono hle (fun _ _ hprop => hprop) fun _ _ hprop => hprop⟩
    · exact ⟨⟨#[], kind⟩, ⟨#[], kind'⟩, by rw [hget, if_pos rfl], by rw [hget', if_pos rfl], hkind.mono hle, .empty⟩
  · rintro a b c (hb | ⟨rfl, rfl⟩) (hc | ⟨hac, rfl⟩)
    · exact H.right hb hc
    · exact absurd (hac ▸ hb) hnew
    · exact absurd hc hnew
    · rfl
  · rintro a b c (ha | ⟨rfl, rfl⟩) (hb | ⟨rfl, hbc⟩)
    · exact H.left ha hb
    · exact absurd (hbc ▸ ha) hnew'
    · exact absurd hb hnew'
    · rfl

/-! ## Strings -/

end Paired

/-- Where there is room, a text that does not fit a value becomes a record behind the others. -/
theorem Orderly.alloc (ho : h.Orderly) {bytes : List UInt8} (hinline : Value.ofInline? bytes = none)
    (hroom : (leftBy (h.strings.alloc bytes)).data.size < payloadSize) :
    ∃ offset : Payload, ∃ strings : StringHeap, h.strings.alloc bytes = .ok (.string (.owned offset)) strings ∧
      (∃ texts, strings.Holds texts) ∧ strings.borrowed = h.strings.borrowed ∧
      strings.IsRecord offset.val ∧ strings.bytes (.owned offset) = bytes ∧
      ∀ old : Payload, h.strings.IsRecord old.val →
        strings.IsRecord old.val ∧ strings.bytes (.owned old) = h.strings.bytes (.owned old) := by
  obtain ⟨texts, hholds⟩ := ho.holds
  have hbefore := Nat.lt_of_le_of_lt (size_alloc_le h.strings bytes) hroom
  have hword : (UInt64.ofNat h.strings.data.size).toNat = h.strings.data.size :=
    UInt64.toNat_ofNat_of_lt' (Nat.lt_trans hbefore (by decide))
  have halloc : h.strings.alloc bytes = h.strings.allocRecord bytes.toByteArray := by
    simp only [StringHeap.alloc, hinline]
  have hstored : ∃ v strings, h.strings.alloc bytes = .ok v strings ∧ strings.borrowed = h.strings.borrowed := by
    rw [halloc]
    unfold StringHeap.allocRecord Value.ofOwned? Payload.ofWord?
    simp only [hword, hbefore, dif_pos]
    exact ⟨_, _, rfl, rfl⟩
  obtain ⟨v, strings, hok, hborrowed⟩ := hstored
  rw [hok] at hroom
  obtain ⟨hholds', offset, rfl, hoffset⟩ :=
    hholds.allocRecord (halloc ▸ hok) (Nat.lt_trans hroom (by decide : payloadSize < UInt64.size))
  have hbytes : bytes.toByteArray.data.toList = bytes := by simp
  rw [hbytes] at hholds'
  have hentry : (offset.val, bytes) ∈ StringHeap.entriesFrom 0 (texts ++ [bytes]) := by
    rw [StringHeap.entriesFrom_append]
    refine List.mem_append_right _ ?_
    simp [StringHeap.entriesFrom, hoffset]
  refine ⟨offset, strings, hok, ⟨_, hholds'⟩, hborrowed, ⟨_, hholds', bytes, hentry⟩, hholds'.bytes_of_mem hentry,
    fun old hold => ?_⟩
  obtain ⟨t, ht⟩ := isRecord_of_mem hholds hold
  have ht' : (old.val, t) ∈ StringHeap.entriesFrom 0 (texts ++ [bytes]) := by
    rw [StringHeap.entriesFrom_append]
    exact List.mem_append_left _ ht
  exact ⟨⟨_, hholds', t, ht'⟩, (hholds'.bytes_of_mem ht').trans (hholds.bytes_of_mem ht).symm⟩

namespace Paired

/-- The same text is stored for both. -/
theorem newString (H : Paired p h h') (bytes : List UInt8) (hfits : (leftBy (h.newString bytes)).Fits)
    (hfits' : (leftBy (h'.newString bytes)).Fits) :
    Meets p Pairing.Values (h.newString bytes) (h'.newString bytes) := by
  have hkeeps := (grows_newString h bytes).keeps
  have hkeeps' := (grows_newString h' bytes).keeps
  cases hinline : Value.ofInline? bytes with
  | some v =>
    have halloc (strings : StringHeap) : strings.alloc bytes = .ok v strings := by
      simp only [StringHeap.alloc, hinline]
    rw [newString_eq, halloc] at hfits hkeeps ⊢
    rw [newString_eq, halloc] at hfits' hkeeps' ⊢
    exact ⟨p, .refl p, H.congr rfl rfl rfl rfl (H.orderly.keeps hkeeps hfits H.orderly.holds)
      (H.orderly'.keeps hkeeps' hfits' H.orderly'.holds) (.refl p) (fun h => h) H.record H.borrowed,
      .ok (Pairing.Values.ofInline? hinline)⟩
  | none =>
    obtain ⟨offset, strings, hok, hholds, hborrowed, hrecord, hbytes, hold⟩ :=
      H.orderly.alloc hinline (strings_newString h bytes ▸ hfits.strings)
    obtain ⟨offset', strings', hok', hholds', hborrowed', hrecord', hbytes', hold'⟩ :=
      H.orderly'.alloc hinline (strings_newString h' bytes ▸ hfits'.strings)
    rw [newString_eq, hok] at hfits hkeeps ⊢
    rw [newString_eq, hok'] at hfits' hkeeps' ⊢
    refine ⟨p.withRecord offset offset', p.le_withRecord _ _, H.congr rfl rfl rfl rfl
      (H.orderly.keeps hkeeps hfits hholds) (H.orderly'.keeps hkeeps' hfits' hholds') (p.le_withRecord _ _)
      (fun h => h) ?_ ?_, .ok (.string (.owned (.inr ⟨rfl, rfl⟩)))⟩
    · rintro a b (hab | ⟨rfl, rfl⟩)
      · obtain ⟨ha, hb, hsame⟩ := H.record hab
        obtain ⟨hthere, hkept⟩ := hold a ha
        obtain ⟨hthere', hkept'⟩ := hold' b hb
        exact ⟨hthere, hthere', hkept'.trans (hsame.trans hkept.symm)⟩
      · exact ⟨hrecord, hrecord', hbytes'.trans hbytes.symm⟩
    · exact hborrowed'.trans (H.borrowed.trans hborrowed.symm)

theorem concatStrings (H : Paired p h h') (hs : p.Texts s s') (ht : p.Texts t t')
    (hfits : (leftBy (h.concatStrings s t)).Fits) (hfits' : (leftBy (h'.concatStrings s' t')).Fits) :
    Meets p Pairing.Values (h.concatStrings s t) (h'.concatStrings s' t') := by
  rw [concatStrings_eq] at hfits hfits' ⊢
  rw [concatStrings_eq]
  rw [H.bytes_eq hs, H.bytes_eq ht] at hfits' ⊢
  exact H.newString _ hfits hfits'

/-- The tables of borrowed texts stay the same. -/
theorem lendString (H : Paired p h h') (lender : Lender) (bytes : List UInt8)
    (hfits : (leftBy (h.lendString lender bytes)).Fits) (hfits' : (leftBy (h'.lendString lender bytes)).Fits) :
    Meets p Pairing.Values (h.lendString lender bytes) (h'.lendString lender bytes) := by
  have hkeeps := keeps_lendString h lender bytes
  have hkeeps' := keeps_lendString h' lender bytes
  unfold Heap.lendString StringHeap.lend at hfits hfits' hkeeps hkeeps' ⊢
  have hsame (strings strings' : StringHeap) (hdata : strings.data = h.strings.data) (hdata' : strings'.data = h'.strings.data)
      (hborrowed : strings'.borrowed = strings.borrowed)
      (hk : Keeps h { h with strings := strings }) (hk' : Keeps h' { h' with strings := strings' })
      (hfits : ({ h with strings := strings } : Heap).Fits) (hfits' : ({ h' with strings := strings' } : Heap).Fits) :
      Paired p { h with strings := strings } { h' with strings := strings' } := by
    obtain ⟨texts, hholds⟩ := H.orderly.holds
    obtain ⟨texts', hholds'⟩ := H.orderly'.holds
    refine H.congr rfl rfl rfl rfl (H.orderly.keeps hk hfits ⟨texts, (holds_congr hdata).mpr hholds⟩)
      (H.orderly'.keeps hk' hfits' ⟨texts', (holds_congr hdata').mpr hholds'⟩) (.refl p) (fun h => h) ?_ hborrowed
    intro offset offset' ho
    obtain ⟨⟨texts, hholds, hrecord⟩, ⟨texts', hholds', hrecord'⟩, hbytes⟩ := H.record ho
    refine ⟨⟨texts, (holds_congr hdata).mpr hholds, hrecord⟩, ⟨texts', (holds_congr hdata').mpr hholds', hrecord'⟩, ?_⟩
    rw [bytes_owned_congr hdata, bytes_owned_congr hdata']
    exact hbytes
  cases hinline : Value.ofInline? bytes with
  | some v =>
    simp only [hinline] at hfits hfits' hkeeps hkeeps' ⊢
    exact ⟨p, .refl p, hsame _ _ rfl rfl H.borrowed hkeeps hkeeps' hfits hfits',
      .ok (Pairing.Values.ofInline? hinline)⟩
  | none =>
    simp only [hinline, H.borrowed] at hfits hfits' hkeeps hkeeps' ⊢
    generalize hforeign : Value.ofForeignText? _ = value at hfits hfits' hkeeps hkeeps' ⊢
    cases value with
    | error e => exact ⟨p, .refl p, hsame _ _ rfl rfl H.borrowed hkeeps hkeeps' hfits hfits', .error _⟩
    | ok v =>
      refine ⟨p, .refl p, hsame _ _ ?_ ?_ ?_ hkeeps hkeeps' hfits hfits',
        .ok (Pairing.Values.ofForeignText? hforeign)⟩
      · split <;> rfl
      · split <;> rfl
      · split
        · exact H.borrowed
        · rfl

/-! ## Items and bytes -/

/-- The same change of an object and of the one that stands for it. -/
theorem modifyCell (H : Paired p h h') (hid : p.objects id id') {f f' : ObjectCell → ObjectCell}
    (hf : ∀ cell cell', PairsCell p h h' cell cell' → PairsCell p h h' (f cell) (f' cell'))
    (ho : (h.modifyCell id f).Orderly) (ho' : (h'.modifyCell id' f').Orderly) :
    Paired p (h.modifyCell id f) (h'.modifyCell id' f') := by
  refine ⟨ho, ho', fun {a a'} ha => ?_, H.right, H.left, H.record, H.borrowed⟩
  obtain ⟨cell, cell', hcell, hcell', hpair⟩ := H.object ha
  have hiff := H.eq_iff ha hid
  have hget : (h.modifyCell id f).objects.get? a.cell = _ := Arena.get?_modify _ _ _ _
  have hget' : (h'.modifyCell id' f').objects.get? a'.cell = _ := Arena.get?_modify _ _ _ _
  by_cases heq : a = id
  · obtain rfl := heq
    obtain rfl := hiff.mp rfl
    rw [if_pos rfl, hcell] at hget
    rw [if_pos rfl, hcell'] at hget'
    exact ⟨f cell, f' cell', hget, hget', (hf cell cell' hpair).mono (.refl p) (fun _ _ h => h) fun _ _ h => h⟩
  · have hcells {a id : ObjectId} (hne : a ≠ id) : a.cell ≠ id.cell := fun hc =>
      hne (ObjectId.eq_of_cell_eq hc)
    rw [if_neg (hcells heq), hcell] at hget
    rw [if_neg (hcells fun h => heq (hiff.mpr h)), hcell'] at hget'
    exact ⟨cell, cell', hget, hget', hpair.mono (.refl p) (fun _ _ h => h) fun _ _ h => h⟩

theorem modifyItems (H : Paired p h h') (hid : p.objects id id') {f f' : Array Value → Array Value}
    (hf : ∀ items items', Rows p.Values items items' → Rows p.Values (f items) (f' items'))
    (hfits : (leftBy (h.modifyItems id f)).Fits) (hfits' : (leftBy (h'.modifyItems id' f')).Fits) :
    Meets p Same (h.modifyItems id f) (h'.modifyItems id' f') := by
  have hkeeps := keeps_modifyItems h id f
  have hkeeps' := keeps_modifyItems h' id' f'
  unfold Heap.modifyItems at hfits hfits' hkeeps hkeeps' ⊢
  have hcell := H.cell hid
  generalize h.cell id = x, h'.cell id' = x' at hcell hfits hfits' hkeeps hkeeps' ⊢
  cases hcell with
  | error e => exact ⟨p, .refl p, H, .error e⟩
  | @ok cell cell' hpair =>
    obtain ⟨properties, kind⟩ := cell
    obtain ⟨properties', kind'⟩ := cell'
    cases hpair.kind with
    | array hitems =>
      refine ⟨p, .refl p, H.modifyCell hid ?_ (H.orderly.keeps hkeeps hfits H.orderly.holds)
        (H.orderly'.keeps hkeeps' hfits' H.orderly'.holds), .ok rfl⟩
      rintro ⟨properties, kind⟩ ⟨properties', kind'⟩ hpair
      cases hpair.kind with
      | array hitems => exact ⟨.array (hf _ _ hitems), hpair.properties⟩
      | _ => exact hpair
    | _ => exact ⟨p, .refl p, H, .error _⟩

theorem arraySet (H : Paired p h h') (hid : p.objects id id') (index : Nat) (hv : p.Values v v')
    (hfits : (leftBy (h.arraySet id index v)).Fits) (hfits' : (leftBy (h'.arraySet id' index v')).Fits) :
    Meets p Same (h.arraySet id index v) (h'.arraySet id' index v') := by
  refine H.modifyItems hid (fun items items' hitems => ?_) hfits hfits'
  unfold setItem
  rw [hitems.size_eq]
  split
  · exact hitems.set index hv
  · exact (hitems.append (.replicate _ .undefined)).push hv

theorem setByte (H : Paired p h h') (hid : p.objects id id') (index shown : Nat) (b : UInt8)
    (hfits : (leftBy (h.setByte id index shown b)).Fits) (hfits' : (leftBy (h'.setByte id' index shown b)).Fits) :
    Meets p Same (h.setByte id index shown b) (h'.setByte id' index shown b) := by
  have hkeeps := keeps_setByte h id index shown b
  have hkeeps' := keeps_setByte h' id' index shown b
  unfold Heap.setByte at hfits hfits' hkeeps hkeeps' ⊢
  rw [H.buffer_eq hid] at hfits' hkeeps' ⊢
  generalize (h.buffer id).map Bytes.size = bound at hfits hfits' hkeeps hkeeps' ⊢
  cases bound with
  | error e => exact ⟨p, .refl p, H, .error e⟩
  | ok size =>
    simp only at hfits hfits' hkeeps hkeeps' ⊢
    by_cases hindex : index < size
    · rw [if_pos hindex] at hfits hkeeps ⊢
      rw [if_pos hindex] at hfits' hkeeps' ⊢
      refine ⟨p, .refl p, H.modifyCell hid ?_ (H.orderly.keeps hkeeps hfits H.orderly.holds)
        (H.orderly'.keeps hkeeps' hfits' H.orderly'.holds), .ok rfl⟩
      rintro ⟨properties, kind⟩ ⟨properties', kind'⟩ hpair
      cases hpair.kind with
      | buffer bytes => exact ⟨.buffer _, hpair.properties⟩
      | _ => exact hpair
    · rw [if_neg hindex, if_neg hindex]
      exact ⟨p, .refl p, H, .error _⟩

/-! ## Properties -/

end Paired

theorem getElem?_of_findIn {key : List UInt8} {ids : Array PropertyId} {n place : Nat} {found : PropertyId}
    (hfind : h.findIn key ids n = .ok (some (place, found))) : ids[place]? = some found := by
  induction n with
  | zero => cases hfind
  | succ n ih =>
    simp only [findIn] at hfind
    split at hfind
    · cases hfind
    · rename_i hid
      split at hfind
      · cases hfind
      · split at hfind
        · cases hfind
          exact hid
        · exact ih hfind

/-- A property is found in an object at its place. -/
theorem exists_of_find {key : List UInt8} {place : Nat} {found : PropertyId}
    (hfind : h.find id key = .ok (some (place, found))) :
    ∃ cell, h.objects.get? id.cell = some cell ∧ cell.properties[place]? = some found := by
  unfold find Heap.cell at hfind
  cases hcell : h.objects.get? id.cell with
  | none =>
    rw [hcell] at hfind
    cases hfind
  | some cell =>
    rw [hcell] at hfind
    exact ⟨cell, rfl, getElem?_of_findIn hfind⟩

/-- A property is that of one object, and stands at one place there. -/
theorem Sound.eq_of_property (hs : h.Sound) {a b : ObjectId} {cell cell' : ObjectCell} {i j : Nat} {found : PropertyId}
    (ha : h.objects.get? a.cell = some cell) (hb : h.objects.get? b.cell = some cell')
    (hi : cell.properties[i]? = some found) (hj : cell'.properties[j]? = some found) : a = b ∧ i = j := by
  obtain rfl := hs.owner_eq ha hb (Array.mem_toList_iff.mpr (Array.mem_of_getElem? hi))
    (Array.mem_toList_iff.mpr (Array.mem_of_getElem? hj))
  rw [hb] at ha
  cases ha
  refine ⟨rfl, ?_⟩
  have hnodup := hs.nodup _ _ hb
  have hi' : cell.properties.toList[i]? = some found := by simpa using hi
  have hj' : cell.properties.toList[j]? = some found := by simpa using hj
  exact (List.getElem?_inj (List.getElem?_eq_some_iff.mp hi').1 hnodup).mp (hi'.trans hj'.symm)

namespace Paired

/-- The same change of the value of a property. -/
theorem setProperty (H : Paired p h h') (hid : p.objects id id') {key : List UInt8} {place : Nat}
    {found found' : PropertyId} (hfind : h.find id key = .ok (some (place, found)))
    (hfind' : h'.find id' key = .ok (some (place, found'))) (hv : p.Values v v')
    (ho : ({ h with properties := h.properties.modify found.cell fun prop => { prop with value := v } } : Heap).Orderly)
    (ho' : ({ h' with properties := h'.properties.modify found'.cell fun prop => { prop with value := v' } } : Heap).Orderly) :
    Paired p { h with properties := h.properties.modify found.cell fun prop => { prop with value := v } }
      { h' with properties := h'.properties.modify found'.cell fun prop => { prop with value := v' } } := by
  refine ⟨ho, ho', fun {a a'} ha => ?_, H.right, H.left, H.record, H.borrowed⟩
  obtain ⟨owner, howner, hplace⟩ := exists_of_find hfind
  obtain ⟨owner', howner', hplace'⟩ := exists_of_find hfind'
  obtain ⟨cell, cell', hcell, hcell', hpair⟩ := H.object ha
  refine ⟨cell, cell', hcell, hcell', hpair.kind, hpair.properties.imp_getElem? fun i x x' hx hx' hprop => ?_⟩
  obtain ⟨prop, prop', hget, hget', hname, hvalue⟩ := hprop
  have hiff : x = found ↔ x' = found' := by
    constructor
    · rintro rfl
      obtain ⟨rfl, rfl⟩ := H.orderly.sound.eq_of_property hcell howner hx hplace
      obtain rfl := H.right ha hid
      rw [hcell'] at howner'
      cases howner'
      exact Option.some.inj (hx'.symm.trans hplace')
    · rintro rfl
      obtain ⟨rfl, rfl⟩ := H.orderly'.sound.eq_of_property hcell' howner' hx' hplace'
      obtain rfl := H.left ha hid
      rw [hcell] at howner
      cases howner
      exact Option.some.inj (hx.symm.trans hplace)
  have hcells {x found : PropertyId} (hne : x ≠ found) : x.cell ≠ found.cell := fun hc => hne (by
    cases x; cases found
    exact congrArg PropertyId.mk hc)
  by_cases heq : x = found
  · obtain rfl := heq
    obtain rfl := hiff.mp rfl
    refine ⟨{ prop with value := v }, { prop' with value := v' }, ?_, ?_, hname, hv⟩
    · rw [Arena.get?_modify, if_pos rfl, hget]
      rfl
    · rw [Arena.get?_modify, if_pos rfl, hget']
      rfl
  · refine ⟨prop, prop', ?_, ?_, hname, hvalue⟩
    · rw [Arena.get?_modify, if_neg (hcells heq), hget]
    · rw [Arena.get?_modify, if_neg (hcells fun h => heq (hiff.mpr h)), hget']

/-- The same new property behind the others. -/
theorem addProperty (H : Paired p h h') (hid : p.objects id id') (hkey : p.Values key key') (hv : p.Values v v')
    (hfits : (h.addProperty id key v).Fits) (hfits' : (h'.addProperty id' key' v').Fits) :
    Paired p (h.addProperty id key v) (h'.addProperty id' key' v') := by
  have hget : ∀ x, (h.addProperty id key v).properties.get? x
      = if x = (h.properties.alloc ⟨key, v⟩).2.1 then some ⟨key, v⟩ else h.properties.get? x :=
    H.orderly.sound.properties.get?_alloc hfits.addressable.properties
  have hget' : ∀ x, (h'.addProperty id' key' v').properties.get? x
      = if x = (h'.properties.alloc ⟨key', v'⟩).2.1 then some ⟨key', v'⟩ else h'.properties.get? x :=
    H.orderly'.sound.properties.get?_alloc hfits'.addressable.properties
  have hfresh : h.properties.get? (h.properties.alloc ⟨key, v⟩).2.1 = none :=
    H.orderly.sound.properties.get?_alloc_id hfits.addressable.properties
  have hfresh' : h'.properties.get? (h'.properties.alloc ⟨key', v'⟩).2.1 = none :=
    H.orderly'.sound.properties.get?_alloc_id hfits'.addressable.properties
  have hsame : ∀ x prop, h.properties.get? x = some prop → (h.addProperty id key v).properties.get? x = some prop := by
    intro x prop hprop
    rw [hget, if_neg, hprop]
    rintro rfl
    rw [hfresh] at hprop
    cases hprop
  have hsame' : ∀ x prop, h'.properties.get? x = some prop →
      (h'.addProperty id' key' v').properties.get? x = some prop := by
    intro x prop hprop
    rw [hget', if_neg, hprop]
    rintro rfl
    rw [hfresh'] at hprop
    cases hprop
  refine ⟨H.orderly.keeps (keeps_addProperty h id key v) hfits H.orderly.holds,
    H.orderly'.keeps (keeps_addProperty h' id' key' v') hfits' H.orderly'.holds, fun {a a'} ha => ?_,
    H.right, H.left, H.record, H.borrowed⟩
  obtain ⟨cell, cell', hcell, hcell', hpair⟩ := H.object ha
  have hmoved := hpair.mono (Pairing.Le.refl p) hsame hsame'
  have hiff := H.eq_iff ha hid
  have hobject : (h.addProperty id key v).objects.get? a.cell = _ := Arena.get?_modify _ _ _ _
  have hobject' : (h'.addProperty id' key' v').objects.get? a'.cell = _ := Arena.get?_modify _ _ _ _
  by_cases heq : a = id
  · obtain rfl := heq
    obtain rfl := hiff.mp rfl
    rw [if_pos rfl] at hobject hobject'
    change _ = (h.objects.get? a.cell).map _ at hobject
    change _ = (h'.objects.get? a'.cell).map _ at hobject'
    rw [hcell] at hobject
    rw [hcell'] at hobject'
    refine ⟨_, _, hobject, hobject', hmoved.kind, hmoved.properties.push ⟨⟨key, v⟩, ⟨key', v'⟩, ?_, ?_, hkey, hv⟩⟩
    · exact (hget _).trans (if_pos rfl)
    · exact (hget' _).trans (if_pos rfl)
  · have hcells {a id : ObjectId} (hne : a ≠ id) : a.cell ≠ id.cell := fun hc =>
      hne (ObjectId.eq_of_cell_eq hc)
    rw [if_neg (hcells heq)] at hobject
    rw [if_neg (hcells fun h => heq (hiff.mpr h))] at hobject'
    exact ⟨cell, cell', hobject.trans hcell, hobject'.trans hcell', hmoved⟩

theorem set (H : Paired p h h') (hid : p.objects id id') (hkey : p.Values key key') (hv : p.Values v v')
    (hfits : (leftBy (h.set id key v)).Fits) (hfits' : (leftBy (h'.set id' key' v')).Fits) :
    Meets p Same (h.set id key v) (h'.set id' key' v') := by
  have hkeeps := keeps_set h id key v
  have hkeeps' := keeps_set h' id' key' v'
  unfold Heap.set at hfits hfits' hkeeps hkeeps' ⊢
  rw [H.keyBytes_eq hkey] at hfits' hkeeps' ⊢
  generalize h.keyBytes key = name at hfits hfits' hkeeps hkeeps' ⊢
  cases name with
  | error e => exact ⟨p, .refl p, H, .error e⟩
  | ok bytes =>
    simp only at hfits hfits' hkeeps hkeeps' ⊢
    have hfind := H.find hid bytes
    generalize hx : h.find id bytes = x, hx' : h'.find id' bytes = x' at hfind hfits hfits' hkeeps hkeeps' ⊢
    cases hfind with
    | error e => exact ⟨p, .refl p, H, .error e⟩
    | ok hfound =>
      cases hfound with
      | none => exact ⟨p, .refl p, H.addProperty hid hkey hv hfits hfits', .ok rfl⟩
      | @some a b hplace =>
        obtain ⟨place, found⟩ := a
        obtain ⟨place', found'⟩ := b
        obtain ⟨rfl, -⟩ := hplace
        exact ⟨p, .refl p, H.setProperty hid hx hx' hv (H.orderly.keeps hkeeps hfits H.orderly.holds)
          (H.orderly'.keeps hkeeps' hfits' H.orderly'.holds), .ok rfl⟩

end Paired

end Heap

end ScriptEngine
