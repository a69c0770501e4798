import ScriptEngine.Proofs.Machine.Names
/-!
Histories of heaps.

Any row of requests makes objects and texts, sets and removes properties, and collects. A request is allowed where the
values that come with it are there (`Allows`), and a row of such requests leads to a heap the cells of which hold
values that are there (`Tidy.run`), so that the next collection finds the texts it is to keep.
-/

namespace ScriptEngine

namespace StringHeap

/-- What is there stays, and more may come. -/
structure Grows (s t : StringHeap) : Prop extends s.Extends t where
  isRecord : ∀ {offset : Nat}, s.IsRecord offset → t.IsRecord offset
  holds : (∃ texts, s.Holds texts) → ∃ texts, t.Holds texts

theorem Grows.refl (s : StringHeap) : s.Grows s :=
  { Extends.refl s with isRecord := id, holds := id }

theorem data_lend (s : StringHeap) (lender : Lender) (bytes : List UInt8) :
    (leftBy (s.lend lender bytes)).data = s.data := by
  unfold StringHeap.lend
  split
  · rfl
  · dsimp only
    split
    · dsimp only [leftBy]
      split <;> rfl
    · rfl

theorem grows_lend (s : StringHeap) (lender : Lender) (bytes : List UInt8) :
    s.Grows (leftBy (s.lend lender bytes)) := by
  have hholds {texts : List (List UInt8)} : (leftBy (s.lend lender bytes)).Holds texts ↔ s.Holds texts :=
    Heap.holds_congr (s.data_lend lender bytes)
  refine { s.extends_lend lender bytes with isRecord := ?_, holds := ?_ }
  · rintro offset ⟨texts, h, hmem⟩
    exact ⟨texts, hholds.2 h, hmem⟩
  · rintro ⟨texts, h⟩
    exact ⟨texts, hholds.2 h⟩

/-- A record that is stored comes behind the others. -/
theorem grows_alloc (s : StringHeap) (bytes : List UInt8)
    (hfits : (leftBy (s.alloc bytes)).data.size < UInt64.size) : s.Grows (leftBy (s.alloc bytes)) := by
  have hrecords : ∀ texts, s.Holds texts → ∃ more, (leftBy (s.alloc bytes)).Holds (texts ++ more) := by
    intro texts hholds
    unfold StringHeap.alloc at hfits ⊢
    split
    · exact ⟨[], by rwa [List.append_nil]⟩
    · rename_i hlong
      rw [hlong] at hfits
      cases hstore : s.allocRecord bytes.toByteArray with
      | ok v t =>
        simp only [hstore, leftBy] at hfits
        exact ⟨_, (hholds.allocRecord hstore hfits).1⟩
      | error e t =>
        have hsame : t = s := by
          unfold StringHeap.allocRecord at hstore
          split at hstore <;> cases hstore
          rfl
        exact ⟨[], by rwa [List.append_nil, leftBy, hsame]⟩
  refine { s.extends_alloc bytes with isRecord := ?_, holds := ?_ }
  · rintro offset ⟨texts, hholds, t, hmem⟩
    obtain ⟨more, hmore⟩ := hrecords texts hholds
    refine ⟨texts ++ more, hmore, t, ?_⟩
    rw [entriesFrom_append]
    exact List.mem_append_left _ hmem
  · rintro ⟨texts, hholds⟩
    obtain ⟨more, hmore⟩ := hrecords texts hholds
    exact ⟨_, hmore⟩

end StringHeap

namespace Heap

/-- What can be asked of a heap. -/
inductive Request where
  | create (kind : ObjectKind)
  | text (bytes : List UInt8)
  | lend (lender : Lender) (bytes : List UInt8)
  | set (id : ObjectId) (key v : Value)
  | delete (id : ObjectId) (key : Value)
  | collect (roots : List Value) (full : Bool) (slack : Nat)

/-- The heap behind a request, whether it fails or not. -/
def after (h : Heap) : Request → Heap
  | .create kind => (h.newCell kind).1
  | .text bytes => leftBy (h.newString bytes)
  | .lend lender bytes => leftBy (h.lendString lender bytes)
  | .set id key v => leftBy (h.set id key v)
  | .delete id key => leftBy (h.delete id key)
  | .collect roots full slack => (h.collect roots full slack).1

/-- The heap behind a row of requests. -/
def run (h : Heap) (requests : List Request) : Heap :=
  requests.foldl after h

/-- A value that is a text refers to one that is there. -/
def Knows (h : Heap) : Value → Prop
  | .string (.owned offset) => h.strings.IsRecord offset.val
  | .string (.foreign index) => index.val < h.strings.borrowed.size
  | _ => True

/-- The values that come with a request are there, and a text fits into the buffer. -/
def Allows (h : Heap) : Request → Prop
  | .create kind => ∀ v ∈ kind.values, h.Knows v
  | .text bytes => (h.after (.text bytes)).strings.data.size < UInt64.size
  | .lend _ _ => True
  | .set _ key v => h.Knows key ∧ h.Knows v
  | .delete _ key => h.Knows key
  | .collect roots _ _ => ∀ v ∈ roots, h.Knows v

/-- Each request of a row is allowed when it comes. -/
def AllowsAll (h : Heap) : List Request → Prop
  | [] => True
  | q :: qs => h.Allows q ∧ (h.after q).AllowsAll qs

/-- A heap in order, the cells of which hold values that are there. -/
structure Tidy (h : Heap) : Prop where
  sound : h.Sound
  unmarked : h.Unmarked
  holds : ∃ texts, h.strings.Holds texts
  items : ∀ id cell, h.objects.get? id = some cell → ∀ v ∈ cell.kind.values, h.Knows v
  names : ∀ id prop, h.properties.get? id = some prop → h.Knows prop.name ∧ (h.text? prop.name).isSome = true
  values : ∀ id prop, h.properties.get? id = some prop → h.Knows prop.value

variable {h h' : Heap} {id : ObjectId} {key v : Value} {roots : List Value} {moves : StringHeap.Relocation}

/-! ## Values that are there -/

theorem Knows.isRecord (hv : h.Knows v) {offset : Nat} (hoffset : v.offset? = some offset) :
    h.strings.IsRecord offset := by
  unfold Value.offset? at hoffset
  split at hoffset
  · cases hoffset
    exact hv
  · cases hoffset

theorem Knows.isReadable (hv : h.Knows v) : h.strings.isReadable v = true := by
  cases v with
  | string r =>
    cases r with
    | inline text => rfl
    | owned offset =>
      obtain ⟨texts, hholds, t, hmem⟩ := hv
      show (h.strings.span? offset.val).isSome = true
      rw [hholds.span?_eq hmem]
      rfl
    | foreign index => exact decide_eq_true hv
  | _ => rfl

theorem Knows.mono (hv : h.Knows v) (hgrows : h.strings.Grows h'.strings) : h'.Knows v := by
  unfold Knows at hv ⊢
  split
  · exact hgrows.isRecord hv
  · have hsize := hgrows.borrowed.length_le
    rw [Array.length_toList, Array.length_toList] at hsize
    exact Nat.lt_of_lt_of_le hv hsize
  · trivial

theorem Knows.text?_eq (hv : h.Knows v) (hgrows : h.strings.Grows h'.strings) : h'.text? v = h.text? v :=
  hgrows.toExtends.text? hv.isReadable

/-- What a collection keeps is there, where it was moved. -/
theorem Knows.collected (hv : h.Knows v) (hc : Collected h roots h' moves) (hreach : h.Reaches roots v) :
    h'.Knows (StringHeap.relocate moves v) := by
  cases v with
  | string r =>
    cases r with
    | inline text => trivial
    | owned offset =>
      obtain ⟨new, hnew, hrecord, -⟩ := hc.string offset hreach
      rw [hnew]
      exact hrecord
    | foreign index =>
      show index.val < h'.strings.borrowed.size
      rw [hc.borrowed]
      exact hv
  | _ => trivial

/-! ## Heaps in order -/

theorem Tidy.legible (ht : h.Tidy) (id : ObjectId) : h.Legible id :=
  fun _ _ p _ prop hprop => (ht.names p.cell prop hprop).1.isReadable

theorem Tidy.rooted (ht : h.Tidy) (hroots : ∀ v ∈ roots, h.Knows v) : h.Rooted roots where
  roots v hv _ hoffset := (hroots v hv).isRecord hoffset
  items id cell hcell v hv _ hoffset := (ht.items id cell hcell v hv).isRecord hoffset
  properties id p hp v hv _ hoffset := by
    rw [List.mem_cons, List.mem_singleton] at hv
    rcases hv with rfl | rfl
    · exact (ht.names id p hp).1.isRecord hoffset
    · exact (ht.values id p hp).isRecord hoffset

/-- What is put into cells may be anything that is there, and texts may be added. -/
theorem Tidy.next (ht : h.Tidy) (hkeeps : Keeps h h') (ha : h'.Addressable) (hgrows : h.strings.Grows h'.strings)
    (hitems : ∀ id cell, h'.objects.get? id = some cell → ∀ v ∈ cell.kind.values, h.Knows v)
    (hproperties : ∀ id prop, h'.properties.get? id = some prop →
      h.Knows prop.name ∧ (h.text? prop.name).isSome = true ∧ h.Knows prop.value) : h'.Tidy where
  sound := hkeeps.sound ha ht.unmarked ht.sound
  unmarked := hkeeps.unmarked ht.unmarked
  holds := hgrows.holds ht.holds
  items id cell hcell v hv := (hitems id cell hcell v hv).mono hgrows
  names id prop hprop := by
    obtain ⟨hname, htext, -⟩ := hproperties id prop hprop
    exact ⟨hname.mono hgrows, by rw [hname.text?_eq hgrows, htext]⟩
  values id prop hprop := (hproperties id prop hprop).2.2.mono hgrows

theorem Tidy.property (ht : h.Tidy) {id : CellId} {prop : Property} (hprop : h.properties.get? id = some prop) :
    h.Knows prop.name ∧ (h.text? prop.name).isSome = true ∧ h.Knows prop.value :=
  ⟨(ht.names id prop hprop).1, (ht.names id prop hprop).2, ht.values id prop hprop⟩

theorem keeps_after (h : Heap) (q : Request) : Keeps h (h.after q) := by
  cases q with
  | create kind => exact h.keeps_newCell kind
  | text bytes => exact h.keeps_storeString _
  | lend lender bytes => exact h.keeps_lendString lender bytes
  | set id key v => exact h.keeps_set id key v
  | delete id key => exact h.keeps_delete id key
  | collect roots full slack => exact h.keeps_collect roots full slack

/-- New texts change no cell. -/
theorem after_text (h : Heap) (bytes : List UInt8) :
    (h.after (.text bytes)).objects = h.objects ∧ (h.after (.text bytes)).properties = h.properties ∧
      (h.after (.text bytes)).strings = leftBy (h.strings.alloc bytes) := by
  simp only [Heap.after, newString, storeString]
  split <;> rename_i heq <;> simp [leftBy, heq]

theorem after_lend (h : Heap) (lender : Lender) (bytes : List UInt8) :
    (h.after (.lend lender bytes)).objects = h.objects ∧ (h.after (.lend lender bytes)).properties = h.properties ∧
      (h.after (.lend lender bytes)).strings = leftBy (h.strings.lend lender bytes) := by
  simp only [Heap.after, lendString]
  split <;> rename_i heq <;> simp [leftBy, heq]

/-- Only a collection takes texts away. -/
theorem grows_after {q : Request} (hallows : h.Allows q) (hq : ∀ roots full slack, q ≠ .collect roots full slack) :
    h.strings.Grows (h.after q).strings := by
  cases q with
  | create kind => exact .refl _
  | text bytes =>
    have hfits : (h.after (.text bytes)).strings.data.size < UInt64.size := hallows
    rw [(h.after_text bytes).2.2] at hfits ⊢
    exact h.strings.grows_alloc bytes hfits
  | lend lender bytes =>
    rw [(h.after_lend lender bytes).2.2]
    exact h.strings.grows_lend lender bytes
  | set id key v =>
    have hsame : (h.after (.set id key v)).strings = h.strings := by
      simp only [Heap.after, Heap.set]
      split
      · rfl
      · split <;> rfl
    rw [hsame]
    exact .refl _
  | delete id key =>
    have hsame : (h.after (.delete id key)).strings = h.strings := by
      simp only [Heap.after, Heap.delete]
      split
      · rfl
      · split <;> rfl
    rw [hsame]
    exact .refl _
  | collect roots full slack => exact absurd rfl (hq roots full slack)

theorem Tidy.collected (ht : h.Tidy) (hroots : ∀ v ∈ roots, h.Knows v) (hc : Collected h roots h' moves) : h'.Tidy := by
  refine ⟨hc.toKept.sound ht.sound, hc.unmarked, hc.exists_holds (ht.rooted hroots), ?_, ?_, ?_⟩
  · intro id cell' hcell' w hw
    obtain ⟨cell, hcell, ⟨v, hv, hid⟩, rfl⟩ := (hc.object_iff _ _).1 hcell'
    rw [values_relocateCell] at hw
    obtain ⟨w₀, hw₀, rfl⟩ := List.mem_map.1 hw
    have hof : h.cellOf? v = some cell := cellOf?_eq_some.2 ⟨_, hid, hcell⟩
    exact (ht.items id cell hcell w₀ hw₀).collected hc (.held hv hof (List.mem_append_left _ hw₀))
  all_goals
    intro id prop' hprop'
    obtain ⟨prop, hprop, ⟨objectId, cell, ⟨v, hv, hid⟩, hcell, hmem⟩, rfl⟩ := (hc.property_iff _ _).1 hprop'
    have hof : h.cellOf? v = some cell := cellOf?_eq_some.2 ⟨_, hid, hcell⟩
    have hheld : ∀ w ∈ [prop.name, prop.value], h.Reaches roots w := fun w hw =>
      .held hv hof (List.mem_append_right _ (mem_propertyValues.2 ⟨⟨id⟩, hmem, prop, hprop, hw⟩))
    obtain ⟨hname, htext, hvalue⟩ := ht.property hprop
  · have hreach := hheld prop.name (by simp)
    refine ⟨hname.collected hc hreach, ?_⟩
    rw [show (relocateProperty moves prop).name = StringHeap.relocate moves prop.name from rfl,
      (hc.readable hreach hname.isReadable).2, htext]
  · exact hvalue.collected hc (hheld prop.value (by simp))

theorem kind_of_modifyCell {f : ObjectCell → ObjectCell} (hf : ∀ cell, (f cell).kind = cell.kind) {id' : CellId}
    {cell' : ObjectCell} (hcell' : (h.modifyCell id f).objects.get? id' = some cell') :
    ∃ cell, h.objects.get? id' = some cell ∧ cell'.kind = cell.kind := by
  rw [show (h.modifyCell id f).objects.get? id' = _ from Arena.get?_modify _ _ _ _] at hcell'
  split at hcell'
  · rename_i heq
    subst heq
    obtain ⟨cell, hcell, rfl⟩ := Option.map_eq_some_iff.1 hcell'
    exact ⟨cell, hcell, hf cell⟩
  · exact ⟨cell', hcell', rfl⟩

/-- A request that is allowed leaves a heap in order. -/
theorem Tidy.after (ht : h.Tidy) {q : Request} (hallows : h.Allows q) (ha : (h.after q).Addressable) :
    (h.after q).Tidy := by
  have hkeeps := h.keeps_after q
  have hs := ht.sound
  cases q with
  | create kind =>
    refine ht.next hkeeps ha (.refl _) (fun id cell hcell w hw => ?_) fun _ _ => ht.property
    rw [show (h.after (.create kind)).objects.get? id = _ from hs.objects.get?_alloc ha.objects id] at hcell
    split at hcell
    · cases hcell
      exact hallows w hw
    · exact ht.items id cell hcell w hw
  | text bytes =>
    obtain ⟨hobjects, hproperties, -⟩ := h.after_text bytes
    refine ht.next hkeeps ha (grows_after hallows (by simp)) (fun id cell hcell => ?_) fun id prop hprop => ?_
    · rw [hobjects] at hcell
      exact ht.items id cell hcell
    · rw [hproperties] at hprop
      exact ht.property hprop
  | lend lender bytes =>
    obtain ⟨hobjects, hproperties, -⟩ := h.after_lend lender bytes
    refine ht.next hkeeps ha (grows_after hallows (by simp)) (fun id cell hcell => ?_) fun id prop hprop => ?_
    · rw [hobjects] at hcell
      exact ht.items id cell hcell
    · rw [hproperties] at hprop
      exact ht.property hprop
  | set id key v =>
    have hgrows := grows_after hallows (by simp)
    cases hset : h.set id key v with
    | error e k =>
      rw [show h.after (.set id key v) = h from (congrArg leftBy hset).trans (error_of_set hset)]
      exact ht
    | ok u k =>
      have hleft : h.after (.set id key v) = k := congrArg leftBy hset
      rw [hleft] at ha hkeeps hgrows ⊢
      obtain ⟨cell, name, hcell, hkey, ⟨p, -, rfl⟩ | ⟨-, rfl⟩⟩ := hs.set_cases hset
      · refine ht.next hkeeps ha hgrows ht.items fun id prop hprop => ?_
        rw [show (h.withValue p v).properties.get? id = _ from h.get?_withValue p v ⟨id⟩] at hprop
        split at hprop
        · obtain ⟨old, hold, rfl⟩ := Option.map_eq_some_iff.1 hprop
          exact ⟨(ht.names id old hold).1, (ht.names id old hold).2, hallows.2⟩
        · exact ht.property hprop
      · refine ht.next hkeeps ha hgrows (fun id' cell' hcell' => ?_) fun id' prop hprop => ?_
        · have hobjects : (h.addProperty id key v).objects = (h.modifyCell id fun cell =>
              { cell with properties := cell.properties.push (h.addedProperty key v) }).objects := rfl
          rw [hobjects] at hcell'
          obtain ⟨old, hold, hkind⟩ := kind_of_modifyCell (fun cell => by rfl) hcell'
          rw [hkind]
          exact ht.items id' old hold
        · rw [show (h.addProperty id key v).properties.get? id' = _ from get?_addProperty hs ha ⟨id'⟩] at hprop
          split at hprop
          · cases hprop
            exact ⟨hallows.1, by rw [hkey]; rfl, hallows.2⟩
          · exact ht.property hprop
  | delete id key =>
    have hgrows := grows_after hallows (by simp)
    cases hdelete : h.delete id key with
    | error e k =>
      rw [show h.after (.delete id key) = h from (congrArg leftBy hdelete).trans (error_of_delete hdelete)]
      exact ht
    | ok found k =>
      have hleft : h.after (.delete id key) = k := congrArg leftBy hdelete
      rw [hleft] at ha hkeeps hgrows ⊢
      obtain ⟨cell, name, hcell, -, ⟨-, -, rfl⟩ | ⟨-, place, p, -, -, rfl⟩⟩ := hs.delete_cases hdelete
      · exact ht
      · refine ht.next hkeeps ha hgrows (fun id' cell' hcell' => ?_) fun _ _ => ht.property
        obtain ⟨old, hold, hkind⟩ := kind_of_modifyCell (fun cell => by rfl) hcell'
        rw [hkind]
        exact ht.items id' old hold
  | collect roots full slack =>
    have hroots : ∀ v ∈ roots, h.Knows v := hallows
    have hc := collected_collect hs ht.unmarked (ht.rooted hroots) full slack
    exact ht.collected hroots hc

/-! ## Rows of requests -/

theorem Addressable.of_run {qs : List Request} (ha : (h.run qs).Addressable) : h.Addressable := by
  induction qs generalizing h with
  | nil => exact ha
  | cons q qs ih => exact (h.keeps_after q).addressable (ih ha)

theorem Tidy.run (ht : h.Tidy) {qs : List Request} (hallows : h.AllowsAll qs) (ha : (h.run qs).Addressable) :
    (h.run qs).Tidy := by
  induction qs generalizing h with
  | nil => exact ht
  | cons q qs ih => exact ih (ht.after hallows.1 (Addressable.of_run ha)) hallows.2 ha

end Heap

end ScriptEngine
