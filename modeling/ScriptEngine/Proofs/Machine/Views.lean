import ScriptEngine.Proofs.Machine.Collection
import ScriptEngine.Proofs.Machine.Indexing
/-!
What views show and change.

The range of a view is checked once, when it is made. Nothing that machines do takes a view out of its buffer, or its
buffer away (`Reachable.viewsFit`), so that in every reachable machine a view shows the bytes of its buffer from its
offset on, a write to it changes one of them or nothing, and all views of a buffer agree with each other and with it
(`views_inside_buffers`). Reads go by names of properties, which are indices up to the largest index of an array; writes
have no such bound, so that the bytes of large buffers behind it can be written and not read.
-/

namespace ScriptEngine

variable {W : Type} {env : Embedding W} {m m' : Machine W} {h h' : Heap} {id buffer : ObjectId}
  {offset length i : Nat} {bytes : Bytes} {key : Value} {name : List UInt8}

/-! ## Views that lie in their buffers -/

namespace Heap

theorem Change.viewsFit (hchange : h.Change h') (hs : h.Sound) (ha : h'.Addressable) (hfit : h.ViewsFit) :
    h'.ViewsFit := by
  cases hchange with
  | cell kind hadmits => exact hfit.newCell hs hadmits ha
  | signature f => exact hfit.of_objects rfl
  | string bytes => exact hfit.storeString _
  | concat s t => exact hfit.storeString _
  | lend lender bytes => exact hfit.lendString lender bytes
  | set id key v => exact hfit.set id key v
  | delete id key => exact hfit.delete id key
  | items id f => exact hfit.modifyItems id f
  | byte id index shown b => exact hfit.setByte id index shown b

/-- A change keeps the order of the heap, and views in their buffers. -/
structure KeepsViews (h h' : Heap) : Prop where
  keeps : h.Keeps h'
  views : h'.Addressable → h.Unmarked → h.Sound → h.ViewsFit → h'.ViewsFit

theorem course_keepsViews : Course KeepsViews where
  refl h := ⟨.refl h, fun _ _ _ hfit => hfit⟩
  trans h h' :=
    { keeps := h.keeps.trans h'.keeps
      views := fun ha hu hs hfit =>
        have ha' := h'.keeps.addressable ha
        h'.views ha (h.keeps.unmarked hu) (h.keeps.sound ha' hu hs) (h.views ha' hu hs hfit) }
  change hchange := ⟨hchange.keeps, fun ha _ hs hfit => hchange.viewsFit hs ha hfit⟩
  collect h roots full slack :=
    ⟨h.keeps_collect roots full slack, fun _ hu hs hfit => hfit.collect hs hu roots full slack⟩

end Heap

namespace Machine

/-- The views of a reachable machine lie in their buffers. -/
theorem Reachable.viewsFit (h : Reachable env m) : m.heap.ViewsFit := by
  obtain ⟨o, hviews⟩ := h.abides Heap.course_keepsViews
  exact hviews.views h.addressable (Heap.unmarked_empty o) (Heap.sound_empty o) (Heap.viewsFit_empty o)

/-! ## Reading -/

/-- A number is no name of a property that a kind has. -/
theorem ofName_text (n : Number) : KindProperty.ofName (Text.bytesOf n.text) = .other := by
  by_contra hother
  have hmem := mem_names_of_ofName hother rfl
  have hwords : ∀ entry ∈ KindProperty.names, (entry.1.map fun b => Char.ofNat b.toNat).all (fun c => !Text.isDigit c)
      ∧ entry.1 ≠ Text.bytesOf "NaN" ∧ entry.1 ≠ Text.bytesOf "Infinity" ∧ entry.1 ≠ Text.bytesOf "-Infinity" := by
    decide +kernel
  obtain ⟨hletters, hnan, hinfinity, hminus⟩ := hwords _ hmem
  cases hread : n.reading with
  | notANumber => exact hnan (by simp only [Number.text, hread]; rfl)
  | infinite negative =>
    cases negative with
    | false => exact hinfinity (by simp only [Number.text, hread]; rfl)
    | true => exact hminus (by simp only [Number.text, hread]; rfl)
  | finite negative m =>
    obtain ⟨c, hc, hdigit⟩ := exists_digit_text hread
    have := List.all_eq_true.mp hletters c (mem_chars_bytesOf hc (toNat_of_isDigit hdigit))
    rw [hdigit] at this
    cases this

/-- Reading a view under a name that means no property of its kind. -/
theorem property_dataView (hview : m.heap.view id = .ok (buffer, offset, length))
    (hname : m.heap.textOf key = .ok name) (hother : KindProperty.ofName name = .other) :
    m.property env (.dataView id) key = match keyIndex? key name with
      | some i => m.heap.viewItem buffer offset length i
      | none => .ok .undefined := by
  simp only [property, hname, kindProperty, hother, Heap.viewProperty, hview, bind, Except.bind]
  cases keyIndex? key name with
  | none => rfl
  | some i =>
    simp only
    cases m.heap.viewItem buffer offset length i <;> rfl

/-- Reading a buffer under a name that means no property of its kind. -/
theorem property_arrayBuffer (hbuffer : m.heap.buffer id = .ok bytes) (hname : m.heap.textOf key = .ok name)
    (hother : KindProperty.ofName name = .other) : m.property env (.arrayBuffer id) key
      = .ok (((keyIndex? key name).bind bytes.byte?).elim .undefined byteValue) := by
  simp only [property, hname, kindProperty, hother, Heap.bufferProperty, hbuffer, bind, Except.bind]
  cases keyIndex? key name <;> rfl

/-- Reading `v` under numbers shows `length` bytes from `offset` on, as far as numbers are indices. -/
structure ShowsBytes (env : Embedding W) (m : Machine W) (v : Value) (bytes : Bytes) (offset length : Nat) :
    Prop where
  inside : ∀ {n : Number} {i : Nat}, n.nat? = some i → i < length → i ≤ maxArrayIndex →
    ∃ b, bytes.byte? (offset + i) = some b ∧ m.property env v (.number n) = .ok (byteValue b)
  outside : ∀ {n : Number}, (∀ i, n.nat? = some i → length ≤ i ∨ maxArrayIndex < i) →
    m.property env v (.number n) = .ok .undefined

theorem keyIndex?_of_nat? {n : Number} (hi : n.nat? = some i) (hle : i ≤ maxArrayIndex) :
    keyIndex? (.number n) name = some i := by
  simp only [keyIndex?, hi, Option.filter, hle, decide_true, if_true]

/-- A number that is an index is the natural number that it is. -/
theorem nat?_of_keyIndex? {n : Number} (hi : keyIndex? (.number n) name = some i) :
    n.nat? = some i ∧ i ≤ maxArrayIndex := by
  simpa [keyIndex?, Option.filter_eq_some_iff] using hi

theorem showsBytes_dataView (hview : m.heap.view id = .ok (buffer, offset, length))
    (hbuffer : m.heap.buffer buffer = .ok bytes) (hle : offset + length ≤ bytes.size) :
    ShowsBytes env m (.dataView id) bytes offset length where
  inside {n i} hi hlt hmax := by
    obtain ⟨b, hb⟩ := Bytes.exists_byte? (b := bytes) (i := offset + i) (by omega)
    refine ⟨b, hb, ?_⟩
    rw [property_dataView hview rfl (ofName_text n), keyIndex?_of_nat? hi hmax]
    simp only [Heap.viewItem, if_pos hlt, hbuffer, bind, Except.bind, hb]
    rfl
  outside {n} hout := by
    rw [property_dataView hview rfl (ofName_text n)]
    cases hindex : keyIndex? (.number n) (Text.bytesOf n.text) with
    | none => rfl
    | some i =>
      obtain ⟨hi, hmax⟩ := nat?_of_keyIndex? hindex
      exact if_neg (by have := hout i hi; omega)

theorem showsBytes_arrayBuffer (hbuffer : m.heap.buffer id = .ok bytes) :
    ShowsBytes env m (.arrayBuffer id) bytes 0 bytes.size where
  inside {n i} hi hlt hmax := by
    obtain ⟨b, hb⟩ := Bytes.exists_byte? hlt
    refine ⟨b, by rwa [Nat.zero_add], ?_⟩
    rw [property_arrayBuffer hbuffer rfl (ofName_text n), keyIndex?_of_nat? hi hmax, Option.bind_some, hb]
    rfl
  outside {n} hout := by
    rw [property_arrayBuffer hbuffer rfl (ofName_text n)]
    cases hindex : keyIndex? (.number n) (Text.bytesOf n.text) with
    | none => rfl
    | some i =>
      obtain ⟨hi, hmax⟩ := nat?_of_keyIndex? hindex
      have hsize : bytes.size ≤ i := by have := hout i hi; omega
      rw [Option.bind_some, Bytes.byte?_of_le hsize]
      rfl

/-- A buffer and all its views show the same bytes. -/
structure SharesBytes (env : Embedding W) (m : Machine W) (buffer : ObjectId) (bytes : Bytes) : Prop where
  itself : ShowsBytes env m (.arrayBuffer buffer) bytes 0 bytes.size
  views : ∀ {id offset length}, m.heap.view id = .ok (buffer, offset, length) →
    ShowsBytes env m (.dataView id) bytes offset length
      ∧ m.bufferBytes (.dataView id) = .ok (bytes.between offset (offset + length))

theorem sharesBytes (hfit : m.heap.ViewsFit) (hbuffer : m.heap.buffer buffer = .ok bytes) :
    SharesBytes env m buffer bytes where
  itself := showsBytes_arrayBuffer hbuffer
  views {id offset length} hview := by
    obtain ⟨bytes', hbuffer', hle⟩ := hfit.exists_buffer hview
    obtain rfl : bytes = bytes' := Except.ok.inj (hbuffer.symm.trans hbuffer')
    refine ⟨showsBytes_dataView hview hbuffer hle, ?_⟩
    simp only [bufferBytes, hview, hbuffer, bind, Except.bind, if_pos hle]
    rfl

end Machine

/-! ## Writing -/

/-- Nothing of a heap changes but a byte of a buffer. -/
structure Heap.WritesByte (h : Heap) (buffer : ObjectId) (bytes : Bytes) (place : Nat) (b : UInt8) (h' : Heap)
    (bytes' : Bytes) : Prop where
  before : h.buffer buffer = .ok bytes
  after : h'.buffer buffer = .ok bytes'
  size : bytes'.size = bytes.size
  byte : bytes'.byte? place = some b
  bytes : ∀ j, j ≠ place → bytes'.byte? j = bytes.byte? j
  properties : (h'.cell buffer).map ObjectCell.properties = (h.cell buffer).map ObjectCell.properties
  others : ∀ id, id ≠ buffer → h'.cell id = h.cell id
  /-- Handles, marks and whatever else is in the heap. -/
  rest : h' = { h with objects := { h.objects with cells := h'.objects.cells } }

theorem Heap.setByte_ok (hbuffer : h.buffer buffer = .ok bytes) (hi : i < bytes.size) (shown : Nat) (b : UInt8) :
    ∃ h', h.setByte buffer i shown b = .ok () h' ∧ h.WritesByte buffer bytes i b h' (bytes.set i b) := by
  obtain ⟨properties, hcell⟩ := buffer_eq_ok.mp hbuffer
  unfold setByte
  simp only [hbuffer, Except.map, if_pos hi]
  generalize hchanged : h.modifyCell buffer _ = h'
  have hget (id : ObjectId) : h'.objects.get? id.cell = if id = buffer
      then some ⟨properties, .buffer (bytes.set i b)⟩ else h.objects.get? id.cell := by
    rw [← hchanged, get?_modifyCell, hcell]
    rfl
  refine ⟨h', rfl, ?_⟩
  exact
    { before := hbuffer
      after := buffer_eq_ok.mpr ⟨properties, (hget buffer).trans (if_pos rfl)⟩
      size := rfl
      byte := Bytes.byte?_set_self hi b
      bytes := fun j hj => Bytes.byte?_set_of_ne hj b
      properties := by simp only [cell, hget, if_true, hcell]; rfl
      others := fun id hid => by simp only [cell, hget, if_neg hid]
      rest := by
        rw [← hchanged]
        unfold modifyCell Arena.modify
        split <;> rfl }

namespace Machine

/-- A view as it should be. It lies in a live buffer, which shows the same bytes through all its views, and the write of
a byte changes the byte of the buffer at its place, or nothing if it has none. -/
structure ViewSpec (env : Embedding W) (m : Machine W) (id buffer : ObjectId) (offset length : Nat) (bytes : Bytes) :
    Prop where
  live : m.heap.buffer buffer = .ok bytes
  inside : offset + length ≤ bytes.size
  shared : SharesBytes env m buffer bytes
  writes : ∀ {n v : Number} {i b : Nat}, n.nat? = some i → v.nat? = some b → b ≤ 255 → i < length →
    ∃ m' bytes', setProperty env (.dataView id) (.number n) (.number v) m = .ok () m'
      ∧ m.heap.WritesByte buffer bytes (offset + i) (UInt8.ofNat b) m'.heap bytes'
      ∧ m' = { m with heap := m'.heap } ∧ SharesBytes env m' buffer bytes'
  refuses : ∀ {n v : Number} {i b : Nat}, n.nat? = some i → v.nat? = some b → b ≤ 255 → length ≤ i →
    setProperty env (.dataView id) (.number n) (.number v) m
      = .error (Heap.outOfRange (min i (UInt64.size - 1))) m

theorem setProperty_dataView {n v : Number} {b : Nat} (hi : n.nat? = some i) (hb : v.nat? = some b) (hle : b ≤ 255) :
    setProperty env (.dataView id) (.number n) (.number v) m
      = setViewItem id (min i (UInt64.size - 1)) (UInt8.ofNat b) m := by
  have hassignment : byteAssignment (.number n) (.number v) = .ok (min i (UInt64.size - 1), UInt8.ofNat b) := by
    simp only [byteAssignment, Value.asNumber?, Option.bind_some, hi, hb, Option.filter, hle, decide_true, if_true]
  simp only [setProperty, hassignment]
  rfl

/-- Where all views lie in their buffers, each of them is as it should be. -/
theorem exists_viewSpec (hfit : m.heap.ViewsFit) (hview : m.heap.view id = .ok (buffer, offset, length)) :
    ∃ bytes, ViewSpec env m id buffer offset length bytes := by
  obtain ⟨bytes, hbuffer, hle⟩ := hfit.exists_buffer hview
  have hword := bytes.size_lt
  refine ⟨bytes, hbuffer, hle, sharesBytes hfit hbuffer, fun {n v i b} hi hb hbyte hlt => ?_,
    fun {n v i b} hi hb hbyte hout => ?_⟩
  · -- The index is a word, since it is less than the size of the buffer.
    have hindex : min i (UInt64.size - 1) = i := by omega
    obtain ⟨h', hset, hwrites⟩ := Heap.setByte_ok hbuffer (i := offset + i) (by omega) i (UInt8.ofNat b)
    have hfit' : h'.ViewsFit := by
      have := hfit.setByte buffer (offset + i) i (UInt8.ofNat b)
      rwa [hset] at this
    refine ⟨{ m with heap := h' }, bytes.set (offset + i) (UInt8.ofNat b), ?_, hwrites, rfl,
      sharesBytes hfit' hwrites.after⟩
    rw [setProperty_dataView hi hb hbyte, hindex]
    simp only [setViewItem, onHeap, hview, if_pos hlt, hset]
  · have hindex : ¬ min i (UInt64.size - 1) < length := by omega
    rw [setProperty_dataView hi hb hbyte]
    simp only [setViewItem, onHeap, hview, if_neg hindex]

/-- Whatever a machine has done to come to where it is, its views are as they should be. -/
theorem views_inside_buffers (hreach : Reachable env m) (hview : m.heap.view id = .ok (buffer, offset, length)) :
    ∃ bytes, ViewSpec env m id buffer offset length bytes :=
  exists_viewSpec hreach.viewsFit hview

def numberOne : Number := .ofBits 0x3FF0000000000000

def numberTwo : Number := .ofBits 0x4000000000000000

def numberFour : Number := .ofBits 0x4010000000000000

def numberSeven : Number := .ofBits 0x401C000000000000

/-- 2³². -/
def sizeBeyond : Number := .ofBits 0x41F0000000000000

/-- One less, and one more than the largest index. -/
def indexBeyond : Number := .ofBits 0x41EFFFFFFFE00000

/-- A machine with a buffer of some size and a view of it. -/
def withView (start : Machine Unit) (size : Number) (range : List Value) : Machine Unit :=
  match newBuffer [.number size] start with
  | .ok buffer m => leftBy (newView (buffer :: range) m)
  | .error _ m => m

/-- The buffer is the second object and the view the third. -/
def hasView (m : Machine Unit) (offset length : Nat) : Bool :=
  (m.heap.view ⟨⟨2, 0⟩⟩).toOption == some (⟨⟨1, 0⟩⟩, offset, length) &&
    decide (m.heap.objects.cells.size ≤ UInt32.size) &&
    decide (m.heap.properties.cells.size ≤ UInt32.size) &&
    decide (m.heap.signatures.cells.size ≤ UInt32.size)

theorem leads_withView (start : Machine Unit) (size : Number) (range : List Value) :
    Leads noEmbedding start (withView start size range) := by
  have hleads : Leads noEmbedding start _ := leads_operation (.newBuffer [.number size]) start
  unfold withView
  split <;> rename_i heq <;> rw [heq] at hleads
  · exact hleads.trans (leads_operation (.newView _) _)
  · exact hleads

theorem exists_withView (size : Number) (range : List Value) (offset length : Nat)
    (hcheck : ((new .default ⟨"", none⟩ ()).map fun start => hasView (withView start size range) offset length).toOption
      = some true) :
    ∃ start, new .default ⟨"", none⟩ () = .ok start ∧ Reachable noEmbedding (withView start size range)
      ∧ (withView start size range).heap.view ⟨⟨2, 0⟩⟩ = .ok (⟨⟨1, 0⟩⟩, offset, length) := by
  cases hnew : new .default ⟨"", none⟩ () with
  | error e =>
    rw [hnew] at hcheck
    simp [Except.map, Except.toOption] at hcheck
  | ok start =>
    rw [hnew] at hcheck
    simp only [Except.map, Except.toOption, Option.some.injEq, hasView, Bool.and_eq_true, beq_iff_eq,
      decide_eq_true_eq] at hcheck
    obtain ⟨⟨⟨hview, hobjects⟩, hproperties⟩, hsignatures⟩ := hcheck
    refine ⟨start, rfl, ⟨⟨.default, ⟨"", none⟩, (), start, hnew, leads_withView start size range⟩, hobjects,
      hproperties, hsignatures⟩, ?_⟩
    split at hview <;> cases hview
    assumption

/-- Of four bytes a view has the two in the middle; a seven that is written as its second is the third of all. -/
theorem views_inside_buffers_middle : ∃ start m m' bytes bytes',
    new .default ⟨"", none⟩ () = .ok start ∧ m = withView start numberFour [.number numberOne, .number numberTwo]
      ∧ Reachable noEmbedding m ∧ m.heap.view ⟨⟨2, 0⟩⟩ = .ok (⟨⟨1, 0⟩⟩, 1, 2)
      ∧ ViewSpec noEmbedding m ⟨⟨2, 0⟩⟩ ⟨⟨1, 0⟩⟩ 1 2 bytes
      ∧ setProperty noEmbedding (.dataView ⟨⟨2, 0⟩⟩) (.number numberOne) (.number numberSeven) m = .ok () m'
      ∧ m'.heap.buffer ⟨⟨1, 0⟩⟩ = .ok bytes' ∧ bytes'.byte? 2 = some 7 := by
  obtain ⟨start, hnew, hreach, hview⟩ := exists_withView numberFour [.number numberOne, .number numberTwo] 1 2
    (by decide +kernel)
  obtain ⟨bytes, hspec⟩ := views_inside_buffers hreach hview
  obtain ⟨m', bytes', hset, hwrites, -, -⟩ := hspec.writes (n := numberOne) (v := numberSeven) (i := 1) (b := 7)
    (by decide +kernel) (by decide +kernel) (by decide) (by decide)
  exact ⟨start, _, m', bytes, bytes', hnew, rfl, hreach, hview, hspec, hset, hwrites.after, hwrites.byte⟩

/-- Of 2³² bytes the last can be written and not be read, as its index is behind the largest one. -/
theorem last_byte_written_not_read : ∃ start m m' bytes bytes',
    new .default ⟨"", none⟩ () = .ok start ∧ m = withView start sizeBeyond [] ∧ Reachable noEmbedding m
      ∧ m.heap.view ⟨⟨2, 0⟩⟩ = .ok (⟨⟨1, 0⟩⟩, 0, 4294967296) ∧ m.heap.buffer ⟨⟨1, 0⟩⟩ = .ok bytes
      ∧ indexBeyond.nat? = some 4294967295
      ∧ setProperty noEmbedding (.dataView ⟨⟨2, 0⟩⟩) (.number indexBeyond) (.number numberSeven) m = .ok () m'
      ∧ m'.heap.buffer ⟨⟨1, 0⟩⟩ = .ok bytes' ∧ bytes'.byte? 4294967295 = some 7
      ∧ m'.property noEmbedding (.dataView ⟨⟨2, 0⟩⟩) (.number indexBeyond) = .ok .undefined := by
  obtain ⟨start, hnew, hreach, hview⟩ := exists_withView sizeBeyond [] 0 4294967296 (by decide +kernel)
  have hindex : indexBeyond.nat? = some 4294967295 := by decide +kernel
  obtain ⟨bytes, hspec⟩ := exists_viewSpec hreach.viewsFit hview
  obtain ⟨m', bytes', hset, hwrites, -, hshared⟩ := hspec.writes (v := numberSeven) (b := 7) hindex (by decide +kernel)
    (by decide) (by decide)
  have hview' : m'.heap.view ⟨⟨2, 0⟩⟩ = .ok (⟨⟨1, 0⟩⟩, 0, 4294967296) := by
    rw [← hview, Heap.view, hwrites.others ⟨⟨2, 0⟩⟩ (by decide)]
    rfl
  refine ⟨start, _, m', bytes, bytes', hnew, rfl, hreach, hview, hwrites.before, hindex, hset, hwrites.after,
    hwrites.byte, (hshared.views hview').1.outside fun i hi => .inr ?_⟩
  obtain rfl : 4294967295 = i := Option.some.inj (hindex.symm.trans hi)
  decide

end Machine

end ScriptEngine
