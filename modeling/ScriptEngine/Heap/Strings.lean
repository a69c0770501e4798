import Std.Data.HashMap
import ScriptEngine.Buffer
import ScriptEngine.Value
import ScriptEngine.Varint
/-!
Where the bytes of strings are.

A string of at most five bytes is part of its value. Longer ones are records of a flat buffer (a
length, the bytes, a zero), or entries of a table of borrowed texts, which are never copied and
never go away. Compaction slides the records in use together and says where each went.
-/

namespace ScriptEngine

/-- Who owns a borrowed text. Equal texts of one owner are one entry of the table. -/
inductive Lender where
  | engine
  | embedder
  deriving DecidableEq, Repr

/-- The storage of strings. -/
structure StringHeap where
  data : ByteArray
  /-- The bytes set aside for the buffer. -/
  size : Nat
  /-- Filled beyond this share, the buffer asks for a collection. -/
  ratio : Number
  borrowed : Array (Lender × List UInt8)

namespace StringHeap

/-- No strings yet. -/
def empty (size : Nat) (ratio : Number) : StringHeap := ⟨.empty, size, ratio, #[]⟩

/-- Half as much again and one, until the size is enough. -/
def growSize (size needed : Nat) : Nat :=
  if needed ≤ size then size else growSize (size * 3 / 2 + 1) needed
termination_by needed - size

/-- The size of the buffer when that many bytes have to fit. -/
def sizeFor (size needed : Nat) : Nat :=
  if needed ≤ size then size else growSize (max size 16) needed

/-- Whether the buffer is filled beyond its share. -/
def overThreshold (h : StringHeap) : Bool :=
  h.ratio.toFloat * Float.ofNat h.size < Float.ofNat h.data.size

/-- The buffer with the record of a text behind the others. -/
def appendRecord (data text : ByteArray) : ByteArray :=
  (data ++ (Varint.encode text.size).toByteArray ++ text).push 0

/-- Stores a text as a record. -/
def allocRecord (h : StringHeap) (text : ByteArray) : EStateM.Result Error StringHeap Value :=
  match Value.ofOwned? (UInt64.ofNat h.data.size) with
  | .ok v =>
    let size := h.size
    let data := appendRecord h.data text
    .ok v { h with data := data, size := sizeFor size data.size }
  | .error e => .error e.toError h

/-- Stores a text, in the value itself if it is short. -/
def alloc (h : StringHeap) (bytes : List UInt8) : EStateM.Result Error StringHeap Value :=
  match Value.ofInline? bytes with
  | some v => .ok v h
  | none => h.allocRecord bytes.toByteArray

/-- Refers to a borrowed text, in the value itself if it is short. -/
def lend (h : StringHeap) (lender : Lender) (bytes : List UInt8) :
    EStateM.Result Error StringHeap Value :=
  match Value.ofInline? bytes with
  | some v => .ok v h
  | none =>
    let known := h.borrowed.findIdx? fun entry => entry == (lender, bytes)
    let index := known.getD h.borrowed.size
    match Value.ofForeignText? (UInt64.ofNat index) with
    | .ok v =>
      .ok v (if known.isSome then h else { h with borrowed := h.borrowed.push (lender, bytes) })
    | .error e => .error e.toError h

/-- Where the text of the record at an offset starts, and how many bytes it has. -/
def span? (h : StringHeap) (offset : Nat) : Option (Nat × Nat) :=
  match Varint.decodeAt (Buffer.byte? h.data) offset with
  | some (length, used) =>
    if offset + used + length ≤ h.data.size then some (offset + used, length) else none
  | none => none

/-- The bytes of a borrowed text. -/
def borrowedText (h : StringHeap) (index : Nat) : List UInt8 :=
  ((h.borrowed[index]?).map Prod.snd).getD []

/-- The bytes of a string; what is not there reads as empty. -/
def bytes (h : StringHeap) (s : StringRef) : List UInt8 :=
  match s with
  | .inline text => text.bytes
  | .owned offset =>
    match h.span? offset.val with
    | some (start, length) => Buffer.between h.data start (start + length)
    | none => []
  | .foreign index => h.borrowedText index.val

/-! Parts of long strings are found without going through the whole. -/

/-- How many bytes a string has. -/
def length (h : StringHeap) (s : StringRef) : Nat :=
  match s with
  | .owned offset =>
    match h.span? offset.val with
    | some (_, length) => length
    | none => 0
  | _ => (h.bytes s).length

/-- The byte of a string at an index. -/
def byte? (h : StringHeap) (s : StringRef) (i : Nat) : Option UInt8 :=
  match s with
  | .owned offset =>
    match h.span? offset.val with
    | some (start, length) => if i < length then Buffer.byte? h.data (start + i) else none
    | none => none
  | _ => (h.bytes s)[i]?

/-- The bytes of a string from `start` on up to `stop`. -/
def between (h : StringHeap) (s : StringRef) (start stop : Nat) : List UInt8 :=
  match s with
  | .owned offset =>
    match h.span? offset.val with
    | some (first, length) => Buffer.between h.data (first + start) (first + min stop length)
    | none => []
  | _ => ((h.bytes s).take stop).drop start

/-- The bytes of a string, packed. -/
def packed (h : StringHeap) (s : StringRef) : ByteArray :=
  match s with
  | .owned offset =>
    match h.span? offset.val with
    | some (start, length) => h.data.extract start (start + length)
    | none => .empty
  | _ => (h.bytes s).toByteArray

/-- Whether a string has these bytes. -/
def spells (h : StringHeap) (s : StringRef) (bytes : List UInt8) : Bool :=
  h.length s == bytes.length && h.bytes s == bytes

/-- Stores what two strings make one behind the other. -/
def concat (h : StringHeap) (s t : StringRef) : EStateM.Result Error StringHeap Value :=
  if h.length s + h.length t ≤ maxInlineLength then h.alloc (h.bytes s ++ h.bytes t)
  else
    let text := h.packed s ++ h.packed t
    h.allocRecord text

/-- The bytes of a string value. -/
def text? (h : StringHeap) (v : Value) : Option (List UInt8) :=
  match v with
  | .string s => some (h.bytes s)
  | _ => none

/-! ## Compaction -/

/-- Where the records that moved went, by the offsets they had. -/
abbrev Relocation := Std.HashMap Nat Nat

/-- A value behind a compaction. -/
def relocate (moves : Relocation) (v : Value) : Value :=
  match v with
  | .string (.owned offset) =>
    match moves[offset.val]? with
    | some new => if h : new < payloadSize then .string (.owned ⟨new, h⟩) else v
    | none => v
  | _ => v

/-- Slides the records at rising offsets down to `dest` and on: the buffer, the old and the new offsets
of those that moved in front of `moves`, and the offset behind the last record. -/
def slide (data : ByteArray) (dest : Nat) (moves : List (Nat × Nat)) :
    List Nat → ByteArray × List (Nat × Nat) × Nat
  | [] => (data, moves, dest)
  | offset :: rest =>
    match Varint.decodeAt (Buffer.byte? data) offset with
    | none => slide data dest moves rest
    | some (length, used) =>
      let size := used + length + 1
      if offset = dest then slide data (dest + size) moves rest
      else slide (Buffer.move data offset dest size) (dest + size) ((offset, dest) :: moves) rest

/-- The numbers below `n` that a table marks, rising, in front of others. -/
def markedBelow (table : Array Bool) (others : List Nat) : Nat → List Nat
  | 0 => others
  | n + 1 => markedBelow table (if table.getD n false then n :: others else others) n

/-- Those of the offsets that are below `size`, rising, each once, by a table of the size. -/
def tabulated (size : Nat) (offsets : List Nat) : List Nat :=
  let table := offsets.foldl (fun table offset => table.setIfInBounds offset true)
    (Array.replicate size false)
  markedBelow table [] size

/-- One of each run of equal neighbours. -/
def distinct (offsets : List Nat) : List Nat :=
  offsets.foldr (fun offset rest => if rest.head? = some offset then rest else offset :: rest) []

/-- Those of the offsets that are below `size`, rising, each once, by sorting them. -/
def sorted (size : Nat) (offsets : List Nat) : List Nat :=
  distinct ((offsets.filter (· < size)).mergeSort (· ≤ ·))

/-- Sorting an offset costs about as much as passing over this many places of a table. -/
def sortingCost : Nat := 64

/-- Those of the offsets that are below `size`, rising, each once, the cheaper way. -/
def ascending (size : Nat) (offsets : List Nat) : List Nat :=
  if offsets.length * sortingCost ≤ size then sorted size offsets else tabulated size offsets

/-- Keeps the records at the given offsets: the heap, where they went, and how many bytes that
freed. -/
def compact (h : StringHeap) (live : List Nat) : StringHeap × Relocation × Nat :=
  let size := h.data.size
  let (data, moves, stop) := slide h.data 0 [] (ascending size live)
  ({ h with data := Buffer.front data stop }, .ofList moves, size - stop)

/-- Gives back what is set aside beyond the bytes in use and some slack. -/
def trim (h : StringHeap) (slack : Nat) : StringHeap :=
  if h.data.size + slack < h.size then { h with size := h.data.size + slack } else h

theorem markedBelow_eq (table : Array Bool) (others : List Nat) (n : Nat) :
    markedBelow table others n = (List.range n).filter (fun i => table[i]?.getD false) ++ others := by
  induction n generalizing others with
  | zero => simp [markedBelow]
  | succ n ih =>
    rw [markedBelow, ih, List.range_succ, List.filter_append, Array.getD_eq_getD_getElem?]
    cases h : table[n]?.getD false <;> simp [h]

theorem getElem?_markAll (offsets : List Nat) (table : Array Bool) (i : Nat) (hi : i < table.size) :
    (offsets.foldl (fun table offset => table.setIfInBounds offset true) table)[i]?.getD false
      = (table[i]?.getD false || offsets.contains i) := by
  induction offsets generalizing table with
  | nil => simp
  | cons offset rest ih =>
    rw [List.foldl_cons, ih _ (by simpa using hi), Array.getElem?_setIfInBounds]
    by_cases h : offset = i
    · simp [h, hi]
    · simp [h, Ne.symm h]

theorem mem_tabulated {size i : Nat} {offsets : List Nat} :
    i ∈ tabulated size offsets ↔ i < size ∧ i ∈ offsets := by
  simp only [tabulated, markedBelow_eq, List.append_nil, List.mem_filter, List.mem_range]
  constructor
  · rintro ⟨hi, hmarked⟩
    rw [getElem?_markAll _ _ _ (by simpa using hi)] at hmarked
    exact ⟨hi, by simpa [hi] using hmarked⟩
  · rintro ⟨hi, hmem⟩
    rw [getElem?_markAll _ _ _ (by simpa using hi)]
    exact ⟨hi, by simp [hmem]⟩

theorem tabulated_pairwise (size : Nat) (offsets : List Nat) :
    (tabulated size offsets).Pairwise (· < ·) := by
  simp only [tabulated, markedBelow_eq, List.append_nil]
  exact List.Pairwise.filter _ List.pairwise_lt_range

theorem distinct_cons (offset : Nat) (offsets : List Nat) :
    distinct (offset :: offsets)
      = if (distinct offsets).head? = some offset then distinct offsets
        else offset :: distinct offsets := rfl

theorem mem_distinct {i : Nat} {offsets : List Nat} : i ∈ distinct offsets ↔ i ∈ offsets := by
  induction offsets with
  | nil => simp [distinct]
  | cons offset rest ih =>
    rw [distinct_cons]
    split
    case isTrue hhead =>
      have hfirst := List.mem_of_head? hhead
      grind
    case isFalse => simp [ih]

/-- Offsets that never fall rise where no two neighbours are equal. -/
theorem distinct_pairwise {offsets : List Nat} (hrising : offsets.Pairwise (· ≤ ·)) :
    (distinct offsets).Pairwise (· < ·) := by
  induction offsets with
  | nil => simp [distinct]
  | cons offset rest ih =>
    obtain ⟨hle, hrest⟩ := List.pairwise_cons.1 hrising
    have htail := ih hrest
    rw [distinct_cons]
    split
    case isTrue => exact htail
    case isFalse hhead =>
      refine List.pairwise_cons.2 ⟨fun i hi => ?_, htail⟩
      cases hkept : distinct rest with
      | nil => simp [hkept] at hi
      | cons first others =>
        have hfirst := hle first (mem_distinct.1 (by simp [hkept]))
        rw [hkept] at hi hhead htail
        have hlt := (List.pairwise_cons.1 htail).1
        grind

theorem mem_sorted {size i : Nat} {offsets : List Nat} :
    i ∈ sorted size offsets ↔ i < size ∧ i ∈ offsets := by
  rw [sorted, mem_distinct, List.mem_mergeSort, List.mem_filter]
  simp [and_comm]

theorem sorted_pairwise (size : Nat) (offsets : List Nat) :
    (sorted size offsets).Pairwise (· < ·) := by
  refine distinct_pairwise ?_
  have hsorted := @List.pairwise_mergeSort Nat (· ≤ ·)
    (by simp only [decide_eq_true_eq]; omega) (by simp only [Bool.or_eq_true, decide_eq_true_eq]; omega)
    (offsets.filter (· < size))
  simpa using hsorted

theorem mem_ascending {size i : Nat} {offsets : List Nat} :
    i ∈ ascending size offsets ↔ i < size ∧ i ∈ offsets := by
  unfold ascending
  split
  case isTrue => exact mem_sorted
  case isFalse => exact mem_tabulated

theorem ascending_pairwise (size : Nat) (offsets : List Nat) :
    (ascending size offsets).Pairwise (· < ·) := by
  unfold ascending
  split
  case isTrue => exact sorted_pairwise size offsets
  case isFalse => exact tabulated_pairwise size offsets

/-! ## Parts and wholes -/

theorem span?_le {h : StringHeap} {offset start length : Nat}
    (hspan : h.span? offset = some (start, length)) : start + length ≤ h.data.size := by
  unfold span? at hspan
  split at hspan
  case h_1 =>
    split at hspan
    · obtain ⟨rfl, rfl⟩ : _ ∧ _ := by simpa using hspan
      assumption
    · simp at hspan
  case h_2 => simp at hspan

theorem bytes_owned {h : StringHeap} {offset : Payload} {start length : Nat}
    (hspan : h.span? offset.val = some (start, length)) :
    h.bytes (.owned offset) = (h.data.data.toList.drop start).take length := by
  simp only [bytes, hspan, Buffer.between_eq, List.drop_take]
  rw [Nat.add_sub_cancel_left]

theorem length_eq (h : StringHeap) (s : StringRef) : h.length s = (h.bytes s).length := by
  cases s with
  | inline => rfl
  | foreign => rfl
  | owned offset =>
    cases hspan : h.span? offset.val with
    | none => simp [length, bytes, hspan]
    | some span =>
      obtain ⟨start, length⟩ := span
      have hroom := span?_le hspan
      have hsize : h.data.data.toList.length = h.data.size := rfl
      rw [bytes_owned hspan, List.length_take, List.length_drop, hsize]
      simp only [StringHeap.length, hspan]
      omega

theorem byte?_eq (h : StringHeap) (s : StringRef) (i : Nat) : h.byte? s i = (h.bytes s)[i]? := by
  cases s with
  | inline => rfl
  | foreign => rfl
  | owned offset =>
    cases hspan : h.span? offset.val with
    | none => simp [byte?, bytes, hspan]
    | some span =>
      obtain ⟨start, length⟩ := span
      rw [bytes_owned hspan, List.getElem?_take, List.getElem?_drop]
      simp only [byte?, hspan, Buffer.byte?_eq]

theorem between_eq (h : StringHeap) (s : StringRef) (start stop : Nat) :
    h.between s start stop = ((h.bytes s).take stop).drop start := by
  cases s with
  | inline => rfl
  | foreign => rfl
  | owned offset =>
    cases hspan : h.span? offset.val with
    | none => simp [between, bytes, hspan]
    | some span =>
      obtain ⟨first, length⟩ := span
      rw [bytes_owned hspan, List.take_take, List.drop_take, List.drop_drop]
      simp only [between, hspan, Buffer.between_eq, List.drop_take]
      congr 1
      omega

theorem packed_eq (h : StringHeap) (s : StringRef) : h.packed s = (h.bytes s).toByteArray := by
  cases s with
  | inline => rfl
  | foreign => rfl
  | owned offset =>
    cases hspan : h.span? offset.val with
    | none => simp [packed, bytes, hspan]
    | some span =>
      obtain ⟨start, length⟩ := span
      rw [bytes_owned hspan]
      simp only [packed, hspan]
      apply ByteArray.ext
      apply Array.ext'
      simp

/-- Two strings make the text that their bytes make. -/
theorem concat_eq (h : StringHeap) (s t : StringRef) :
    h.concat s t = h.alloc (h.bytes s ++ h.bytes t) := by
  unfold concat
  split
  case isTrue => rfl
  case isFalse hlong =>
    have hinline : Value.ofInline? (h.bytes s ++ h.bytes t) = none := by
      rw [length_eq, length_eq] at hlong
      simp [Value.ofInline?, InlineText.ofBytes?]
      omega
    simp only [alloc, hinline, packed_eq, List.toByteArray_append]

end StringHeap

end ScriptEngine
