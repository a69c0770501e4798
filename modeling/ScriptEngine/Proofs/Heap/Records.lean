import ScriptEngine.Proofs.Heap.Compaction
/-!
The string heap as a list of records.

`StringHeap.Holds h texts` says that the buffer is the records of `texts`, one behind the other, and
`entriesFrom` lists them with their offsets. A value at an offset of the list reads the text there
(`bytes_of_mem`), storing a text adds a record behind the others (`Holds.allocRecord`), and compaction
keeps exactly the records asked for, in their order (`Holds.compact`), and says where each went
(`relocate_compact`).
-/

namespace ScriptEngine.StringHeap

/-- The bytes that a text takes in the buffer. -/
def record (text : List UInt8) : List UInt8 :=
  Varint.encode text.length ++ text ++ [0]

theorem length_record (text : List UInt8) :
    (record text).length = Varint.length text.length + text.length + 1 := by
  simp [record]
  omega

/-- The buffer is the records of these texts. -/
structure Holds (h : StringHeap) (texts : List (List UInt8)) : Prop where
  bytes_eq : h.data.data.toList = texts.flatMap record
  short : ∀ t ∈ texts, t.length < UInt64.size

/-- Texts with the offsets of their records, the first at `start`. -/
def entriesFrom (start : Nat) : List (List UInt8) → List (Nat × List UInt8)
  | [] => []
  | t :: rest => (start, t) :: entriesFrom (start + (record t).length) rest

/-- A record of the buffer starts at the offset. -/
def IsRecord (h : StringHeap) (offset : Nat) : Prop :=
  ∃ texts, h.Holds texts ∧ ∃ t, (offset, t) ∈ entriesFrom 0 texts

/-- The records are a row of blocks. -/
theorem entriesFrom_eq (start : Nat) (texts : List (List UInt8)) :
    entriesFrom start texts = placesFrom record start texts := by
  induction texts generalizing start with
  | nil => rfl
  | cons t rest ih => rw [entriesFrom, placesFrom, ih]

theorem isFramed_record {text : List UInt8} (hshort : text.length < UInt64.size) : IsFramed (record text) := by
  refine ⟨text.length, Varint.length text.length, (length_record text).symm, fun rest => ?_⟩
  unfold record
  rw [List.append_assoc, List.append_assoc]
  exact Varint.decode_encode hshort _

theorem Holds.isFramed {h : StringHeap} {texts : List (List UInt8)} (hholds : h.Holds texts) :
    ∀ t ∈ texts, IsFramed (record t) :=
  fun t ht => isFramed_record (hholds.short t ht)

theorem mem_entriesFrom {start offset : Nat} {t : List UInt8} {texts : List (List UInt8)} :
    (offset, t) ∈ entriesFrom start texts ↔
      ∃ before behind, texts = before ++ t :: behind ∧
        offset = start + (before.flatMap record).length := by
  rw [entriesFrom_eq]
  exact mem_placesFrom

theorem entriesFrom_append (start : Nat) (texts more : List (List UInt8)) :
    entriesFrom start (texts ++ more)
      = entriesFrom start texts ++ entriesFrom (start + (texts.flatMap record).length) more := by
  induction texts generalizing start with
  | nil => rfl
  | cons t rest ih =>
    simp only [List.cons_append, entriesFrom, ih, List.flatMap_cons, List.length_append, Nat.add_assoc]

theorem map_snd_entriesFrom (start : Nat) (texts : List (List UInt8)) :
    (entriesFrom start texts).map Prod.snd = texts := by
  rw [entriesFrom_eq]
  exact map_snd_placesFrom record start texts

/-! ## Reading -/

/-- What stands in a buffer at the start of a record. -/
theorem decodeAt_record {data : ByteArray} {before behind text : List UInt8}
    (hdata : data.data.toList = before ++ record text ++ behind) (hshort : text.length < UInt64.size) :
    Varint.decodeAt (Buffer.byte? data) before.length
      = some (text.length, Varint.length text.length) := by
  have hbyte : Buffer.byte? data = fun i => data.data.toList[i]? := by
    funext i
    exact Buffer.byte?_eq data i
  rw [hbyte, Varint.decodeAt_eq_decode, hdata, List.append_assoc, List.drop_left]
  unfold record
  rw [List.append_assoc, List.append_assoc]
  exact Varint.decode_encode hshort _

theorem Holds.data_eq {h : StringHeap} {before behind : List (List UInt8)} {t : List UInt8}
    (hholds : h.Holds (before ++ t :: behind)) :
    h.data.data.toList = before.flatMap record ++ record t ++ behind.flatMap record := by
  rw [hholds.bytes_eq]
  simp

theorem Holds.span?_eq {h : StringHeap} {texts : List (List UInt8)} (hholds : h.Holds texts)
    {offset : Nat} {t : List UInt8} (hmem : (offset, t) ∈ entriesFrom 0 texts) :
    h.span? offset = some (offset + Varint.length t.length, t.length) := by
  obtain ⟨before, behind, rfl, rfl⟩ := mem_entriesFrom.1 hmem
  have hdata := hholds.data_eq
  have hshort := hholds.short t (by simp)
  have hsize : h.data.size = (before.flatMap record).length + (record t).length
      + (behind.flatMap record).length := by
    show h.data.data.toList.length = _
    rw [hdata]
    simp only [List.length_append]
  rw [length_record] at hsize
  simp only [Nat.zero_add, span?, decodeAt_record hdata hshort]
  rw [if_pos (by omega)]

theorem Holds.bytes_of_mem {h : StringHeap} {texts : List (List UInt8)} (hholds : h.Holds texts)
    {offset : Payload} {t : List UInt8} (hmem : (offset.val, t) ∈ entriesFrom 0 texts) :
    h.bytes (.owned offset) = t := by
  rw [bytes_owned (hholds.span?_eq hmem)]
  obtain ⟨before, behind, rfl, hoffset⟩ := mem_entriesFrom.1 hmem
  rw [Nat.zero_add] at hoffset
  rw [hholds.data_eq, hoffset, List.append_assoc, List.drop_append, List.drop_of_length_le (by omega)]
  unfold record
  simp [List.append_assoc]

/-- The record at an offset, as it stands in the buffer. -/
def recordAt (h : StringHeap) (offset : Nat) : List UInt8 :=
  match h.span? offset with
  | some (start, length) => (h.data.data.toList.drop offset).take (start - offset + length + 1)
  | none => []

theorem Holds.recordAt_of_mem {h : StringHeap} {texts : List (List UInt8)} (hholds : h.Holds texts)
    {offset : Nat} {t : List UInt8} (hmem : (offset, t) ∈ entriesFrom 0 texts) :
    h.recordAt offset = record t := by
  have hlength : offset + Varint.length t.length - offset + t.length + 1 = (record t).length := by
    rw [length_record]
    omega
  simp only [recordAt, hholds.span?_eq hmem, hlength]
  obtain ⟨before, behind, rfl, rfl⟩ := mem_entriesFrom.1 hmem
  rw [hholds.data_eq, Nat.zero_add, List.append_assoc, List.drop_left, List.take_left]

/-- A buffer is the records of one list of texts only. -/
theorem Holds.unique {h : StringHeap} {texts texts' : List (List UInt8)} (hholds : h.Holds texts)
    (hholds' : h.Holds texts') : texts = texts' := by
  have key : ∀ {texts texts' : List (List UInt8)}, (∀ t ∈ texts, t.length < UInt64.size) →
      (∀ t ∈ texts', t.length < UInt64.size) → texts.flatMap record = texts'.flatMap record →
      texts = texts' := by
    intro texts
    induction texts with
    | nil =>
      intro texts' _ _ heq
      rcases texts' with _ | ⟨t', rest'⟩
      · rfl
      · have := congrArg List.length heq
        simp [length_record] at this
        omega
    | cons t rest ih =>
      intro texts' hs hs' heq
      rcases texts' with _ | ⟨t', rest'⟩
      · have := congrArg List.length heq
        simp [length_record] at this
      · simp only [List.flatMap_cons] at heq
        have hdecode := congrArg Varint.decode heq
        unfold record at hdecode
        simp only [List.append_assoc] at hdecode
        rw [Varint.decode_encode (hs t (by simp)), Varint.decode_encode (hs' t' (by simp))] at hdecode
        have hlen : t.length = t'.length := by
          simp only [Option.some.injEq, Prod.mk.injEq] at hdecode
          exact hdecode.1
        have hrecord : (record t).length = (record t').length := by
          rw [length_record, length_record, hlen]
        obtain ⟨hfirst, hrest⟩ := List.append_inj heq hrecord
        unfold record at hfirst
        rw [hlen] at hfirst
        have htext := List.append_inj_left (List.append_inj' hfirst rfl).1 rfl
        have := (List.append_inj (List.append_inj' hfirst rfl).1 rfl).2
        rw [this, ih (fun t ht => hs t (by simp [ht])) (fun t ht => hs' t (by simp [ht])) hrest]
  exact key hholds.short hholds'.short (hholds.bytes_eq.symm.trans hholds'.bytes_eq)

/-! ## Storing -/

theorem toList_appendRecord (data text : ByteArray) :
    (appendRecord data text).data.toList = data.data.toList ++ record text.data.toList := by
  have hsize : text.data.toList.length = text.size := rfl
  simp [appendRecord, record, hsize]

theorem Holds.allocRecord {h h' : StringHeap} {texts : List (List UInt8)} {text : ByteArray} {v : Value}
    (hholds : h.Holds texts) (halloc : h.allocRecord text = .ok v h')
    (hfits : h'.data.size < UInt64.size) :
    h'.Holds (texts ++ [text.data.toList]) ∧
      ∃ offset : Payload, v = .string (.owned offset) ∧
        offset.val = (texts.flatMap record).length := by
  unfold StringHeap.allocRecord at halloc
  split at halloc
  case h_2 => simp at halloc
  case h_1 v' hoffset =>
    simp only [EStateM.Result.ok.injEq] at halloc
    obtain ⟨rfl, rfl⟩ := halloc
    have hdata := toList_appendRecord h.data text
    have hsize : (appendRecord h.data text).size
        = h.data.size + (record text.data.toList).length := by
      show (appendRecord h.data text).data.toList.length = _
      rw [hdata, List.length_append]
      rfl
    change (appendRecord h.data text).size < UInt64.size at hfits
    have hrecord := length_record text.data.toList
    refine ⟨⟨?_, ?_⟩, ?_⟩
    · show (appendRecord h.data text).data.toList = _
      rw [hdata, hholds.bytes_eq]
      simp
    · intro t ht
      rcases List.mem_append.1 ht with ht | ht
      · exact hholds.short t ht
      · rw [List.mem_singleton.1 ht]
        omega
    · have htoNat : (UInt64.ofNat h.data.size).toNat = h.data.size :=
        UInt64.toNat_ofNat_of_lt' (by omega)
      unfold Value.ofOwned? Payload.ofWord? at hoffset
      rw [htoNat] at hoffset
      split at hoffset
      · simp only [Except.map, Except.ok.injEq] at hoffset
        refine ⟨_, hoffset.symm, ?_⟩
        show h.data.data.toList.length = _
        rw [hholds.bytes_eq]
      · simp [Except.map] at hoffset

/-! ## Compaction -/

/-- The records that a compaction is to keep, with their offsets. -/
def keptEntries (texts : List (List UInt8)) (live : List Nat) : List (Nat × List UInt8) :=
  (entriesFrom 0 texts).filter fun e => live.contains e.1

theorem keptEntries_eq (texts : List (List UInt8)) (live : List Nat) :
    keptEntries texts live = listedAt record texts live := by
  rw [keptEntries, entriesFrom_eq, listedAt]

theorem Holds.ascending_eq {h : StringHeap} {texts : List (List UInt8)} (hholds : h.Holds texts)
    {live : List Nat} (hlive : ∀ offset ∈ live, ∃ t, (offset, t) ∈ entriesFrom 0 texts) :
    ascending h.data.size live = (keptEntries texts live).map Prod.fst := by
  simp only [entriesFrom_eq] at hlive
  rw [keptEntries_eq]
  exact ascending_eq_listedAt hholds.bytes_eq hholds.isFramed hlive

/-- What compaction does, in one equation. -/
theorem Holds.compact_eq {h : StringHeap} {texts : List (List UInt8)} (hholds : h.Holds texts)
    {live : List Nat} (hlive : ∀ offset ∈ live, ∃ t, (offset, t) ∈ entriesFrom 0 texts) :
    let kept := keptEntries texts live
    let bytes := kept.flatMap fun e => record e.2
    ∃ data : ByteArray, data.data.toList = bytes ∧
      h.compact live = ({ h with data := data }, relocation (movesTo record 0 kept),
        h.data.size - bytes.length) := by
  simp only [entriesFrom_eq] at hlive
  obtain ⟨-, hdata, heq⟩ := compact_eq_listedAt hholds.bytes_eq hholds.isFramed hlive
  simp only [keptEntries_eq]
  exact ⟨_, hdata, heq⟩

/-- Compaction leaves exactly the records asked for, in the order they had. -/
theorem Holds.compact {h : StringHeap} {texts : List (List UInt8)} (hholds : h.Holds texts)
    {live : List Nat} (hlive : ∀ offset ∈ live, ∃ t, (offset, t) ∈ entriesFrom 0 texts) :
    (h.compact live).1.Holds ((keptEntries texts live).map Prod.snd) := by
  obtain ⟨data, hdata, heq⟩ := hholds.compact_eq hlive
  rw [heq]
  refine ⟨?_, ?_⟩
  · show data.data.toList = _
    rw [hdata, List.flatMap_map]
  · intro t ht
    obtain ⟨e, he, rfl⟩ := List.mem_map.1 ht
    refine hholds.short e.2 ?_
    rw [← map_snd_entriesFrom 0 texts]
    exact List.mem_map.2 ⟨e, (List.mem_filter.1 he).1, rfl⟩

/-- The value of a record that stays leads to the record's new place; nothing else changes. -/
theorem Holds.relocate_compact {h : StringHeap} {texts : List (List UInt8)} (hholds : h.Holds texts)
    {live : List Nat} (hlive : ∀ offset ∈ live, ∃ t, (offset, t) ∈ entriesFrom 0 texts)
    {offset : Payload} {before behind : List (Nat × List UInt8)} {t : List UInt8}
    (hkept : keptEntries texts live = before ++ (offset.val, t) :: behind) :
    ∃ new : Payload, new.val = (before.flatMap fun e => record e.2).length ∧
      relocate (h.compact live).2.1 (.string (.owned offset)) = .string (.owned new) := by
  obtain ⟨data, -, heq⟩ := hholds.compact_eq hlive
  rw [keptEntries_eq] at heq hkept
  rw [heq]
  exact relocate_listed hholds.isFramed hkept

end ScriptEngine.StringHeap
