import ScriptEngine.Proofs.Machine.Views
import ScriptEngine.Proofs.Text
/-!
What strings show of their texts.

Bytes of a text are found under numbers and by their codes, and it is cut in two by a signed index. All three go by
the bytes of the text, wherever these are (`textViews`). They differ in the numbers that they take: a name is an
index up to the largest one of an array, and behind it names nothing that a string has, while codes and cuts take
every whole number.
-/

namespace ScriptEngine

variable {W : Type} {env : Embedding W} {m m' : Machine W} {s : StringRef} {text : List UInt8} {n : Number} {i : Nat}
  {z : Int}

/-! ## Whole numbers as signed indices -/

/-- An integer is kept inside the signed range. -/
theorem Number.clampInt64_of_integer? (hz : n.integer? = some z) :
    n.clampInt64 = max (-2 ^ 63) (min (2 ^ 63 - 1) z) := by
  unfold integer? at hz
  unfold clampInt64
  have hrange : int64Range = (-2 ^ 63, 2 ^ 63 - 1) := rfl
  cases hread : n.reading with
  | notANumber | infinite =>
    rw [hread] at hz
    cases hz
  | finite negative m =>
    rw [hread] at hz
    dsimp only at hz ⊢
    rw [hrange]
    split at hz
    · cases hz
      cases negative <;> simp only [Bool.false_eq_true, if_true, if_false] <;> omega
    · cases hz

theorem Number.integer?_of_nat? (hi : n.nat? = some i) : n.integer? = some (i : Int) := by
  unfold nat? at hi
  split at hi
  · rename_i k hk
    cases hi
    exact hk
  · cases hi

namespace Machine

/-- Texts are no longer than the greatest signed index. -/
def maxTextLength : Nat := 2 ^ 63 - 1

/-- What is behind the signed range is behind the ends of a text, too. -/
theorem placeOf_clampInt64 (hz : n.integer? = some z) {length : Nat} (hle : length ≤ maxTextLength) :
    placeOf n.clampInt64 length = placeOf z length := by
  rw [Number.clampInt64_of_integer? hz]
  unfold maxTextLength at hle
  simp only [placeOf]
  split_ifs <;> omega

/-! ## Reading -/

/-- The byte at a number, or the error that a string has nothing under it. -/
theorem property_text (hi : n.nat? = some i) :
    m.property env (.string s) (.number n) = if i ≤ maxArrayIndex
      then .ok (textItem m.heap.strings s i)
      else .error (.type ("cannot look up [" ++ n.text ++ "] in string")) := by
  have hname := ofName_text n
  have htext : m.heap.textOf (.number n) = .ok (Text.bytesOf n.text) := rfl
  by_cases hle : i ≤ maxArrayIndex
  · have hindex : keyIndex? (.number n) (Text.bytesOf n.text) = some i := keyIndex?_of_nat? hi hle
    rw [if_pos hle]
    simp only [property, htext, kindProperty, textProperty, hname, hindex, bind, Except.bind, Option.map_some]
    rfl
  · have hindex : keyIndex? (.number n) (Text.bytesOf n.text) = none := by
      simp only [keyIndex?, hi, Option.filter, hle, decide_false, Bool.false_eq_true, if_false]
    rw [if_neg hle]
    simp only [property, htext, kindProperty, textProperty, hname, hindex, bind, Except.bind, Option.map_none,
      ownProperty, Text.Utf8.decodeLossy_bytesOf, String.append_assoc]
    rfl

theorem text?_textItem {b : UInt8} (hb : (m.heap.strings.bytes s)[i]? = some b) :
    m.heap.text? (textItem m.heap.strings s i) = some [b] := by
  rw [textItem, StringHeap.byte?_eq, hb]
  rfl

theorem textItem_behind (hle : (m.heap.strings.bytes s).length ≤ i) :
    textItem m.heap.strings s i = .undefined := by
  rw [textItem, StringHeap.byte?_eq, List.getElem?_eq_none hle]

theorem charCodeAt_text (hi : n.nat? = some i) (hle : (m.heap.strings.bytes s).length ≤ maxTextLength) :
    charCodeAt m.heap (.string s) [.number n]
      = .ok ((m.heap.strings.bytes s)[i]?.elim .undefined byteValue) := by
  have hclamp := Number.clampInt64_of_integer? (Number.integer?_of_nat? hi)
  have hnonneg : ¬ n.clampInt64 < 0 := by omega
  -- an index that is too large for a signed one is behind the text
  have hbyte : (m.heap.strings.bytes s)[n.clampInt64.toNat]? = (m.heap.strings.bytes s)[i]? := by
    unfold maxTextLength at hle
    by_cases hsmall : i < 2 ^ 63
    · rw [show n.clampInt64.toNat = i by omega]
    · rw [List.getElem?_eq_none (by omega), List.getElem?_eq_none (by omega)]
  simp only [charCodeAt, receiverString, indexArg, indexArg?, List.getElem?_cons_zero, bind, Except.bind, pure,
    Except.pure, if_neg hnonneg, StringHeap.byte?_eq, hbyte]

theorem sliceOf_front (hz : n.integer? = some z) {zero : Number} (hzero : zero.nat? = some 0)
    (hle : (m.heap.strings.bytes s).length ≤ maxTextLength) :
    sliceOf m.heap (.string s) [.number zero, .number n]
      = .ok ((m.heap.strings.bytes s).take (placeOf z (m.heap.strings.bytes s).length)) := by
  have hstart := placeOf_clampInt64 (Number.integer?_of_nat? hzero) hle
  have hstop := placeOf_clampInt64 hz hle
  have hfirst : placeOf ((0 : Nat) : Int) (m.heap.strings.bytes s).length = 0 := by simp [placeOf]
  simp only [sliceOf, receiverString, indexArg, indexArg?, List.getElem?_cons_zero, List.getElem?_cons_succ, bind,
    Except.bind, pure, Except.pure, StringHeap.length_eq, StringHeap.between_eq, Option.map_some, Option.getD_some,
    hstart, hstop, hfirst, List.drop_zero]

theorem sliceOf_back (hz : n.integer? = some z) (hle : (m.heap.strings.bytes s).length ≤ maxTextLength) :
    sliceOf m.heap (.string s) [.number n]
      = .ok ((m.heap.strings.bytes s).drop (placeOf z (m.heap.strings.bytes s).length)) := by
  have hstart := placeOf_clampInt64 hz hle
  simp only [sliceOf, receiverString, indexArg, indexArg?, List.getElem?_cons_zero, List.getElem?_cons_succ,
    List.getElem?_nil, bind, Except.bind, pure, Except.pure, StringHeap.length_eq, StringHeap.between_eq,
    Option.map_none, Option.getD_none, hstart, List.take_length]

/-- A number that a string has nothing under. -/
def nothingUnder (n : Number) : Error := .type ("cannot look up [" ++ n.text ++ "] in string")

/-! ## Parts -/

theorem exists_string {h : Heap} {v : Value} (hv : h.text? v = some text) :
    ∃ s, v = .string s ∧ h.strings.bytes s = text := by
  cases v with
  | string s => exact ⟨s, rfl, Option.some.inj hv⟩
  | _ => cases hv

/-- A text that is stored in the heap is read there, unless the offsets of strings are used up. -/
theorem exists_newString (hroom : m.heap.strings.data.size < payloadSize) (hle : text.length ≤ maxTextLength) :
    ∃ v h, m.heap.newString text = .ok v h ∧ h.text? v = some text := by
  obtain ⟨v, t, hstore, htext⟩ := m.heap.strings.exists_alloc hroom
    (Nat.lt_of_le_of_lt hle (by decide : maxTextLength < UInt64.size))
  refine ⟨v, { m.heap with strings := t, needsCollection := m.heap.needsCollection || t.overThreshold }, ?_, htext⟩
  simp only [Heap.newString, Heap.storeString, hstore]

/-- A part of a text is a new string, unless the offsets of strings are used up. -/
theorem slice_ok {args : List Value} (hparts : sliceOf m.heap (.string s) args = .ok text)
    (hroom : m.heap.strings.data.size < payloadSize) (hle : text.length ≤ maxTextLength) :
    ∃ v m', callHost env m Builtin.slice.value (.string s) args = .done m' (.ok v) ∧ m'.heap.text? v = some text := by
  obtain ⟨v, h, hheap, hread⟩ := exists_newString hroom hle
  refine ⟨v, { m with heap := h }, ?_, hread⟩
  have hwork : slice (.string s) args m = .ok v { m with heap := h } := by
    simp only [slice, inspect, hparts, bind, EStateM.bind, allocString, onHeap, hheap]
  simp only [callHost, Builtin.value, Builtin.ofId?_id, builtin, Action.ofWork, hwork]

/-- Two strings make the text that theirs make, unless the offsets of strings are used up. -/
theorem add_ok {a b : Value} {front back : List UInt8} (ha : m.heap.text? a = some front)
    (hb : m.heap.text? b = some back) (hroom : m.heap.strings.data.size < payloadSize)
    (hle : (front ++ back).length ≤ maxTextLength) :
    ∃ v m', binary .add a b m = .ok v m' ∧ m'.heap.text? v = some (front ++ back) := by
  obtain ⟨s, rfl, rfl⟩ := exists_string ha
  obtain ⟨t, rfl, rfl⟩ := exists_string hb
  obtain ⟨v, h, hheap, hread⟩ := exists_newString hroom hle
  refine ⟨v, { m with heap := h }, ?_, hread⟩
  have hconcat : m.heap.concatStrings s t = .ok v h := by
    rw [← hheap]
    simp only [Heap.concatStrings, Heap.newString, Heap.storeString, StringHeap.concat_eq]
  simp only [binary, if_true, onHeap, hconcat]

/-- Strings are the same by their texts. -/
theorem strictEquals_of_text? {h : Heap} {v w : Value} (hv : h.text? v = some text) (hw : h.text? w = some text) :
    h.strictEquals v w = true := by
  obtain ⟨s, rfl, rfl⟩ := exists_string hv
  obtain ⟨t, rfl, ht⟩ := exists_string hw
  simp only [Heap.strictEquals, ht, beq_self_eq_true]

/-! ## Texts -/

/-- What a machine shows of the text of a string. -/
structure TextViews (env : Embedding W) (m : Machine W) (s : StringRef) (text : List UInt8) : Prop where
  /-- The length, whatever the name comes from. -/
  length : ∀ {key}, m.heap.textOf key = .ok (Text.asciiBytes "length") →
    m.property env (.string s) key = .ok (.ofNat text.length)
  item : ∀ {n i b}, n.nat? = some i → text[i]? = some b → i ≤ maxArrayIndex →
    ∃ v, m.property env (.string s) (.number n) = .ok v ∧ m.heap.text? v = some [b]
  behind : ∀ {n i}, n.nat? = some i → text.length ≤ i → i ≤ maxArrayIndex →
    m.property env (.string s) (.number n) = .ok .undefined
  /-- Behind the largest index of an array there is nothing, be it inside the text or not. -/
  refuses : ∀ {n i}, n.nat? = some i → maxArrayIndex < i →
    m.property env (.string s) (.number n) = .error (nothingUnder n)
  code : ∀ {n i}, n.nat? = some i → callHost env m Builtin.charCodeAt.value (.string s) [.number n]
    = .done m (.ok (text[i]?.elim .undefined byteValue))
  front : ∀ {n zero z}, n.integer? = some z → zero.nat? = some 0 → m.heap.strings.data.size < payloadSize →
    ∃ v m', callHost env m Builtin.slice.value (.string s) [.number zero, .number n] = .done m' (.ok v)
      ∧ m'.heap.text? v = some (text.take (placeOf z text.length))
  back : ∀ {n z}, n.integer? = some z → m.heap.strings.data.size < payloadSize →
    ∃ v m', callHost env m Builtin.slice.value (.string s) [.number n] = .done m' (.ok v)
      ∧ m'.heap.text? v = some (text.drop (placeOf z text.length))
  /-- The parts make the text again, wherever they are by then, and it is the same as every string that has it. -/
  rejoined : ∀ {m' : Machine W} {a b place}, m'.heap.text? a = some (text.take place) → m'.heap.text? b = some (text.drop place) →
    m'.heap.strings.data.size < payloadSize → ∃ v m'', binary .add a b m' = .ok v m''
      ∧ ∀ w, m''.heap.text? w = some text → m''.heap.strictEquals v w = true

theorem property_text_length {key : Value} (hkey : m.heap.textOf key = .ok (Text.asciiBytes "length")) :
    m.property env (.string s) key = .ok (.ofNat (m.heap.strings.bytes s).length) := by
  have hlength : KindProperty.ofName (Text.asciiBytes "length") = .length := by decide
  simp only [property, hkey, kindProperty, textProperty, hlength, bind, Except.bind, StringHeap.length_eq]
  rfl

/-- **Texts by index, by code and in parts.** For every string, whatever holds its bytes. -/
theorem views_of_text (env : Embedding W) (m : Machine W) (s : StringRef)
    (hle : (m.heap.strings.bytes s).length ≤ maxTextLength) : TextViews env m s (m.heap.strings.bytes s) where
  length hkey := property_text_length hkey
  item {n i b} hi hb hmax := by
    refine ⟨_, ?_, text?_textItem hb⟩
    rw [property_text hi, if_pos hmax]
  behind {n i} hi hout hmax := by
    rw [property_text hi, if_pos hmax, textItem_behind hout]
  refuses {n i} hi hmax := by
    rw [property_text hi, if_neg (Nat.not_le.mpr hmax), nothingUnder]
  code hi := by
    simp only [callHost, Builtin.value, Builtin.ofId?_id, builtin, charCodeAt_text hi hle]
  front hz hzero hroom := by
    refine slice_ok (sliceOf_front hz hzero hle) hroom ?_
    rw [List.length_take]
    omega
  back hz hroom := by
    refine slice_ok (sliceOf_back hz hle) hroom ?_
    rw [List.length_drop]
    omega
  rejoined {m' a b place} ha hb hroom := by
    obtain ⟨v, m'', hadd, hread⟩ := add_ok ha hb hroom (by rwa [List.take_append_drop])
    rw [List.take_append_drop] at hread
    exact ⟨v, m'', hadd, fun w hw => strictEquals_of_text? hread hw⟩

/-- Three letters, in the value itself. -/
def threeLetters : StringRef := .inline ⟨[97, 98, 99], by decide⟩

def minusOne : Number := .ofBits 0xBFF0000000000000

def noStrings : Machine Unit := bare {} ⟨"", none⟩ ()

/-- The second letter, its code, and the text cut behind the first one and in front of the last one. -/
theorem views_of_text_threeLetters :
    (noStrings.heap.strings.bytes threeLetters).length ≤ maxTextLength
    ∧ (∃ v, noStrings.property noEmbedding (.string threeLetters) (.number numberOne) = .ok v
        ∧ noStrings.heap.text? v = some [98])
    ∧ callHost noEmbedding noStrings Builtin.charCodeAt.value (.string threeLetters) [.number numberOne]
        = .done noStrings (.ok (byteValue 98))
    ∧ (∃ v m', callHost noEmbedding noStrings Builtin.slice.value (.string threeLetters) [.number numberOne]
        = .done m' (.ok v) ∧ m'.heap.text? v = some [98, 99])
    ∧ ∃ v m', callHost noEmbedding noStrings Builtin.slice.value (.string threeLetters) [.number minusOne]
        = .done m' (.ok v) ∧ m'.heap.text? v = some [99] := by
  have hle : (noStrings.heap.strings.bytes threeLetters).length ≤ maxTextLength := by decide
  have hviews := views_of_text noEmbedding noStrings threeLetters hle
  have hone : numberOne.nat? = some 1 := by decide +kernel
  have hroom : noStrings.heap.strings.data.size < payloadSize := by decide
  exact ⟨hle, hviews.item hone rfl (by decide), hviews.code hone,
    hviews.back (Number.integer?_of_nat? hone) hroom, hviews.back (z := -1) (by decide +kernel) hroom⟩

/-- Behind the largest index a read fails, while the code is undefined as it is behind every text. -/
theorem index_behind_refused :
    indexBeyond.nat? = some 4294967295
    ∧ noStrings.property noEmbedding (.string threeLetters) (.number indexBeyond)
        = .error (.type "cannot look up [4294967295] in string")
    ∧ callHost noEmbedding noStrings Builtin.charCodeAt.value (.string threeLetters) [.number indexBeyond]
        = .done noStrings (.ok .undefined) := by
  refine ⟨by decide +kernel, ?_, ?_⟩ <;> with_unfolding_all rfl

end Machine

end ScriptEngine
