import ScriptEngine.Proofs.Heap.PropertyLists
import ScriptEngine.Proofs.Machine.Evaluation
import ScriptEngine.Proofs.Machine.Texts
import ScriptEngine.Source.Parse
/-!
Entries of objects under numbers.

The key of an entry is the number as it is written, while an index is the text of the number that is written. The entry
is found by the numbers whose text its key is (`number_entry_by_spelling`), and few spellings are texts of numbers:
whole numbers without zeros in front, six places behind a point, and exponents with a sign (`spelled_of_text`).

Which number a literal stands for is a matter of the arithmetic of doubles, which is not looked into. What is said is
said of all numbers.
-/

namespace ScriptEngine

/-! ## Spellings -/

namespace Decimal

/-- Texts that numbers without a sign have. -/
inductive Spelled : List Char → Prop where
  | whole (k : Nat) : Spelled (digitChars k)
  | places (front : List Char) {behind : List Char} (hlength : behind.length = 6) : Spelled (front ++ '.' :: behind)
  | exponent (front : List Char) {sign : Char} (hsign : sign = '+' ∨ sign = '-') (k : Nat) :
      Spelled (front ++ 'e' :: sign :: digitChars k)

theorem spelled_fixedPlaces (m : Magnitude) : Spelled (fixedPlaces m 6) := by
  unfold fixedPlaces positional
  dsimp only
  rw [if_neg (by decide)]
  refine .places _ ?_
  rw [List.length_drop, List.length_append, List.length_replicate]
  omega

theorem spelled_scientific (d : Digits) : Spelled (scientific d true) := by
  unfold scientific
  dsimp only
  rw [if_pos rfl, List.append_assoc]
  split_ifs
  · exact .exponent _ (.inr rfl) _
  · exact .exponent _ (.inl rfl) _

end Decimal

open Decimal

variable {n : Number} {t cs : List Char} {c : Char}

/-- The text of a number: a special one, or a spelling that may have a minus in front. -/
theorem Number.text_cases (n : Number) : n.text ∈ ["NaN", "Infinity", "-Infinity"]
    ∨ ∃ cs, Spelled cs ∧ (n.text = String.ofList cs ∨ n.text = String.ofList ('-' :: cs)) := by
  have hsigned (negative : Bool) {cs : List Char} (hcs : Spelled cs)
      (htext : n.text = (if negative then "-" else "") ++ String.ofList cs) :
      ∃ cs, Spelled cs ∧ (n.text = String.ofList cs ∨ n.text = String.ofList ('-' :: cs)) := by
    refine ⟨cs, hcs, ?_⟩
    cases negative with
    | false => exact .inl (htext.trans String.empty_append)
    | true => exact .inr (htext.trans String.ofList_append.symm)
  cases hread : n.reading with
  | notANumber => exact .inl (by rw [Number.text, hread]; exact .head _)
  | infinite negative =>
    refine .inl ?_
    rw [Number.text, hread]
    cases negative with
    | false => exact .tail _ (.head _)
    | true => exact .tail _ (.tail _ (.head _))
  | finite negative m =>
    obtain ⟨hmantissa, hmost⟩ := double_read_finite hread
    refine .inr ?_
    by_cases hlarge : exponentFrom ≤ m.whole
    · refine hsigned negative (spelled_scientific m.shortest) ?_
      simp only [Number.text, hread, if_pos hlarge, Style.write, magnitude_eq_scientific hmantissa hmost hlarge]
      cases negative with
      | false => exact String.empty_append.symm
      | true => exact String.ofList_append
    · by_cases hwhole : m.isWhole = true
      · refine hsigned (negative && m.whole != 0) (.whole m.whole) ?_
        simp only [Number.text, hread, if_neg hlarge, if_pos hwhole]
      · refine hsigned negative (spelled_fixedPlaces m) ?_
        simp only [Number.text, hread, if_neg hlarge, if_neg hwhole]

/-- A literal starts with a digit or a point. -/
def LiteralStart (c : Char) : Prop :=
  Text.isDigit c = true ∨ c = '.'

instance (c : Char) : Decidable (LiteralStart c) :=
  inferInstanceAs (Decidable (_ ∨ _))

/-- Of the texts of numbers, those that start as literals do are spelled without a sign. -/
theorem spelled_of_text (hc : LiteralStart c) (h : n.text = String.ofList (c :: cs)) : Spelled (c :: cs) := by
  have hfirst : n.text.toList.head? = some c := by
    rw [h, String.toList_ofList]
    rfl
  rcases n.text_cases with hspecial | ⟨spelling, hspelled, htext | htext⟩
  · simp only [List.mem_cons, List.not_mem_nil, or_false] at hspecial
    have hstart : n.text.toList.head? = some 'N' ∨ n.text.toList.head? = some 'I' ∨ n.text.toList.head? = some '-' := by
      rcases hspecial with htext | htext | htext
      · exact .inl (htext ▸ rfl)
      · exact .inr (.inl (htext ▸ rfl))
      · exact .inr (.inr (htext ▸ rfl))
    rw [hfirst] at hstart
    rcases hstart with hletter | hletter | hletter <;> cases hletter <;> exact absurd hc (by decide)
  · rwa [← String.ofList_injective (htext.symm.trans h)]
  · obtain ⟨rfl, -⟩ := List.cons_eq_cons.mp (String.ofList_injective (htext.symm.trans h))
    exact absurd hc (by decide)

theorem start_of_decimal (hc : LiteralStart c) : ∃ cs, Source.Lexer.decimal (c :: t) = c :: cs := by
  unfold Source.Lexer.decimal Source.Lexer.digits
  rcases hc with hdigit | rfl
  · exact ⟨_, by rw [List.takeWhile_cons_of_pos hdigit]; rfl⟩
  · exact ⟨_, rfl⟩

/-- The text of a number starts as literals do. -/
theorem start_of_lexeme (h : Source.Lexer.lexeme cs = (.number, t)) : ∃ c rest, t = c :: rest ∧ LiteralStart c := by
  have hnumber {c : Char} {rest : List Char} (hc : LiteralStart c)
      (hlex : Source.Lexer.number (c :: rest) = (.number, t)) : ∃ c rest, t = c :: rest ∧ LiteralStart c := by
    have htext : t = Source.Lexer.decimal (c :: rest) := by
      unfold Source.Lexer.number at hlex
      split at hlex
      · rename_i heq
        rw [heq]
        split_ifs at hlex
        · cases hlex
        · exact (congrArg Prod.snd hlex).symm
      · exact (congrArg Prod.snd hlex).symm
    obtain ⟨more, hmore⟩ := start_of_decimal (t := rest) hc
    exact ⟨c, more, htext.trans hmore, hc⟩
  unfold Source.Lexer.lexeme at h
  split at h
  · cases h
  · rename_i c rest
    split_ifs at h with hname hdigit hpoint hquote
    · dsimp only at h
      split at h <;> cases h
    · exact hnumber (.inl hdigit) h
    · rw [Bool.and_eq_true, beq_iff_eq] at hpoint
      exact hnumber (.inr hpoint.1) h
    · split at h <;> cases h
    · split at h <;> cases h

/-! ## Names -/

/-- The name that a literal is as it is written. -/
def literalName (t : List Char) : List UInt8 :=
  Text.bytesOf (String.ofList t)

theorem literalName_injective : Function.Injective literalName := fun t t' h =>
  String.ofList_injective <| by
    rw [← Text.Utf8.decodeLossy_bytesOf (String.ofList t), ← Text.Utf8.decodeLossy_bytesOf (String.ofList t')]
    exact congrArg Text.Utf8.decodeLossy h

theorem LiteralStart.toNat_lt (hc : LiteralStart c) : c.toNat < 128 := by
  rcases hc with hdigit | rfl
  · exact toNat_of_isDigit hdigit
  · decide

/-- A name that does not start as literals do is none of them. -/
theorem literalName_ne {name : List UInt8} (hc : LiteralStart c)
    (hname : ∀ b ∈ name.head?, ¬ LiteralStart (Char.ofNat b.toNat)) : literalName (c :: cs) ≠ name := by
  rintro rfl
  have hchars := chars_bytesOf (c :: cs)
  rw [List.flatMap_cons, encode_ascii hc.toNat_lt] at hchars
  have hhead : ((literalName (c :: cs)).map fun b => Char.ofNat b.toNat).head? = some c := congrArg List.head? hchars
  rw [List.head?_map, Option.map_eq_some_iff] at hhead
  obtain ⟨b, hb, rfl⟩ := hhead
  exact hname b hb hc

theorem literalName_ne_delegateKey (hc : LiteralStart c) : literalName (c :: cs) ≠ Heap.delegateKey :=
  literalName_ne hc (by decide +kernel)

theorem text_ne_apply (n : Number) : Text.bytesOf n.text ≠ Text.asciiBytes "apply" := by
  intro h
  have hother := Machine.ofName_text n
  rw [h] at hother
  revert hother
  decide

/-! ## Entries -/

namespace Heap

variable {h h' : Heap} {id : ObjectId} {key v : Value} {name : List UInt8}

/-- A heap takes another object with a property, and another string. -/
structure HasRoom (h : Heap) : Prop where
  objects : ∀ cell, (h.objects.alloc cell).1.Addressable
  properties : ∀ cell, (h.properties.alloc cell).1.Addressable
  signatures : h.signatures.Addressable
  strings : h.strings.data.size < payloadSize

/-- An object has one entry, and nothing else. -/
def HasOnly (h : Heap) (id : ObjectId) (name : List UInt8) (v : Value) : Prop :=
  ∀ name', h.getOwn id name' = .ok (if name' = name then some v else none)

/-- What an object with one entry shows, which is no delegation. -/
theorem HasOnly.get (honly : h.HasOnly id name v) (hname : name ≠ delegateKey) (name' : List UInt8) :
    h.get id name' = .ok (if name' = name then some v else none) := by
  by_cases hsame : name' = name
  · rw [if_pos hsame]
    exact get_of_getOwn (by rw [honly, if_pos hsame])
  · unfold Heap.get getFrom
    rw [honly, honly, if_neg hsame, if_neg hname.symm]
    rfl

/-- The first entry of an object. -/
theorem Sound.hasOnly_set (hs : h.Sound) (hu : h.Unmarked) {kind : ObjectKind}
    (hbare : h.objects.get? id.cell = some ⟨#[], kind⟩) (hkey : h.text? key = some name) (v : Value)
    (ha : (h.addProperty id key v).Addressable) :
    ∃ h', h.set id key v = .ok () h' ∧ h'.HasOnly id name v := by
  obtain ⟨found, hfind, hsnd, -⟩ := hs.find_eq hbare name
  have hnone : found = none := by simpa using hsnd
  rw [hnone] at hfind
  have hset : h.set id key v = .ok () (h.addProperty id key v) := by
    simp only [Heap.set, Heap.keyBytes, hkey, hfind]
  refine ⟨_, hset, fun name' => ?_⟩
  rw [hs.getOwn_set hu hset ha hkey, hs.getOwn_eq hbare]
  by_cases hname : name' = name
  · rw [if_pos ⟨rfl, hname⟩, if_pos hname]
  · rw [if_neg fun hboth => hname hboth.2, if_neg hname]
    rfl

/-- A new object gets an entry under a new text. -/
theorem exists_entry (hs : h.Sound) (hu : h.Unmarked) (hroom : h.HasRoom) (hshort : name.length < UInt64.size)
    (v : Value) : ∃ key stored h', (h.newCell .plain).1.newString name = .ok key stored
      ∧ stored.text? key = some name ∧ stored.set (h.newCell .plain).2 key v = .ok () h'
      ∧ h'.HasOnly (h.newCell .plain).2 name v := by
  obtain ⟨key, strings, halloc, hkey⟩ := h.strings.exists_alloc hroom.strings hshort
  have hproperties : h.properties.Addressable :=
    Nat.le_trans (Arena.le_size_cells_alloc _ ⟨.undefined, .undefined⟩) (hroom.properties _)
  have hnew : (h.newCell .plain).1.Addressable := ⟨hroom.objects _, hproperties, hroom.signatures⟩
  have hbare := (get?_objects_newCell hs hnew (h.newCell .plain).2).trans (if_pos rfl)
  -- Texts have no part in what objects are.
  obtain ⟨stored, hstored⟩ : ∃ stored : Heap, stored = { (h.newCell .plain).1 with
    strings := strings, needsCollection := (h.newCell .plain).1.needsCollection || strings.overThreshold } := ⟨_, rfl⟩
  have hstore : (h.newCell .plain).1.newString name = .ok key stored := by
    rw [newString_eq, show (h.newCell .plain).1.strings = h.strings from rfl, halloc, hstored]
  have hkeeps : h.Keeps stored := (keeps_newCell h .plain).trans <| by
    rw [hstored]
    exact keeps_of_arenas rfl rfl rfl
  subst hstored
  have hs' := hkeeps.sound ⟨hnew.objects, hnew.properties, hnew.signatures⟩ hu hs
  obtain ⟨h', hset, honly⟩ := hs'.hasOnly_set (hkeeps.unmarked hu) hbare hkey v
    ⟨Nat.le_trans (Nat.le_of_eq (Arena.size_cells_modify _ _ _)) hnew.objects, hroom.properties _, hroom.signatures⟩
  exact ⟨key, _, h', hstore, hkey, hset, honly⟩

end Heap

namespace Machine

open Evaluation Source

variable {W : Type} {env : Embedding W} {m : Machine W} {id : ObjectId} {key v : Value} {name : List UInt8}
  {cs t : List Char}

/-- Makes an object with one entry: what the code of `({name: v})` does, step by step, where the value is there. -/
def makeEntry (env : Embedding W) (name : List UInt8) (v : Value) : Work W Unit := do
  push (← alloc Heap.newObject)
  duplicate
  pushText name
  swapTop
  push v
  operate env .assign
  drop

/-- Looks a number up in the object on top of the stack: what the code of `[n]` does. -/
def readNumber (env : Embedding W) (n : Number) : Work W Value := do
  push (numberValue n)
  swapTop
  lookUp env .swap
  pop

/-- The value of a number is a number. -/
theorem exists_numberValue (n : Number) : ∃ x, numberValue n = .number x := by
  unfold numberValue
  split
  · split_ifs
    · exact ⟨_, rfl⟩
    · exact ⟨_, rfl⟩
  · exact ⟨_, rfl⟩

/-- An object with one entry shows it under the numbers that have its name. -/
theorem property_number_of_hasOnly (honly : m.heap.HasOnly id name v) (hname : name ≠ Heap.delegateKey) (x : Number) :
    m.property env (.object id) (.number x) = .ok (if Text.bytesOf x.text = name then v else .undefined) := by
  rw [property_named (.inl rfl) rfl (by simpa [kindNames] using text_ne_apply x) nofun, honly.get hname]
  split_ifs <;> rfl

/-! What operations do where the values that they take are on top. -/

section Stack

variable {s : Array Value} {w : Value}

theorem pop_of_stack (h : m.stack = s.push v) : pop m = .ok v { m with stack := s } := by
  simp [pop, h]

theorem duplicate_of_stack (h : m.stack = s.push v) : duplicate m = .ok () { m with stack := (s.push v).push v } := by
  have hpeek : peek 0 m = .ok v m := by simp [peek, below?, h]
  exact bind_eq_ok.mpr ⟨v, m, hpeek, by rw [← h]; rfl⟩

theorem swapTop_of_stack (h : m.stack = (s.push v).push w) :
    swapTop m = .ok () { m with stack := (s.push w).push v } := by
  have htop : m.below? 0 = some w := by simp [below?, h, Array.getElem_push]
  have hnext : m.below? 1 = some v := by
    have hplace : m.stack.size - 1 - 1 = s.size := by simp [h]
    rw [below?, if_pos (by simp [h]), hplace, h, Array.getElem?_push, Array.getElem?_push]
    simp
  simp [swapTop, htop, hnext, h]

/-- A value is set under a text, and stays on top. -/
theorem assign_of_stack (h : m.stack = ((s.push key).push (.object id)).push v) (hkey : m.heap.text? key = some name)
    {heap : Heap} (hset : m.heap.set id key v = .ok () heap) :
    assign env m = .ok () { m with heap := heap, stack := s.push v } := by
  have hheap : onHeap (fun h => h.set id key v) { m with stack := s } = .ok () { m with heap := heap, stack := s } := by
    simp only [onHeap, hset]
  have hwrite : setProperty env (.object id) key v { m with stack := s } = .ok () { m with heap := heap, stack := s } :=
    (setProperty_object (m := { m with stack := s }) hkey).trans hheap
  exact bind_eq_ok.mpr ⟨v, _, pop_of_stack h, bind_eq_ok.mpr ⟨_, _, pop_of_stack rfl, bind_eq_ok.mpr
    ⟨key, _, pop_of_stack rfl, bind_eq_ok.mpr ⟨(), _, hwrite, rfl⟩⟩⟩⟩

/-- What is under a key is put in place of the key and the holder. -/
theorem lookUp_of_stack (h : m.stack = (s.push key).push w) (hread : m.property env w key = .ok v) :
    lookUp env .swap m = .ok () { m with stack := s.push v, lastHolder := w } := by
  have hinspect : inspect (fun m => m.property env w key) { m with stack := s } = .ok v { m with stack := s } := by
    have hsame : property env { m with stack := s } w key = .ok v := hread
    simp only [inspect, hsame]
  exact bind_eq_ok.mpr ⟨w, _, pop_of_stack h, bind_eq_ok.mpr ⟨key, _, pop_of_stack rfl, bind_eq_ok.mpr
    ⟨v, _, hinspect, rfl⟩⟩⟩

end Stack

theorem makeEntry_ok (env : Embedding W) (hs : m.heap.Sound) (hu : m.heap.Unmarked) (hroom : m.heap.HasRoom)
    (hshort : name.length < UInt64.size) (v : Value) :
    ∃ id m', makeEntry env name v m = .ok () m' ∧ m'.stack = m.stack.push (.object id)
      ∧ m'.heap.HasOnly id name v := by
  obtain ⟨key, stored, h, hstore, hkey, hset, honly⟩ := Heap.exists_entry hs hu hroom hshort v
  refine ⟨(m.heap.newCell .plain).2, { m with heap := h, stack := m.stack.push _ }, ?_, rfl, honly⟩
  have hname {n : Machine W} (hheap : n.heap = (m.heap.newCell .plain).1) :
      pushText name n = .ok () { n with heap := stored, stack := n.stack.push key } := by
    refine bind_eq_ok.mpr ⟨key, { n with heap := stored }, ?_, rfl⟩
    simp only [allocString, onHeap, hheap, hstore]
  refine bind_eq_ok.mpr ⟨_, _, rfl, bind_eq_ok.mpr ⟨(), _, rfl, ?_⟩⟩
  refine bind_eq_ok.mpr ⟨(), _, duplicate_of_stack rfl, ?_⟩
  refine bind_eq_ok.mpr ⟨(), _, hname rfl, ?_⟩
  refine bind_eq_ok.mpr ⟨(), _, swapTop_of_stack rfl, ?_⟩
  refine bind_eq_ok.mpr ⟨(), _, rfl, ?_⟩
  refine bind_eq_ok.mpr ⟨(), _, assign_of_stack rfl hkey hset, ?_⟩
  exact bind_eq_ok.mpr ⟨v, _, pop_of_stack rfl, rfl⟩

/-- The entry is found by the numbers that have its name for a text. -/
theorem readNumber_of_hasOnly (env : Embedding W) {s : Array Value} (hstack : m.stack = s.push (.object id))
    (honly : m.heap.HasOnly id name v) (hname : name ≠ Heap.delegateKey) {n x : Number}
    (hx : numberValue n = .number x) :
    ∃ m', readNumber env n m = .ok (if Text.bytesOf x.text = name then v else .undefined) m' := by
  have hread {k : Machine W} (hheap : k.heap = m.heap) : k.property env (.object id) (.number x)
      = .ok (if Text.bytesOf x.text = name then v else .undefined) :=
    property_number_of_hasOnly (hheap ▸ honly) hname x
  refine ⟨{ m with stack := s, lastHolder := .object id }, bind_eq_ok.mpr
    ⟨(), { m with stack := m.stack.push (numberValue n) }, rfl, ?_⟩⟩
  refine bind_eq_ok.mpr ⟨(), _, swapTop_of_stack (by rw [hstack, hx]), ?_⟩
  exact bind_eq_ok.mpr ⟨(), _, lookUp_of_stack rfl (hread rfl), pop_of_stack rfl⟩

/-! ## Literals -/

/-- A number as a key is what is written, and as a value the number that it stands for. -/
theorem number_token {s : Stream} (hkind : s.kind = .number) : Parse.entryKey? s = some (literalName s.current.text)
    ∧ Parse.literal? s = .ok (some (.number (.ofLiteral s.current.text))) := by
  unfold Parse.entryKey? Parse.literal?
  rw [hkind]
  exact ⟨rfl, rfl⟩

theorem bytesOf_eq_literalName_iff {x : Number} : Text.bytesOf x.text = literalName t ↔ x.text = String.ofList t := by
  refine ⟨fun h => ?_, fun h => congrArg Text.bytesOf h⟩
  rw [← String.ofList_toList (s := x.text)] at h ⊢
  exact congrArg String.ofList (literalName_injective h)

/-- **Entries under numbers.** The entry of an object whose key is a number as it is written is found by the numbers
whose text that is, whatever its value, and under no other. -/
theorem number_entry_by_spelling (hlex : Lexer.lexeme cs = (.number, t)) (hs : m.heap.Sound) (hu : m.heap.Unmarked)
    (hroom : m.heap.HasRoom) (hshort : (literalName t).length < UInt64.size) :
    (∀ s : Stream, s.kind = .number → s.current.text = t →
        Parse.entryKey? s = some (literalName t) ∧ Parse.literal? s = .ok (some (.number (.ofLiteral t))))
      ∧ (∀ v : Value, ∃ m', makeEntry env (literalName t) v m = .ok () m'
        ∧ ∀ n : Number, ∃ x m'', numberValue n = .number x
          ∧ readNumber env n m' = .ok (if x.text = String.ofList t then v else .undefined) m'')
      ∧ (∀ x : Number, x.text = String.ofList t → Spelled t)
      ∧ ∀ t', literalName t' = literalName t → t' = t := by
  obtain ⟨c, rest, rfl, hc⟩ := start_of_lexeme hlex
  refine ⟨?_, fun v => ?_, fun x hx => spelled_of_text hc hx, fun t' ht' => literalName_injective ht'⟩
  · rintro s hkind htext
    rw [← htext]
    exact number_token hkind
  · obtain ⟨id, m', hmake, hstack, honly⟩ := makeEntry_ok env hs hu hroom hshort v
    refine ⟨_, hmake, fun n => ?_⟩
    obtain ⟨x, hx⟩ := exists_numberValue n
    obtain ⟨m'', hread⟩ := readNumber_of_hasOnly env hstack honly (literalName_ne_delegateKey hc) hx
    exact ⟨x, m'', hx, by simpa only [bytesOf_eq_literalName_iff] using hread⟩

/-- One half. -/
def numberHalf : Number := .ofBits 0x3FE0000000000000

theorem hasRoom_noStrings : noStrings.heap.HasRoom := by
  refine ⟨fun cell => ?_, fun cell => ?_, ?_, by decide⟩
  · rw [Arena.Addressable, Arena.size_cells_alloc]
    decide +kernel
  · rw [Arena.Addressable, Arena.size_cells_alloc]
    decide +kernel
  · decide +kernel

/-- An entry under one half in six places is found. -/
theorem number_entry_by_spelling_half :
    Lexer.lexeme "0.500000".toList = (.number, "0.500000".toList) ∧ noStrings.heap.Sound ∧ noStrings.heap.Unmarked
      ∧ noStrings.heap.HasRoom ∧ (literalName "0.500000".toList).length < UInt64.size
      ∧ ∃ m', makeEntry noEmbedding (literalName "0.500000".toList) (.boolean true) noStrings = .ok () m'
        ∧ ∃ m'', readNumber noEmbedding numberHalf m' = .ok (.boolean true) m'' := by
  have hlex : Lexer.lexeme "0.500000".toList = (.number, "0.500000".toList) := by decide
  have hs := Heap.sound_empty {}
  have hu := Heap.unmarked_empty {}
  have hshort : (literalName "0.500000".toList).length < UInt64.size := by decide +kernel
  obtain ⟨-, hentry, -, -⟩ := @number_entry_by_spelling _ noEmbedding noStrings _ _ hlex hs hu hasRoom_noStrings hshort
  obtain ⟨m', hmake, hreads⟩ := hentry (.boolean true)
  obtain ⟨x, m'', hx, hread⟩ := hreads numberHalf
  obtain rfl : x = numberHalf := Value.number.inj (hx.symm.trans (by decide +kernel))
  have htext : numberHalf.text = String.ofList "0.500000".toList := by decide +kernel
  exact ⟨hlex, hs, hu, hasRoom_noStrings, hshort, m', hmake, m'', by rw [hread, if_pos htext]⟩

/-- No number has a text with one place behind the point, and an entry under such a number is found under none, the
one that was meant included. -/
theorem fraction_entry_lost :
    Lexer.lexeme "1.5".toList = (.number, "1.5".toList)
      ∧ ∃ m', makeEntry noEmbedding (literalName "1.5".toList) (.boolean true) noStrings = .ok () m'
        ∧ ∀ n, ∃ m'', readNumber noEmbedding n m' = .ok .undefined m'' := by
  have hno (x : Number) : x.text ≠ String.ofList "1.5".toList := by
    intro hx
    have hspelled : Spelled ['1', '.', '5'] := spelled_of_text (by decide) hx
    revert hspelled
    generalize hliteral : ['1', '.', '5'] = literal
    rintro (k | ⟨front, hlength⟩ | ⟨front, hsign, k⟩)
    · have hpoint := isDigit_of_mem_digitChars (n := k) (c := '.') (by rw [← hliteral]; decide)
      revert hpoint
      decide
    · have := congrArg List.length hliteral
      simp at this
      omega
    · have hexp : 'e' ∈ ['1', '.', '5'] := by
        rw [hliteral]
        exact List.mem_append_right _ List.mem_cons_self
      revert hexp
      decide
  obtain ⟨id, m', hmake, hstack, honly⟩ := makeEntry_ok noEmbedding (Heap.sound_empty {}) (Heap.unmarked_empty {})
    hasRoom_noStrings (by decide +kernel : (literalName "1.5".toList).length < UInt64.size) (.boolean true)
  refine ⟨by decide, _, hmake, fun n => ?_⟩
  obtain ⟨x, hx⟩ := exists_numberValue n
  obtain ⟨m'', hread⟩ := readNumber_of_hasOnly noEmbedding hstack honly
    (literalName_ne_delegateKey (c := '1') (by decide)) hx
  exact ⟨m'', by rw [hread, if_neg fun h => hno x (bytesOf_eq_literalName_iff.mp h)]⟩

end Machine

end ScriptEngine
