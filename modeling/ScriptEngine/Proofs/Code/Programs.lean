import Mathlib.Data.List.Pairwise
import ScriptEngine.Proofs.Code.Units
import ScriptEngine.Value
/-!
Two programs that hold the same items.

The same sources compiled at different widths give units that hold the same items at different places. A
`Sheet` lists the items of a unit with their places in both, and an `Atlas` has one sheet for each unit
of a program. Offsets that stand for the same item are `Known` to the atlas; that is a one-to-one
relation (`Describes.known_right`, `Describes.known_left`).
-/

namespace ScriptEngine.Code

/-! ## Items that stay among themselves -/

/-- The last item ends a run, and the targets of the others are items too. -/
def Closed (items : List Item) : Prop :=
  ∃ front, items = front ++ [.plain .exit (@rfl Bool true)]
    ∧ ∀ {i : Nat} {item : Item}, front[i]? = some item → item.Within front.length i

theorem Emits.within {f : Emitter → Emitter} {items : List Item} {marks : Marks} (h : Emits 0 f items marks)
    {i : Nat} {item : Item} (hitem : items[i]? = some item) : item.Within items.length i := by
  obtain ⟨cs, hcs, rfl, -⟩ := h none none (.empty 0) [] [] (Emitter.empty_at 0) (Nat.zero_le _) rfl rfl
  rw [List.getElem?_map] at hitem
  obtain ⟨c, hc, rfl⟩ := Option.map_eq_some_iff.mp hitem
  rw [List.length_map]
  have hlaid : Laid cs := hcs.laid [] (Nat.zero_le _)
  exact hlaid.within hc

theorem Shape.closed_script (s : Source.Script) : Closed (Shape.script s) :=
  ⟨Shape.body s.body, rfl, fun h => (emits_body s.body).within h⟩

namespace Closed

variable {items : List Item}

theorem length_pos (h : Closed items) : 0 < items.length := by
  obtain ⟨front, rfl, -⟩ := h
  simp

/-- Only the last item does not go on. -/
theorem next_lt (h : Closed items) {i : Nat} {item : Item} (hitem : items[i]? = some item)
    (hne : item.op ≠ .exit) : i + 1 < items.length := by
  obtain ⟨front, rfl, -⟩ := h
  have hlt := (List.getElem?_eq_some_iff.mp hitem).1
  rw [List.length_append, List.length_singleton] at hlt ⊢
  rcases Nat.lt_or_ge i front.length with hfront | hfront
  · omega
  · rw [List.getElem?_append_right hfront, show i - front.length = 0 by omega] at hitem
    cases hitem
    exact absurd rfl hne

theorem within (h : Closed items) {i : Nat} {item : Item} (hitem : items[i]? = some item) :
    item.Within (items.length - 1) i := by
  obtain ⟨front, rfl, hwithin⟩ := h
  rw [List.length_append, List.length_singleton, Nat.add_sub_cancel]
  rcases Nat.lt_or_ge i front.length with hfront | hfront
  · rw [List.getElem?_append_left hfront] at hitem
    exact hwithin hitem
  · have hlt := (List.getElem?_eq_some_iff.mp hitem).1
    rw [List.length_append, List.length_singleton] at hlt
    rw [List.getElem?_append_right hfront, show i - front.length = 0 by omega] at hitem
    cases hitem
    trivial

end Closed

/-- At two widths a source is refused with the same error, or compiled to the same items. -/
theorem compile_two (filename source : String) {w w' : Nat} (hw : w ≤ Emitter.maxWidth) (hw' : w' ≤ Emitter.maxWidth)
    (hsmall : compile filename source w ≠ .error unitTooLarge)
    (hsmall' : compile filename source w' ≠ .error unitTooLarge) :
    (∃ e, compile filename source w = .error e ∧ compile filename source w' = .error e)
      ∨ ∃ unit unit' items lines, compile filename source w = .ok unit ∧ compile filename source w' = .ok unit'
        ∧ Compiled unit filename items lines ∧ Compiled unit' filename items lines ∧ Closed items := by
  cases hparse : Source.parseScript source with
  | error e => exact .inl ⟨e, compile_eq_error hparse filename hw, compile_eq_error hparse filename hw'⟩
  | ok script =>
    obtain ⟨lines, hlines⟩ := compile_eq hparse filename
    obtain ⟨unit, hunit, hcompiled⟩ := (hlines w hw).resolve_left hsmall
    obtain ⟨unit', hunit', hcompiled'⟩ := (hlines w' hw').resolve_left hsmall'
    exact .inr ⟨unit, unit', _, lines, hunit, hunit', hcompiled, hcompiled', Shape.closed_script script⟩

/-! ## Calls -/

theorem Decoded.next_of_call {code : Array UInt8} {pos firstEnd next : Nat}
    (h : Decoded.read code pos = .instr .call firstEnd next) : next = pos + 1 := by
  unfold Decoded.read at h
  split at h
  · cases h
  · split at h
    · cases h
    · rename_i op _
      cases op
      case call =>
        cases h
        rfl
      all_goals
        simp only [Decoded.operands, Decoded.withText, Decoded.withNumber] at h
        repeat' split at h
        all_goals cases h

/-- A call instruction is one byte. -/
theorem Stands.place_behind_call {code : Array UInt8} {items : List Item} {place : Nat → Nat}
    (h : Stands code items place) {i : Nat} (hitem : items[i]? = some (.plain .call)) :
    place (i + 1) = place i + 1 :=
  let ⟨_, hread⟩ := h.read hitem
  Decoded.next_of_call hread

/-! ## Programs -/

namespace Program

/-- The parts of a program lie one behind the other. -/
structure EndToEnd (p : Program) : Prop where
  apart : ∀ {k l : Nat} {a b : Part}, k < l → p.parts[k]? = some a → p.parts[l]? = some b → a.stop ≤ b.start
  inside : ∀ {k : Nat} {a : Part}, p.parts[k]? = some a → a.stop ≤ p.size

theorem endToEnd_empty : empty.EndToEnd :=
  ⟨fun _ h => by simp [empty] at h, fun h => by simp [empty] at h⟩

variable {p : Program}

theorem EndToEnd.push (h : p.EndToEnd) {part : Part} {size : Nat} (hstart : part.start = p.size)
    (hsize : size = p.size + part.data.size) : EndToEnd ⟨p.parts.push part, size⟩ := by
  have hcase {k : Nat} {a : Part} (ha : (p.parts.push part)[k]? = some a) :
      p.parts[k]? = some a ∨ k = p.parts.size ∧ a = part := by
    rw [Array.getElem?_push] at ha
    split at ha
    · rename_i hk
      exact .inr ⟨hk, (Option.some.inj ha).symm⟩
    · exact .inl ha
  have hstop : part.stop = size := by rw [Part.stop, hstart, hsize]
  refine ⟨fun {k l a b} hlt ha hb => ?_, fun {k a} ha => ?_⟩
  · rcases hcase hb with hold | ⟨rfl, rfl⟩
    · rcases hcase ha with hold' | ⟨rfl, rfl⟩
      · exact h.apart hlt hold' hold
      · have := (Array.getElem?_eq_some_iff.mp hold).1
        omega
    · rcases hcase ha with hold' | ⟨rfl, rfl⟩
      · rw [hstart]
        exact h.inside hold'
      · omega
  · rcases hcase ha with hold | ⟨rfl, rfl⟩
    · have := h.inside hold
      show a.stop ≤ size
      omega
    · exact Nat.le_of_eq hstop

/-- An offset is in one part only. -/
theorem EndToEnd.eq_of_covers (h : p.EndToEnd) {k l : Nat} {a b : Part} {offset : Nat}
    (ha : p.parts[k]? = some a) (hb : p.parts[l]? = some b) (hk : a.covers offset = true)
    (hl : b.covers offset = true) : k = l := by
  simp only [Part.covers, Bool.and_eq_true, decide_eq_true_eq] at hk hl
  rcases Nat.lt_trichotomy k l with hlt | heq | hgt
  · have := h.apart hlt ha hb
    omega
  · exact heq
  · have := h.apart hgt hb ha
    omega

theorem EndToEnd.partAt? (h : p.EndToEnd) {k : Nat} {part : Part} {offset : Nat}
    (hpart : p.parts[k]? = some part) (hcovers : part.covers offset = true) :
    p.partAt? offset = some part := by
  unfold Program.partAt?
  cases hfind : p.parts.find? fun part => part.covers offset with
  | none =>
    rw [Array.find?_eq_none] at hfind
    exact absurd hcovers (hfind part (Array.mem_of_getElem? hpart))
  | some other =>
    have hother := Array.find?_some hfind
    obtain ⟨l, hl⟩ := Array.getElem?_of_mem (Array.mem_of_find?_eq_some hfind)
    have hkl := h.eq_of_covers hpart hl hcovers hother
    rw [hkl, hl] at hpart
    exact hpart

end Program

/-! ## Sheets -/

/-- The items of a unit as two programs hold it: where the unit starts, its bytes, and the places of
the items, counted from the start of the unit. -/
structure Sheet where
  items : List Item
  lines : List Nat
  start : Nat
  code : Array UInt8
  place : Nat → Nat
  start' : Nat
  code' : Array UInt8
  place' : Nat → Nat

namespace Sheet

/-- The offset of an item in the first program. -/
def offset (s : Sheet) (i : Nat) : Nat := s.start + s.place i

/-- The offset of an item in the second program. -/
def offset' (s : Sheet) (i : Nat) : Nat := s.start' + s.place' i

/-- The sheet of the same two units the other way round. -/
def swap (s : Sheet) : Sheet :=
  ⟨s.items, s.lines, s.start', s.code', s.place', s.start, s.code, s.place⟩

/-- The items are those of two parts. -/
structure Describes (s : Sheet) (p p' : Part) : Prop where
  closed : Closed s.items
  holds : p.Holds s.items s.lines s.place
  holds' : p'.Holds s.items s.lines s.place'
  start : p.start = s.start
  start' : p'.start = s.start'
  code : p.data = s.code
  code' : p'.data = s.code'
  filename : p'.filename = p.filename
  lastRun : p'.lastRun = p.lastRun

theorem Describes.swap {s : Sheet} {p p' : Part} (h : s.Describes p p') : s.swap.Describes p' p :=
  ⟨h.closed, h.holds', h.holds, h.start', h.start, h.code', h.code, h.filename.symm, h.lastRun.symm⟩

variable {s : Sheet} {p p' : Part}

theorem Describes.covers (h : s.Describes p p') {i : Nat} (hi : i < s.items.length) :
    p.covers (s.offset i) = true := by
  have hlt := h.holds.stands.place_lt_size hi
  simp only [Part.covers, Part.stop, offset, h.start, Bool.and_eq_true, decide_eq_true_eq]
  omega

end Sheet

/-- The sheets of all units of two programs. -/
abbrev Atlas := List Sheet

/-- As many units of less than four gigabytes fit the offsets that functions can have. -/
def maxUnits : Nat := 65536

namespace Atlas

/-- Offsets of the same item. -/
def Known (A : Atlas) (o o' : Nat) : Prop :=
  ∃ (k : Nat) (s : Sheet) (i : Nat), A[k]? = some s ∧ i < s.items.length ∧ o = s.offset i ∧ o' = s.offset' i

/-- Offsets of the same call instruction. -/
def KnownCall (A : Atlas) (o o' : Nat) : Prop :=
  ∃ (k : Nat) (s : Sheet) (i : Nat), A[k]? = some s ∧ s.items[i]? = some (.plain .call (@rfl Bool true))
    ∧ o = s.offset i ∧ o' = s.offset' i

/-- Offsets at which the same unit starts. -/
def KnownStart (A : Atlas) (o o' : Nat) : Prop :=
  ∃ (k : Nat) (s : Sheet), A[k]? = some s ∧ o = s.start ∧ o' = s.start'

/-- The atlas is that of two programs. -/
structure Describes (A : Atlas) (p p' : Program) : Prop where
  few : A.length ≤ maxUnits
  size : p.parts.size = A.length
  size' : p'.parts.size = A.length
  sheet : ∀ {k : Nat} {s : Sheet}, A[k]? = some s →
    ∃ part part', p.parts[k]? = some part ∧ p'.parts[k]? = some part' ∧ s.Describes part part'
  endToEnd : p.EndToEnd
  endToEnd' : p'.EndToEnd
  bound : p.size ≤ A.length * UInt32.size
  bound' : p'.size ≤ A.length * UInt32.size

/-- The atlas of the same two programs the other way round. -/
def swap (A : Atlas) : Atlas := A.map Sheet.swap

variable {A : Atlas} {p p' : Program}

theorem known_swap {o o' : Nat} (h : A.Known o o') : A.swap.Known o' o := by
  obtain ⟨k, s, i, hs, hi, rfl, rfl⟩ := h
  exact ⟨k, s.swap, i, by simp [swap, hs], hi, rfl, rfl⟩

theorem knownCall_swap {o o' : Nat} (h : A.KnownCall o o') : A.swap.KnownCall o' o := by
  obtain ⟨k, s, i, hs, hi, rfl, rfl⟩ := h
  exact ⟨k, s.swap, i, by simp [swap, hs], hi, rfl, rfl⟩

theorem Describes.swap (h : A.Describes p p') : A.swap.Describes p' p := by
  have hlength : A.swap.length = A.length := List.length_map ..
  refine ⟨hlength ▸ h.few, hlength ▸ h.size', hlength ▸ h.size, fun {k s} hs => ?_, h.endToEnd',
    h.endToEnd, hlength ▸ h.bound', hlength ▸ h.bound⟩
  unfold Atlas.swap at hs
  rw [List.getElem?_map] at hs
  obtain ⟨t, ht, rfl⟩ := Option.map_eq_some_iff.mp hs
  obtain ⟨part, part', hpart, hpart', hdescribes⟩ := h.sheet ht
  exact ⟨part', part, hpart', hpart, hdescribes.swap⟩

/-- The part that an offset of an item is in. -/
theorem Describes.partAt? (h : A.Describes p p') {k i : Nat} {s : Sheet} (hs : A[k]? = some s)
    (hi : i < s.items.length) {part : Part} (hpart : p.parts[k]? = some part) :
    p.partAt? (s.offset i) = some part := by
  obtain ⟨part₁, _, hpart₁, _, hd⟩ := h.sheet hs
  rw [hpart] at hpart₁
  cases hpart₁
  exact h.endToEnd.partAt? hpart (hd.covers hi)

theorem Describes.known_unique (h : A.Describes p p') {k l i j : Nat} {s t : Sheet} (hs : A[k]? = some s)
    (ht : A[l]? = some t) (hi : i < s.items.length) (hj : j < t.items.length)
    (heq : s.offset i = t.offset j) : k = l ∧ i = j := by
  obtain ⟨a, _, ha, _, hda⟩ := h.sheet hs
  obtain ⟨b, _, hb, _, hdb⟩ := h.sheet ht
  have hkl := h.endToEnd.eq_of_covers ha hb (hda.covers hi) (heq ▸ hdb.covers hj)
  subst hkl
  rw [hs] at ht
  cases ht
  exact ⟨rfl, hda.holds.stands.place_inj (Nat.le_of_lt hi) (Nat.le_of_lt hj) (by
    unfold Sheet.offset at heq
    omega)⟩

theorem Describes.known_right (h : A.Describes p p') {o o₁ o₂ : Nat} (h₁ : A.Known o o₁)
    (h₂ : A.Known o o₂) : o₁ = o₂ := by
  obtain ⟨k, s, i, hs, hi, rfl, rfl⟩ := h₁
  obtain ⟨l, t, j, ht, hj, heq, rfl⟩ := h₂
  obtain ⟨rfl, rfl⟩ := h.known_unique hs ht hi hj heq
  rw [hs] at ht
  cases ht
  rfl

theorem Describes.known_left (h : A.Describes p p') {o₁ o₂ o' : Nat} (h₁ : A.Known o₁ o')
    (h₂ : A.Known o₂ o') : o₁ = o₂ :=
  h.swap.known_right (known_swap h₁) (known_swap h₂)

theorem KnownCall.known {o o' : Nat} (h : A.KnownCall o o') : A.Known o o' := by
  obtain ⟨k, s, i, hs, hi, rfl, rfl⟩ := h
  exact ⟨k, s, i, hs, (List.getElem?_eq_some_iff.mp hi).1, rfl, rfl⟩

theorem Describes.known_bounds (h : A.Describes p p') {o o' : Nat} (hknown : A.Known o o') :
    1 < o ∧ o < payloadSize := by
  obtain ⟨k, s, i, hs, hi, rfl, -⟩ := hknown
  obtain ⟨a, _, ha, _, hd⟩ := h.sheet hs
  have hcovers := hd.covers hi
  simp only [Part.covers, Bool.and_eq_true, decide_eq_true_eq] at hcovers
  have hinside := h.endToEnd.inside ha
  have hbound := h.bound
  have hfew := h.few
  have hfirst : s.place 0 ≤ s.place i := by
    rcases Nat.eq_zero_or_pos i with rfl | hpos
    · exact Nat.le_refl _
    · exact Nat.le_of_lt (hd.holds.stands.place_lt_place hpos (Nat.le_of_lt hi))
  have hpos := hd.holds.first_pos
  rw [← hd.holds.first] at hpos
  have hunits : A.length * UInt32.size ≤ maxUnits * UInt32.size := Nat.mul_le_mul_right _ hfew
  have hroom : maxUnits * UInt32.size = payloadSize := by decide
  unfold Sheet.offset at *
  omega

theorem Describes.known_bounds' (h : A.Describes p p') {o o' : Nat} (hknown : A.Known o o') :
    1 < o' ∧ o' < payloadSize :=
  h.swap.known_bounds (known_swap hknown)

theorem describes_empty : Describes [] Program.empty Program.empty :=
  ⟨Nat.zero_le _, rfl, rfl, fun h => by simp at h, Program.endToEnd_empty, Program.endToEnd_empty,
    Nat.le_refl _, Nat.le_refl _⟩

/-! ## Look-ups -/

/-- An item is on the same line of the same file. -/
theorem Describes.lineFor? (h : A.Describes p p') {o o' : Nat} (hknown : A.Known o o') :
    p'.filenameFor? o' = p.filenameFor? o ∧ p'.lineFor? o' = p.lineFor? o := by
  obtain ⟨k, s, i, hs, hi, rfl, rfl⟩ := hknown
  obtain ⟨part, part', hpart, hpart', hd⟩ := h.sheet hs
  have hswap : A.swap[k]? = some s.swap := by simp [Atlas.swap, hs]
  have hat := h.partAt? hs hi hpart
  have hat' : p'.partAt? (s.offset' i) = some part' := h.swap.partAt? hswap hi hpart'
  have hline : LineTable.lineAt part'.lines (s.place' i) = LineTable.lineAt part.lines (s.place i) := by
    have hlt : i < s.lines.length := by rw [hd.holds.lines_length]; exact hi
    have hget := List.getElem?_eq_getElem hlt
    exact Option.some.inj ((hd.holds'.line hget).trans (hd.holds.line hget).symm)
  refine ⟨?_, ?_⟩
  · simp only [Program.filenameFor?, hat, hat', Option.map_some, hd.filename]
  · have hback : s.offset i - part.start = s.place i := by
      rw [hd.start, Sheet.offset, Nat.add_sub_cancel_left]
    have hback' : s.offset' i - part'.start = s.place' i := by
      rw [hd.start', Sheet.offset', Nat.add_sub_cancel_left]
    simp only [Program.lineFor?, hat, hat', Option.map_some, hback, hback', hline]

theorem Describes.findByFilename? (h : A.Describes p p') (filename : String) :
    p'.findByFilename? filename = p.findByFilename? filename := by
  have hname (k : Nat) : p'.parts[k]?.map Part.filename = p.parts[k]?.map Part.filename := by
    cases hs : A[k]? with
    | none =>
      have hle := List.getElem?_eq_none_iff.mp hs
      rw [Array.getElem?_eq_none (by rw [h.size']; exact hle), Array.getElem?_eq_none (by rw [h.size]; exact hle)]
    | some s =>
      obtain ⟨part, part', hpart, hpart', hd⟩ := h.sheet hs
      simp only [hpart, hpart', Option.map_some, hd.filename]
  simp only [Program.findByFilename?, hname, h.size, h.size']

theorem Describes.lastRun (h : A.Describes p p') (k : Nat) :
    p'.parts[k]?.bind Part.lastRun = p.parts[k]?.bind Part.lastRun := by
  cases hs : A[k]? with
  | none =>
    have hle := List.getElem?_eq_none_iff.mp hs
    rw [Array.getElem?_eq_none (by rw [h.size']; exact hle), Array.getElem?_eq_none (by rw [h.size]; exact hle)]
  | some s =>
    obtain ⟨part, part', hpart, hpart', hd⟩ := h.sheet hs
    simp only [hpart, hpart', Option.bind_some, hd.lastRun]

/-! ## Changes -/

theorem Describes.recordRun (h : A.Describes p p') (k : Nat) (succeeded : Bool) :
    A.Describes (p.recordRun k succeeded) (p'.recordRun k succeeded) := by
  have hget {q : Program} {l : Nat} {part : Part} (hpart : (q.recordRun k succeeded).parts[l]? = some part) :
      ∃ old, q.parts[l]? = some old ∧ part.start = old.start ∧ part.stop = old.stop := by
    simp only [Program.recordRun, Array.getElem?_modify] at hpart
    split at hpart
    · obtain ⟨old, hold, rfl⟩ := Option.map_eq_some_iff.mp hpart
      exact ⟨old, hold, rfl, rfl⟩
    · exact ⟨part, hpart, rfl, rfl⟩
  have hend {q : Program} (hq : q.EndToEnd) : (q.recordRun k succeeded).EndToEnd := by
    refine ⟨fun {l l' a b} hlt ha hb => ?_, fun {l a} ha => ?_⟩
    · obtain ⟨olda, holda, -, hstop⟩ := hget ha
      obtain ⟨oldb, holdb, hstart, -⟩ := hget hb
      rw [hstop, hstart]
      exact hq.apart hlt holda holdb
    · obtain ⟨old, hold, -, hstop⟩ := hget ha
      rw [hstop]
      exact hq.inside hold
  refine ⟨h.few, by simp [Program.recordRun, h.size], by simp [Program.recordRun, h.size'], fun {l s} hs => ?_,
    hend h.endToEnd, hend h.endToEnd', h.bound, h.bound'⟩
  obtain ⟨part, part', hpart, hpart', hd⟩ := h.sheet hs
  simp only [Program.recordRun, Array.getElem?_modify, hpart, hpart', Option.map_some]
  by_cases hk : k = l
  · simp only [hk, if_true]
    have hholds := hd.holds
    have hholds' := hd.holds'
    exact ⟨_, _, rfl, rfl, hd.closed,
      ⟨hholds.small, hholds.header, hholds.stands, hholds.first, hholds.first_pos, hholds.lines_length, hholds.line⟩,
      ⟨hholds'.small, hholds'.header, hholds'.stands, hholds'.first, hholds'.first_pos, hholds'.lines_length,
        hholds'.line⟩, hd.start, hd.start', hd.code, hd.code', hd.filename, rfl⟩
  · simp only [hk, if_false]
    exact ⟨part, part', rfl, rfl, hd⟩

/-- Units that hold the same items are both refused, or both committed. -/
theorem Describes.commit (h : A.Describes p p') {unit unit' : Array UInt8} {filename : String}
    {items : List Item} {lines : List Nat} (hunit : Compiled unit filename items lines)
    (hunit' : Compiled unit' filename items lines) (hclosed : Closed items) :
    (∃ e, p.commit unit = .error e ∧ p'.commit unit' = .error e)
      ∨ ∃ s q q', p.commit unit = .ok (q, A.length) ∧ p'.commit unit' = .ok (q', A.length)
        ∧ q.parts.size = A.length + 1 ∧ q'.parts.size = A.length + 1 ∧ s.start = p.size ∧ s.start' = p'.size
        ∧ (A.length < maxUnits → Describes (A ++ [s]) q q') := by
  have hof := hunit.ofUnit? p.size
  have hof' := hunit'.ofUnit? p'.size
  split_ifs at hof hof' with hgood
  · obtain ⟨part, place, hpart, hstart, hdata, hname, hrun, hholds⟩ := hof
    obtain ⟨part', place', hpart', hstart', hdata', hname', hrun', hholds'⟩ := hof'
    refine .inr ⟨⟨items, lines, p.size, unit, place, p'.size, unit', place'⟩, ⟨p.parts.push part, p.size + unit.size⟩,
      ⟨p'.parts.push part', p'.size + unit'.size⟩, ?_, ?_, ?_, ?_, rfl, rfl, fun hfew => ?_⟩
    · simp [Program.commit, hpart, h.size]
    · simp [Program.commit, hpart', h.size']
    · simp [h.size]
    · simp [h.size']
    · have hsmall := hholds.small
      have hsmall' := hholds'.small
      rw [hdata] at hsmall
      rw [hdata'] at hsmall'
      have hbound := h.bound
      have hbound' := h.bound'
      refine ⟨?_, ?_, ?_, fun {k s} hs => ?_, h.endToEnd.push hstart (by rw [hdata]),
        h.endToEnd'.push hstart' (by rw [hdata']), ?_, ?_⟩
      · rw [List.length_append, List.length_singleton]
        exact hfew
      · simp [h.size]
      · simp [h.size']
      · rcases Nat.lt_or_ge k A.length with hlt | hge
        · rw [List.getElem?_append_left hlt] at hs
          obtain ⟨old, old', hold, hold', hd⟩ := h.sheet hs
          refine ⟨old, old', ?_, ?_, hd⟩
          · rw [Array.getElem?_push, if_neg (by rw [h.size]; omega)]
            exact hold
          · rw [Array.getElem?_push, if_neg (by rw [h.size']; omega)]
            exact hold'
        · have hk := (List.getElem?_eq_some_iff.mp hs).1
          rw [List.length_append, List.length_singleton] at hk
          obtain rfl : k = A.length := by omega
          rw [List.getElem?_append_right hge, Nat.sub_self] at hs
          cases hs
          refine ⟨part, part', ?_, ?_, hclosed, hholds, hholds', hstart, hstart', hdata, hdata',
            hname'.trans hname.symm, hrun'.trans hrun.symm⟩
          · rw [Array.getElem?_push, if_pos h.size.symm]
          · rw [Array.getElem?_push, if_pos h.size'.symm]
      · refine Nat.le_trans (Nat.add_le_add hbound (Nat.le_of_lt hsmall)) (Nat.le_of_eq ?_)
        rw [List.length_append, List.length_singleton, Nat.add_mul, Nat.one_mul]
      · refine Nat.le_trans (Nat.add_le_add hbound' (Nat.le_of_lt hsmall')) (Nat.le_of_eq ?_)
        rw [List.length_append, List.length_singleton, Nat.add_mul, Nat.one_mul]
  · exact .inl ⟨.internal "malformed bytecode header", by simp [Program.commit, hof],
      by simp [Program.commit, hof']⟩

end Atlas

end ScriptEngine.Code
