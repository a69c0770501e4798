import Mathlib.Logic.Function.Basic
import Mathlib.Logic.Relation
import ScriptEngine.Proofs.Code.Balance
import ScriptEngine.Proofs.Code.Programs
/-!
Programs whose units have levels.

A `Chart` says what a unit was compiled from, where its items stand and which levels they have. Units
compiled from sources that assign to references only have charts (`exists_chart`), and a program made of
such units has `Charts` for all of its parts (`Program.exists_charts`). Programs only grow: what is a part of
one stays a part of all later ones (`Program.Grows.partOf`).
-/

namespace ScriptEngine.Code

/-! ## Units -/

/-- Where the items of a program stand in a unit. -/
structure Placed (script : Source.Script) (unit : Array UInt8) (place : Nat → Nat) : Prop where
  header : Decoded.read unit 0 = .instr .header 1 1
  first : ∃ header, Header.read? unit = some header ∧ place 0 = header.codeStart
  stands : Stands unit (Shape.script script) place

/-- All items stand behind the header. -/
theorem Placed.headerSize_lt_place {script : Source.Script} {unit : Array UInt8} {place : Nat → Nat}
    (h : Placed script unit place) {i : Nat} (hi : i < (Shape.script script).length) : headerSize < place i := by
  obtain ⟨header, hheader, hfirst⟩ := h.first
  have hsmall : headerSize < header.codeStart := by
    unfold Header.read? guard at hheader
    simp only [Option.bind_eq_bind, Option.bind_eq_some_iff] at hheader
    obtain ⟨_, _, total, _, codeStart, _, mapStart, _, _, hguard, hheader⟩ := hheader
    split at hguard
    · rename_i hgood
      cases hheader
      exact hgood.2.1
    · cases hguard
  rw [← hfirst] at hsmall
  rcases Nat.eq_zero_or_pos i with rfl | hpos
  · exact hsmall
  · exact Nat.lt_trans hsmall (h.stands.place_lt_place hpos (Nat.le_of_lt hi))

/-- What a unit was compiled from, and where its items stand and which levels they have. -/
structure Chart where
  script : Source.Script
  place : Nat → Nat
  levels : Levels

/-- The items of a unit. -/
def Chart.items (s : Chart) : List Item :=
  Shape.script s.script

/-- The chart is that of a unit. -/
structure Chart.Of (s : Chart) (unit : Array UInt8) : Prop where
  header : Decoded.read unit 0 = .instr .header 1 1
  first : ∃ header, Header.read? unit = some header ∧ s.place 0 = header.codeStart
  stands : Stands unit s.items s.place
  levels : Levels.Of s.script s.levels

theorem Chart.closed (s : Chart) : Closed s.items :=
  Shape.closed_script s.script

theorem Chart.Of.placed {s : Chart} {unit : Array UInt8} (h : s.Of unit) : Placed s.script unit s.place :=
  ⟨h.header, h.first, h.stands⟩

theorem Chart.Of.headerSize_lt_place {s : Chart} {unit : Array UInt8} (h : s.Of unit) {i : Nat}
    (hi : i < s.items.length) : headerSize < s.place i :=
  h.placed.headerSize_lt_place hi

/-- The level at an offset of a unit: that of the item that stands there. At the header nothing is there
yet. -/
def Chart.levelAt (s : Chart) (pos : Nat) : Level :=
  ((List.range s.items.length).find? fun i => s.place i == pos).elim .entry s.levels

theorem Chart.Of.levelAt_place {s : Chart} {unit : Array UInt8} (h : s.Of unit) {i : Nat}
    (hi : i < s.items.length) : s.levelAt (s.place i) = s.levels i := by
  unfold Chart.levelAt
  cases hfind : (List.range s.items.length).find? fun j => s.place j == s.place i with
  | none =>
    have hnone := List.find?_eq_none.mp hfind i (List.mem_range.mpr hi)
    simp at hnone
  | some j =>
    have hj := List.mem_range.mp (List.mem_of_find?_eq_some hfind)
    have hplace : s.place j = s.place i := by simpa using List.find?_some hfind
    rw [h.stands.place_inj (Nat.le_of_lt hj) (Nat.le_of_lt hi) hplace]
    rfl

theorem Chart.Of.levelAt_zero {s : Chart} {unit : Array UInt8} (h : s.Of unit) : s.levelAt 0 = .entry := by
  unfold Chart.levelAt
  cases hfind : (List.range s.items.length).find? fun j => s.place j == 0 with
  | none => rfl
  | some j =>
    have hj := List.mem_range.mp (List.mem_of_find?_eq_some hfind)
    have hplace : s.place j = 0 := by simpa using List.find?_some hfind
    have hbehind := h.headerSize_lt_place hj
    omega

/-- The items of a source stand in the unit that it is compiled to. -/
theorem exists_placed {filename source : String} {width : Nat} {unit : Array UInt8} {script : Source.Script}
    (hcompile : compile filename source width = .ok unit) (hparse : Source.parseScript source = .ok script) :
    ∃ place, Placed script unit place := by
  have hwidth : width ≤ Emitter.maxWidth := by
    by_contra hlt
    rw [compile, if_pos (by omega)] at hcompile
    cases hcompile
  obtain ⟨lines, hlines⟩ := compile_eq hparse filename
  rcases hlines width hwidth with h | ⟨unit', hunit, hcompiled⟩
  · rw [h] at hcompile
    cases hcompile
  · rw [hunit] at hcompile
    cases hcompile
    obtain ⟨place, header, hstands, hheader, hfirst, -⟩ := hcompiled.stands
    obtain ⟨cs, log, -, -, -, -, hassembled⟩ := hcompiled
    exact ⟨place, hassembled.read_header, ⟨header, hheader, hfirst⟩, hstands⟩

/-- What a unit is compiled from by a source that assigns to references only. -/
theorem exists_chart {filename source : String} {width : Nat} {unit : Array UInt8} {script : Source.Script}
    (hcompile : compile filename source width = .ok unit) (hparse : Source.parseScript source = .ok script)
    (ht : Source.Targets.script script = true) : ∃ s : Chart, s.script = script ∧ s.Of unit := by
  obtain ⟨place, hplaced⟩ := exists_placed hcompile hparse
  obtain ⟨levels, hlevels⟩ := exists_levels (Source.settled_of_parse hparse ht)
  exact ⟨⟨script, place, levels⟩, rfl, hplaced.header, hplaced.first, hplaced.stands, hlevels⟩

/-! ## Growth -/

namespace Program

/-- A program becomes another one by units that are committed and runs that are noted. -/
def Grows : Program → Program → Prop :=
  Relation.ReflTransGen fun p q =>
    (∃ unit index, p.commit unit = .ok (q, index)) ∨ ∃ index succeeded, q = p.recordRun index succeeded

/-- What is a part of a program is a part of another one, but for whether it was run. -/
def PartOf (p q : Program) : Prop :=
  ∀ part ∈ p.parts, ∃ other ∈ q.parts, other.start = part.start ∧ other.data = part.data
    ∧ other.codeStart = part.codeStart

/-- The parts lie one behind the other, and each was read from its unit. -/
structure Committed (p : Program) : Prop where
  endToEnd : p.EndToEnd
  read : ∀ part ∈ p.parts, ∃ header, Header.read? part.data = some header ∧ part.codeStart = header.codeStart

variable {p q r : Program}

theorem Grows.refl (p : Program) : p.Grows p :=
  Relation.ReflTransGen.refl

theorem Grows.trans (h : p.Grows q) (h' : q.Grows r) : p.Grows r :=
  Relation.ReflTransGen.trans h h'

theorem grows_commit {unit : Array UInt8} {index : Nat} (h : p.commit unit = .ok (q, index)) : p.Grows q :=
  .single (.inl ⟨unit, index, h⟩)

theorem grows_recordRun (p : Program) (index : Nat) (succeeded : Bool) : p.Grows (p.recordRun index succeeded) :=
  .single (.inr ⟨index, succeeded, rfl⟩)

theorem PartOf.refl (p : Program) : p.PartOf p :=
  fun part hpart => ⟨part, hpart, rfl, rfl, rfl⟩

theorem PartOf.trans (h : p.PartOf q) (h' : q.PartOf r) : p.PartOf r := by
  intro part hpart
  obtain ⟨other, hother, hstart, hdata, hcode⟩ := h part hpart
  obtain ⟨third, hthird, hstart', hdata', hcode'⟩ := h' other hother
  exact ⟨third, hthird, hstart'.trans hstart, hdata'.trans hdata, hcode'.trans hcode⟩

/-- What a unit is read as. -/
theorem ofUnit?_eq {data : Array UInt8} {start : Nat} {part : Part} (h : Part.ofUnit? data start = some part) :
    part.start = start ∧ part.data = data
      ∧ ∃ header, Header.read? data = some header ∧ part.codeStart = header.codeStart := by
  simp only [Part.ofUnit?, Option.bind_eq_bind, Option.bind_eq_some_iff] at h
  obtain ⟨header, hheader, _, _, lines, _, h⟩ := h
  cases h
  exact ⟨rfl, rfl, header, hheader, rfl⟩

theorem commit_eq {unit : Array UInt8} {index : Nat} (h : p.commit unit = .ok (q, index)) :
    ∃ part, Part.ofUnit? unit p.size = some part ∧ q = ⟨p.parts.push part, p.size + unit.size⟩
      ∧ index = p.parts.size := by
  unfold commit at h
  split at h
  · rename_i part hpart
    cases h
    exact ⟨part, hpart, rfl, rfl⟩
  · cases h

theorem mem_recordRun {index : Nat} {succeeded : Bool} {part : Part} (h : part ∈ (p.recordRun index succeeded).parts) :
    ∃ old ∈ p.parts, part.start = old.start ∧ part.data = old.data ∧ part.codeStart = old.codeStart := by
  obtain ⟨k, hk⟩ := Array.getElem?_of_mem h
  simp only [recordRun, Array.getElem?_modify] at hk
  split at hk
  · obtain ⟨old, hold, rfl⟩ := Option.map_eq_some_iff.mp hk
    exact ⟨old, Array.mem_of_getElem? hold, rfl, rfl, rfl⟩
  · exact ⟨part, Array.mem_of_getElem? hk, rfl, rfl, rfl⟩

theorem partOf_recordRun (p : Program) (index : Nat) (succeeded : Bool) : p.PartOf (p.recordRun index succeeded) := by
  intro part hpart
  obtain ⟨k, hk⟩ := Array.getElem?_of_mem hpart
  have hnew : (p.recordRun index succeeded).parts[k]?
      = if index = k then some { part with lastRun := some succeeded } else some part := by
    simp only [recordRun, Array.getElem?_modify, hk, Option.map_some]
  by_cases hindex : index = k
  · rw [if_pos hindex] at hnew
    exact ⟨_, Array.mem_of_getElem? hnew, rfl, rfl, rfl⟩
  · rw [if_neg hindex] at hnew
    exact ⟨part, Array.mem_of_getElem? hnew, rfl, rfl, rfl⟩

theorem Grows.partOf (h : p.Grows q) : p.PartOf q := by
  induction h with
  | refl => exact .refl p
  | tail _ hstep ih =>
    refine ih.trans ?_
    rcases hstep with ⟨unit, index, hcommit⟩ | ⟨index, succeeded, rfl⟩
    · obtain ⟨part, -, rfl, -⟩ := commit_eq hcommit
      exact fun old hold => ⟨old, Array.mem_push_of_mem part hold, rfl, rfl, rfl⟩
    · exact partOf_recordRun _ index succeeded

theorem EndToEnd.recordRun (h : p.EndToEnd) (index : Nat) (succeeded : Bool) :
    (p.recordRun index succeeded).EndToEnd := by
  have hget {l : Nat} {part : Part} (hpart : (p.recordRun index succeeded).parts[l]? = some part) :
      ∃ old, p.parts[l]? = some old ∧ part.start = old.start ∧ part.stop = old.stop := by
    simp only [Program.recordRun, Array.getElem?_modify] at hpart
    split at hpart
    · obtain ⟨old, hold, rfl⟩ := Option.map_eq_some_iff.mp hpart
      exact ⟨old, hold, rfl, rfl⟩
    · exact ⟨part, hpart, rfl, rfl⟩
  refine ⟨fun {l l' a b} hlt ha hb => ?_, fun {l a} ha => ?_⟩
  · obtain ⟨olda, holda, -, hstop⟩ := hget ha
    obtain ⟨oldb, holdb, hstart, -⟩ := hget hb
    rw [hstop, hstart]
    exact h.apart hlt holda holdb
  · obtain ⟨old, hold, -, hstop⟩ := hget ha
    rw [hstop]
    exact h.inside hold

theorem committed_empty : empty.Committed :=
  ⟨endToEnd_empty, fun part h => by simp [empty] at h⟩

theorem Grows.committed (h : p.Grows q) (hp : p.Committed) : q.Committed := by
  induction h with
  | refl => exact hp
  | tail _ hstep ih =>
    rcases hstep with ⟨unit, index, hcommit⟩ | ⟨index, succeeded, rfl⟩
    · obtain ⟨part, hpart, rfl, -⟩ := commit_eq hcommit
      obtain ⟨hstart, hdata, hheader⟩ := ofUnit?_eq hpart
      refine ⟨ih.endToEnd.push hstart (by rw [hdata]), fun other hother => ?_⟩
      rcases Array.mem_push.mp hother with hold | rfl
      · exact ih.read other hold
      · rw [hdata]
        exact hheader
    · refine ⟨ih.endToEnd.recordRun index succeeded, fun part hpart => ?_⟩
      obtain ⟨old, hold, -, hdata, hcode⟩ := mem_recordRun hpart
      rw [hdata, hcode]
      exact ih.read old hold

/-- Every part was compiled from a source that assigns to variables and members only. -/
def Plain (p : Program) : Prop :=
  ∀ part ∈ p.parts, ∃ filename source width script, compile filename source width = .ok part.data
    ∧ Source.parseScript source = .ok script ∧ Source.Targets.script script = true

theorem covers_iff {part : Part} {offset : Nat} :
    part.covers offset = true ↔ part.start ≤ offset ∧ offset < part.start + part.data.size := by
  unfold Part.covers Part.stop
  rw [Bool.and_eq_true, decide_eq_true_iff, decide_eq_true_iff]

/-- A unit is in a program, at an offset. -/
def Has (p : Program) (start : Nat) (unit : Array UInt8) : Prop :=
  ∃ part ∈ p.parts, part.start = start ∧ part.data = unit

theorem Has.of_partOf {start : Nat} {unit : Array UInt8} (h : p.Has start unit) (hp : p.PartOf q) :
    q.Has start unit := by
  obtain ⟨part, hpart, rfl, rfl⟩ := h
  obtain ⟨other, hother, hstart, hdata, -⟩ := hp part hpart
  exact ⟨other, hother, hstart, hdata⟩

/-- An offset is in one unit only. -/
theorem Committed.unique (hp : p.Committed) {base base' offset : Nat} {unit unit' : Array UInt8}
    (h : p.Has base unit) (h' : p.Has base' unit') (hlow : base ≤ offset) (hhigh : offset < base + unit.size)
    (hlow' : base' ≤ offset) (hhigh' : offset < base' + unit'.size) : base' = base ∧ unit' = unit := by
  obtain ⟨a, ha, rfl, rfl⟩ := h
  obtain ⟨b, hb, rfl, rfl⟩ := h'
  obtain ⟨k, hk⟩ := Array.getElem?_of_mem ha
  obtain ⟨l, hl⟩ := Array.getElem?_of_mem hb
  have hkl := hp.endToEnd.eq_of_covers hk hl (covers_iff.mpr ⟨hlow, hhigh⟩) (covers_iff.mpr ⟨hlow', hhigh'⟩)
  rw [← hkl, hk] at hl
  cases hl
  exact ⟨rfl, rfl⟩

theorem Committed.stop_le (hp : p.Committed) {base : Nat} {unit : Array UInt8} (h : p.Has base unit) :
    base + unit.size ≤ p.size := by
  obtain ⟨part, hpart, rfl, rfl⟩ := h
  obtain ⟨k, hk⟩ := Array.getElem?_of_mem hpart
  exact hp.endToEnd.inside hk

end Program

/-! ## Charts of all units -/

/-- A chart for each unit. -/
abbrev Charts := Array UInt8 → Chart

/-- The charts are those of the parts of a program, whose offsets are machine words. -/
structure Charts.Describe (T : Charts) (p : Program) : Prop where
  committed : p.Committed
  small : p.size ≤ UInt64.size
  of : ∀ part ∈ p.parts, (T part.data).Of part.data

open Classical in
/-- Programs made of sources that assign to references only have charts. -/
theorem Program.exists_charts {p : Program} (hp : p.Committed) (hplain : p.Plain) (hsmall : p.size ≤ UInt64.size) :
    ∃ T : Charts, T.Describe p := by
  let chosen : Charts := fun data =>
    if h : ∃ s : Chart, s.Of data then h.choose else ⟨⟨.none 0, 0⟩, id, fun _ => .entry⟩
  refine ⟨chosen, hp, hsmall, fun part hpart => ?_⟩
  obtain ⟨filename, source, width, script, hcompile, hparse, ht⟩ := hplain part hpart
  obtain ⟨s, -, hof⟩ := exists_chart hcompile hparse ht
  have hex : ∃ s : Chart, s.Of part.data := ⟨s, hof⟩
  show (if h : ∃ s : Chart, s.Of part.data then h.choose else _).Of part.data
  rw [dif_pos hex]
  exact hex.choose_spec

open Classical in
/-- The chart of one unit may be given. -/
theorem Charts.Describe.update {T : Charts} {p : Program} (h : T.Describe p) {s : Chart} {unit : Array UInt8}
    (hs : s.Of unit) : Charts.Describe (Function.update T unit s) p := by
  refine ⟨h.committed, h.small, fun part hpart => ?_⟩
  by_cases hunit : part.data = unit
  · rw [hunit, Function.update_self]
    exact hs
  · rw [Function.update_of_ne hunit]
    exact h.of part hpart

end ScriptEngine.Code
