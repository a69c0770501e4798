import ScriptEngine.Machine.Step
import ScriptEngine.Proofs.Code.Charts
/-!
Looking offsets up in committed programs, and in those whose units have charts.

A cursor is at the start of a unit or at an item of it, where the chart expects some level (`Cursor.At`).
Looking up the offset of an item, in any program that has grown into the one with charts, either fails or
ends at that item (`Describe.goTo_item`); looking up a function ends at the entry level.
-/

namespace ScriptEngine

open Code (Charts Level Program Op)

/-- At the cursor some level is expected: it is at the start of a unit, or at an item of it. -/
structure Cursor.At (T : Charts) (P : Program) (c : Cursor) (L : Level) : Prop where
  has : P.Has c.base c.code
  first : c.codeStart = (T c.code).place 0
  here : c.pos = 0 ∧ L = .entry
    ∨ ∃ i < (T c.code).items.length, c.pos = (T c.code).place i ∧ L = (T c.code).levels i

/-- The offsets at which functions start. -/
def Code.Charts.Entry (T : Charts) (P : Program) (o : Nat) : Prop :=
  ∃ base unit i behind, P.Has base unit ∧ (T unit).items[i]? = some (.func behind)
    ∧ o = base + (T unit).place (i - behind)

namespace Code.Program

variable {P p : Program} {base offset : Nat} {unit : Array UInt8} {c c' : Cursor} {previous : Op}

/-- Looking an offset in a unit up ends in that unit. -/
theorem Committed.load (hP : P.Committed) (hp : p.PartOf P) (h : P.Has base unit) (hlow : base ≤ offset)
    (hhigh : offset < base + unit.size) (hload : Cursor.load p offset previous = .ok c) :
    ∃ header, Header.read? unit = some header ∧ c = ⟨unit, base, header.codeStart, offset - base, previous⟩ := by
  unfold Cursor.load at hload
  split at hload
  · rename_i part hpart
    cases hload
    have hfound := Array.find?_some hpart
    have hcovers := covers_iff.mp hfound
    obtain ⟨other, hother, hstart, hdata, hcode⟩ := hp part (Array.mem_of_find?_eq_some hpart)
    obtain ⟨header, hheader, hfirst⟩ := hP.read other hother
    rw [← hstart, ← hdata] at hcovers
    obtain ⟨hbase, hunit⟩ := hP.unique h ⟨other, hother, rfl, rfl⟩ hlow hhigh hcovers.1 hcovers.2
    rw [← hunit]
    exact ⟨header, hheader, by rw [← hfirst, hcode, hdata, ← hbase, hstart]⟩
  · cases hload

/-- So does going there from another place. -/
theorem Committed.goTo (hP : P.Committed) (hp : p.PartOf P) (hhas : P.Has c.base c.code) {header : Header}
    (hheader : Header.read? c.code = some header) (hfirst : c.codeStart = header.codeStart) (h : P.Has base unit)
    (hlow : base ≤ offset) (hhigh : offset < base + unit.size) (hgo : c.goTo p offset previous = .ok c') :
    ∃ header, Header.read? unit = some header ∧ c' = ⟨unit, base, header.codeStart, offset - base, previous⟩ := by
  unfold Cursor.goTo at hgo
  split at hgo
  · rename_i hinside
    simp only [Bool.and_eq_true, decide_eq_true_eq] at hinside
    obtain ⟨rfl, rfl⟩ := hP.unique h hhas hlow hhigh hinside.1 hinside.2
    cases hgo
    exact ⟨header, hheader, by rw [← hfirst]⟩
  · exact hP.load hp h hlow hhigh hgo

end Code.Program

namespace Code.Charts

variable {T : Charts} {P p : Program} {base offset i : Nat} {unit : Array UInt8} {c c' : Cursor} {previous : Op}

theorem Describe.of_has (hT : T.Describe P) (h : P.Has base unit) : (T unit).Of unit := by
  obtain ⟨part, hpart, -, rfl⟩ := h
  exact hT.of part hpart

theorem Describe.place_lt (hT : T.Describe P) (h : P.Has base unit) (hi : i < (T unit).items.length) :
    (T unit).place i < unit.size :=
  (hT.of_has h).stands.place_lt_size hi

/-- Code starts where the first item stands. -/
theorem Describe.codeStart (hT : T.Describe P) (h : P.Has base unit) {header : Code.Header}
    (hheader : Code.Header.read? unit = some header) : header.codeStart = (T unit).place 0 := by
  obtain ⟨header', hheader', hfirst⟩ := (hT.of_has h).first
  rw [hheader] at hheader'
  cases hheader'
  exact hfirst.symm

/-- Looking an offset in a unit up ends in that unit. -/
theorem Describe.load (hT : T.Describe P) (hp : p.PartOf P) (h : P.Has base unit) (hlow : base ≤ offset)
    (hhigh : offset < base + unit.size) (hload : Cursor.load p offset previous = .ok c) :
    c = ⟨unit, base, (T unit).place 0, offset - base, previous⟩ := by
  obtain ⟨header, hheader, rfl⟩ := hT.committed.load hp h hlow hhigh hload
  rw [hT.codeStart h hheader]

/-- So does going there from another place. -/
theorem Describe.goTo (hT : T.Describe P) (hp : p.PartOf P) (hhas : P.Has c.base c.code)
    (hfirst : c.codeStart = (T c.code).place 0) (h : P.Has base unit) (hlow : base ≤ offset)
    (hhigh : offset < base + unit.size) (hgo : c.goTo p offset previous = .ok c') :
    c' = ⟨unit, base, (T unit).place 0, offset - base, previous⟩ := by
  obtain ⟨header, hheader, hplace⟩ := (hT.of_has hhas).first
  obtain ⟨header', hheader', rfl⟩ :=
    hT.committed.goTo hp hhas hheader (hfirst.trans hplace) h hlow hhigh hgo
  rw [hT.codeStart h hheader']

/-- Going to an item, its level is expected. -/
theorem Describe.goTo_item (hT : T.Describe P) (hp : p.PartOf P) (hhas : P.Has c.base c.code)
    (hfirst : c.codeStart = (T c.code).place 0) (h : P.Has base unit) (hi : i < (T unit).items.length)
    (hgo : c.goTo p (base + (T unit).place i) previous = .ok c') :
    c'.base = base ∧ c'.code = unit ∧ c'.At T P ((T unit).levels i) := by
  have hlt := hT.place_lt h hi
  obtain rfl := hT.goTo hp hhas hfirst h (Nat.le_add_right _ _) (by omega) hgo
  exact ⟨rfl, rfl, h, rfl, .inr ⟨i, hi, Nat.add_sub_cancel_left .., rfl⟩⟩

/-- A function starts at the entry level. -/
theorem Describe.goTo_entry (hT : T.Describe P) (hp : p.PartOf P) (hhas : P.Has c.base c.code)
    (hfirst : c.codeStart = (T c.code).place 0) (h : T.Entry P offset) (hgo : c.goTo p offset previous = .ok c') :
    c'.At T P .entry := by
  obtain ⟨base, unit, i, behind, hunit, hitem, rfl⟩ := h
  have hlt := (List.getElem?_eq_some_iff.mp hitem).1
  obtain ⟨-, -, hat⟩ := hT.goTo_item hp hhas hfirst hunit (i := i - behind) (by omega) hgo
  rwa [((hT.of_has hunit).levels.agrees hitem).1] at hat

theorem Describe.load_entry (hT : T.Describe P) (hp : p.PartOf P) (h : T.Entry P offset)
    (hload : Cursor.load p offset previous = .ok c) : c.At T P .entry := by
  obtain ⟨base, unit, i, behind, hunit, hitem, rfl⟩ := h
  have hlt := (List.getElem?_eq_some_iff.mp hitem).1
  have hplace := hT.place_lt hunit (i := i - behind) (by omega)
  obtain rfl := hT.load hp hunit (Nat.le_add_right _ _) (by omega) hload
  exact ⟨hunit, rfl, .inr ⟨i - behind, Nat.lt_of_le_of_lt (Nat.sub_le _ _) hlt, Nat.add_sub_cancel_left ..,
    ((hT.of_has hunit).levels.agrees hitem).1.symm⟩⟩

theorem Describe.load_start (hT : T.Describe P) (hp : p.PartOf P) (h : P.Has offset unit)
    (hload : Cursor.load p offset previous = .ok c) : c.At T P .entry := by
  have hsize : 0 < unit.size := Nat.zero_lt_of_lt (hT.place_lt h (T unit).closed.length_pos)
  obtain rfl := hT.load hp h (Nat.le_refl _) (by omega) hload
  exact ⟨h, rfl, .inl ⟨Nat.sub_self _, rfl⟩⟩

/-- The offsets of functions are behind the first bytes of a program. -/
theorem Describe.one_lt_entry (hT : T.Describe P) (h : T.Entry P offset) : 1 < offset := by
  obtain ⟨base, unit, i, behind, hunit, hitem, rfl⟩ := h
  have hlt := (List.getElem?_eq_some_iff.mp hitem).1
  have hplace := (hT.of_has hunit).headerSize_lt_place (i := i - behind) (Nat.lt_of_le_of_lt (Nat.sub_le _ _) hlt)
  have : headerSize = 13 := rfl
  omega

end Code.Charts

end ScriptEngine
