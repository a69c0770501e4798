import ScriptEngine.Proofs.Code.Declarations
import ScriptEngine.Proofs.Code.Listings
import ScriptEngine.Proofs.Machine.Cursors
/-!
Programs whose units have nests.

A `Plan` says what a unit was compiled from, where its items stand, and what is open at each of them. Every source
has one, so a program that was compiled has `Plans` for all of its units (`Program.exists_plans`). A cursor is at the
start of a unit or at an item of it (`Cursor.Finds`), and looking up the offset of an item or of a function ends there.
-/

namespace ScriptEngine.Code

/-- What a unit was compiled from, where its items stand, and what is open at each of them. -/
structure Plan where
  script : Source.Script
  place : Nat → Nat
  nests : Nests

/-- The items of a unit. -/
def Plan.items (p : Plan) : List Item :=
  Shape.script p.script

/-- The plan is that of a unit. -/
structure Plan.Of (p : Plan) (unit : Array UInt8) : Prop where
  placed : Placed p.script unit p.place
  nests : Nests.Of p.script p.nests

/-- A plan for each unit. -/
abbrev Plans := Array UInt8 → Plan

/-- The plans are those of the parts of a program, whose offsets are machine words. -/
structure Plans.Describe (T : Plans) (P : Program) : Prop where
  committed : P.Committed
  small : P.size ≤ UInt64.size
  of : ∀ part ∈ P.parts, (T part.data).Of part.data

/-- The offsets at which functions start. -/
def Plans.Entry (T : Plans) (P : Program) (o : Nat) : Prop :=
  ∃ base unit i behind, P.Has base unit ∧ (T unit).items[i]? = some (.func behind)
    ∧ o = base + (T unit).place (i - behind)

/-- The start of a unit or of a function. -/
def Plans.Startable (T : Plans) (P : Program) (o : Nat) : Prop :=
  T.Entry P o ∨ ∃ unit, P.Has o unit

/-- What was compiled has a plan. -/
theorem exists_plan {filename source : String} {width : Nat} {unit : Array UInt8}
    (hcompile : compile filename source width = .ok unit) : ∃ p : Plan, p.Of unit := by
  cases hparse : Source.parseScript source with
  | ok script =>
    obtain ⟨place, hplaced⟩ := exists_placed hcompile hparse
    obtain ⟨nests, hnests⟩ := exists_nests script
    exact ⟨⟨script, place, nests⟩, hplaced, hnests⟩
  | error e =>
    by_cases hwidth : width ≤ Emitter.maxWidth
    · rw [compile_eq_error hparse filename hwidth] at hcompile
      cases hcompile
    · rw [compile, if_pos (by omega)] at hcompile
      cases hcompile

open Classical in
/-- A program that was compiled has plans. -/
theorem Program.exists_plans {P : Program} (hP : P.Committed) (hsourced : P.Sourced) (hsmall : P.size ≤ UInt64.size) :
    ∃ T : Plans, T.Describe P := by
  let chosen : Plans := fun unit =>
    if h : ∃ p : Plan, p.Of unit then h.choose else ⟨⟨.none 0, 0⟩, id, fun _ => .entry⟩
  refine ⟨chosen, hP, hsmall, fun part hpart => ?_⟩
  obtain ⟨filename, source, width, hcompile⟩ := hsourced part hpart
  have hex := exists_plan hcompile
  show (if h : ∃ p : Plan, p.Of part.data then h.choose else _).Of part.data
  rw [dif_pos hex]
  exact hex.choose_spec

open Classical in
/-- The plan of one unit may be given. -/
theorem Plans.Describe.update {T : Plans} {P : Program} (h : T.Describe P) {p : Plan} {unit : Array UInt8}
    (hp : p.Of unit) : Plans.Describe (Function.update T unit p) P := by
  refine ⟨h.committed, h.small, fun part hpart => ?_⟩
  by_cases hunit : part.data = unit
  · rw [hunit, Function.update_self]
    exact hp
  · rw [Function.update_of_ne hunit]
    exact h.of part hpart

end ScriptEngine.Code

namespace ScriptEngine

open Code (Header Nest Op Plans Program)

/-- At the cursor something is open: it is at the start of a unit, or at an item of it. -/
structure Cursor.Finds (T : Plans) (P : Program) (c : Cursor) (N : Nest) : Prop where
  has : P.Has c.base c.code
  first : c.codeStart = (T c.code).place 0
  here : c.pos = 0 ∧ N = .entry
    ∨ ∃ i < (T c.code).items.length, c.pos = (T c.code).place i ∧ N = (T c.code).nests i

namespace Code.Plans

variable {T : Plans} {P p : Program} {base offset i : Nat} {unit : Array UInt8} {c c' : Cursor} {previous : Op}

theorem Describe.of_has (hT : T.Describe P) (h : P.Has base unit) : (T unit).Of unit := by
  obtain ⟨part, hpart, -, rfl⟩ := h
  exact hT.of part hpart

theorem Describe.place_lt (hT : T.Describe P) (h : P.Has base unit) (hi : i < (T unit).items.length) :
    (T unit).place i < unit.size :=
  (hT.of_has h).placed.stands.place_lt_size hi

/-- Looking an offset in a unit up ends in that unit. -/
theorem Describe.load (hT : T.Describe P) (hp : p.PartOf P) (h : P.Has base unit) (hlow : base ≤ offset)
    (hhigh : offset < base + unit.size) (hload : Cursor.load p offset previous = .ok c) :
    c = ⟨unit, base, (T unit).place 0, offset - base, previous⟩ := by
  obtain ⟨header, hheader, rfl⟩ := hT.committed.load hp h hlow hhigh hload
  obtain ⟨header', hheader', hfirst⟩ := (hT.of_has h).placed.first
  cases hheader.symm.trans hheader'
  rw [hfirst]

/-- Going to an item ends there. -/
theorem Describe.goTo_item (hT : T.Describe P) (hp : p.PartOf P) (hhas : P.Has c.base c.code)
    (hfirst : c.codeStart = (T c.code).place 0) (h : P.Has base unit) (hi : i < (T unit).items.length)
    (hgo : c.goTo p (base + (T unit).place i) previous = .ok c') :
    c' = ⟨unit, base, (T unit).place 0, (T unit).place i, previous⟩ := by
  have hlt := hT.place_lt h hi
  obtain ⟨header, hheader, hplace⟩ := (hT.of_has hhas).placed.first
  obtain ⟨header', hheader', rfl⟩ :=
    hT.committed.goTo hp hhas hheader (hfirst.trans hplace) h (Nat.le_add_right _ _) (by omega) hgo
  obtain ⟨header, hheader, hplace⟩ := (hT.of_has h).placed.first
  cases hheader'.symm.trans hheader
  rw [hplace, Nat.add_sub_cancel_left]

theorem finds_item (h : P.Has base unit) (hi : i < (T unit).items.length) :
    Cursor.Finds T P ⟨unit, base, (T unit).place 0, (T unit).place i, previous⟩ ((T unit).nests i) :=
  ⟨h, rfl, .inr ⟨i, hi, rfl, rfl⟩⟩

/-- Nothing is open where a function starts. -/
theorem Describe.nests_entry (hT : T.Describe P) (h : P.Has base unit) {behind : Nat}
    (hitem : (T unit).items[i]? = some (.func behind)) : (T unit).nests (i - behind) = .entry :=
  ((hT.of_has h).nests.agrees hitem).1

theorem Describe.goTo_entry (hT : T.Describe P) (hp : p.PartOf P) (hhas : P.Has c.base c.code)
    (hfirst : c.codeStart = (T c.code).place 0) (h : T.Entry P offset) (hgo : c.goTo p offset previous = .ok c') :
    c'.Finds T P .entry := by
  obtain ⟨base, unit, i, behind, hunit, hitem, rfl⟩ := h
  have hi : i - behind < (T unit).items.length :=
    Nat.lt_of_le_of_lt (Nat.sub_le _ _) (List.getElem?_eq_some_iff.mp hitem).1
  rw [hT.goTo_item hp hhas hfirst hunit hi hgo, ← hT.nests_entry hunit hitem]
  exact finds_item hunit hi

/-- Nothing is open where an execution starts. -/
theorem Describe.load_start (hT : T.Describe P) (hp : p.PartOf P) (h : T.Startable P offset)
    (hload : Cursor.load p offset previous = .ok c) : c.Finds T P .entry := by
  rcases h with ⟨base, unit, i, behind, hunit, hitem, rfl⟩ | ⟨unit, hunit⟩
  · have hi : i - behind < (T unit).items.length :=
      Nat.lt_of_le_of_lt (Nat.sub_le _ _) (List.getElem?_eq_some_iff.mp hitem).1
    have hplace := hT.place_lt hunit hi
    rw [hT.load hp hunit (Nat.le_add_right _ _) (by omega) hload, Nat.add_sub_cancel_left,
      ← hT.nests_entry hunit hitem]
    exact finds_item hunit hi
  · have hplace := hT.place_lt hunit (Code.Shape.closed_script _).length_pos
    rw [hT.load hp hunit (Nat.le_refl _) (by omega) hload, Nat.sub_self]
    exact ⟨hunit, rfl, .inl ⟨rfl, rfl⟩⟩

/-- The offsets of functions are behind the first bytes of a program. -/
theorem Describe.one_lt_entry (hT : T.Describe P) (h : T.Entry P offset) : 1 < offset := by
  obtain ⟨base, unit, i, behind, hunit, hitem, rfl⟩ := h
  have hlt := (List.getElem?_eq_some_iff.mp hitem).1
  have hplace := (hT.of_has hunit).placed.headerSize_lt_place (i := i - behind)
    (Nat.lt_of_le_of_lt (Nat.sub_le _ _) hlt)
  have : headerSize = 13 := rfl
  omega

end Code.Plans

end ScriptEngine
