import ScriptEngine.Proofs.Code.Charts
/-!
The line map of committed code.

Every instruction of a committed unit is on the line where its mark is placed, whatever width placeholders were
given and however far jumps were spliced apart, and those are the lines of the tokens just when the marks of the
program are clear (`line_of_instruction`). All marks are, but for those of counting loops whose step is partly on
the line that the test starts on and partly not, counting the jump in front of the step.
-/

namespace ScriptEngine.Code

/-- What a committed unit is found as, at any offset in it. -/
theorem Program.lineFor?_of_commit {p q : Program} {unit : Array UInt8} {index : Nat} (hp : p.Committed)
    (hcommit : p.commit unit = .ok (q, index)) :
    ∃ part, Part.ofUnit? unit p.size = some part ∧ ∀ offset < unit.size,
      q.lineFor? (p.size + offset) = some (LineTable.lineAt part.lines offset) := by
  have hq : q.Committed := (Program.grows_commit hcommit).committed hp
  obtain ⟨part, hpart, rfl, -⟩ := Program.commit_eq hcommit
  obtain ⟨hstart, hdata, -⟩ := Program.ofUnit?_eq hpart
  refine ⟨part, hpart, fun offset hoffset => ?_⟩
  have hcovers : part.covers (p.size + offset) = true := by
    rw [Program.covers_iff, hstart, hdata]
    omega
  have hat := hq.endToEnd.partAt? (k := p.parts.size) (Array.getElem?_push_size) hcovers
  rw [Program.lineFor?, hat, Option.map_some, hstart, Nat.add_sub_cancel_left]

theorem readLine?_eq_some {line read : Nat} (h : some read = readLine? line) : read = line % UInt64.size := by
  unfold readLine? at h
  split at h
  · exact Option.some.inj h
  · cases h

/-- What a committed unit holds, if it was compiled from a source that parses. -/
theorem holds_of_commit {filename source : String} {width : Nat} {unit : Array UInt8} {script : Source.Script}
    {start : Nat} {part : Part} (hcompile : compile filename source width = .ok unit)
    (hparse : Source.parseScript source = .ok script) (hpart : Part.ofUnit? unit start = some part) :
    ∃ place header, part.Holds (Shape.script script) ((Marks.script script).placed none none) place
      ∧ Header.read? unit = some header ∧ place 0 = header.codeStart
      ∧ place (Shape.script script).length = header.mapStart := by
  have hwidth : width ≤ Emitter.maxWidth := by
    by_contra hlt
    rw [compile, if_pos (by omega)] at hcompile
    cases hcompile
  rcases compile_placed hparse filename hwidth with h | ⟨unit', hunit, hcompiled⟩
  · rw [h] at hcompile
    cases hcompile
  obtain rfl : unit' = unit := Except.ok.inj (hunit.symm.trans hcompile)
  obtain ⟨place', header, hstands', hheader, hfirst', hlast'⟩ := hcompiled.stands
  have hholds := hcompiled.ofUnit? start
  split at hholds
  · obtain ⟨part', place, hpart', -, hdata, -, -, hholds⟩ := hholds
    obtain rfl : part' = part := Option.some.inj (hpart'.symm.trans hpart)
    obtain ⟨-, -, header', hheader', hcode⟩ := Program.ofUnit?_eq hpart
    obtain rfl : header' = header := Option.some.inj (hheader'.symm.trans hheader)
    have hfirst : place 0 = header'.codeStart := hholds.first.trans hcode
    have hstands : Stands unit' (Shape.script script) place := hdata ▸ hholds.stands
    refine ⟨place, header', hholds, hheader, hfirst, ?_⟩
    rw [hstands'.unique hstands (hfirst.trans hfirst'.symm) (Nat.le_refl _), hlast']
  · rw [hholds] at hpart
    cases hpart

/-- For every source, at every width: the line map gives each instruction of the committed unit the line where its
mark is placed; that is the line of its token for all instructions exactly if the marks of the program are
clear. -/
theorem line_of_instruction {filename source : String} {width : Nat} {unit : Array UInt8} {script : Source.Script}
    {p q : Program} {index : Nat} (hcompile : compile filename source width = .ok unit)
    (hparse : Source.parseScript source = .ok script) (hp : p.Committed)
    (hcommit : p.commit unit = .ok (q, index)) :
    ∃ place header, Stands unit (Shape.script script) place ∧ Header.read? unit = some header
      ∧ place 0 = header.codeStart ∧ place (Shape.script script).length = header.mapStart
      ∧ (Marks.script script).tokens.length = (Shape.script script).length
      ∧ (∀ i line, ((Marks.script script).placed none none)[i]? = some line →
        q.lineFor? (p.size + place i) = some (line % UInt64.size))
      ∧ ((Marks.script script).placed none none = (Marks.script script).tokens
        ↔ (Marks.script script).Clear none none) := by
  obtain ⟨part, hpart, hline⟩ := Program.lineFor?_of_commit hp hcommit
  obtain ⟨place, header, hholds, hheader, hfirst, hlast⟩ := holds_of_commit hcompile hparse hpart
  have hstands : Stands unit (Shape.script script) place := (Program.ofUnit?_eq hpart).2.1 ▸ hholds.stands
  have hlength : (Marks.script script).tokens.length = (Shape.script script).length := by
    rw [← Marks.length_placed _ none none, hholds.lines_length]
  refine ⟨place, header, hstands, hheader, hfirst, hlast, hlength, fun i line hat => ?_,
    Marks.placed_eq_tokens_iff _ none none⟩
  have hi : i < (Shape.script script).length := by
    rw [← hholds.lines_length]
    exact (List.getElem?_eq_some_iff.mp hat).1
  rw [hline _ (hstands.place_lt_size hi), readLine?_eq_some (hholds.line hat)]

/-- A counting loop over three lines. -/
def spread : String := "for (let i = 0; i < 3;\n i++)\n 1;"

/-- The loop is compiled and committed, and its marks are clear. -/
def spreads : Bool :=
  match Source.parseScript spread, compile "t.js" spread 1 with
  | .ok script, .ok unit =>
    (Program.empty.commit unit).isOk && decide ((Marks.script script).Clear none none)
  | _, _ => false

theorem line_of_instruction_spread : ∃ script unit q index, Source.parseScript spread = .ok script
    ∧ compile "t.js" spread 1 = .ok unit ∧ Program.empty.Committed ∧ Program.empty.commit unit = .ok (q, index)
    ∧ ∃ place, Stands unit (Shape.script script) place
      ∧ ∀ i line, (Marks.script script).tokens[i]? = some line → q.lineFor? (place i) = some (line % UInt64.size) := by
  have hcheck : spreads = true := by decide +kernel
  unfold spreads at hcheck
  split at hcheck
  · rename_i script unit hparse hcompile
    rw [Bool.and_eq_true, decide_eq_true_eq] at hcheck
    obtain ⟨hcommits, hclear⟩ := hcheck
    cases hcommit : Program.empty.commit unit with
    | error e =>
      rw [hcommit] at hcommits
      cases hcommits
    | ok committed =>
      obtain ⟨q, index⟩ := committed
      obtain ⟨place, -, hstands, -, -, -, -, hlines, htokens⟩ :=
        line_of_instruction hcompile hparse Program.committed_empty hcommit
      rw [htokens.mpr hclear] at hlines
      refine ⟨script, unit, q, index, hparse, hcompile, Program.committed_empty, hcommit, place, hstands,
        fun i line hat => ?_⟩
      simpa [Program.empty] using hlines i line hat
  · cases hcheck

/-- A step that starts on the line that the test starts on, with its loop on the line before. -/
example : ((Source.parseScript "for (let i = 0; (\ni < 3); i++) 1;").toOption.any fun script =>
    decide (¬ (Marks.script script).Clear none none)) = true := by
  decide +kernel

end ScriptEngine.Code
