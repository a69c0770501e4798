import ScriptEngine.Proofs.Machine.Collection
import ScriptEngine.Proofs.Machine.TwinRuns
/-!
The width of placeholders.

Machines that are made with options that differ in the width alone are alike from the start
(`like_new`), so scripts do the same on both. Main statement: at any two widths a script compiles to the
same items, and runs of it come to the same but for the offsets of functions (`exec_of_any_width`).
-/

namespace ScriptEngine

open Code (Atlas)

namespace Machine

variable {W : Type} {M : Move}

/-! ## New machines -/

theorem parallel_globalId : M.Parallel (W := W) (fun id => id) (inspect globalId) (inspect globalId) := by
  refine parallel_inspect fun m => ?_
  have hglobal : (M.machine m).globalObject = M.value m.globalObject := by
    unfold globalObject
    rw [Move.scopes_machine, Array.getElem?_map]
    cases m.scopes[0]? <;> rfl
  unfold globalId
  rw [hglobal, Move.propertyHolder?_value]
  cases m.globalObject.propertyHolder? <;> rfl

theorem parallel_setBuiltin (b : Builtin) :
    M.Parallel (W := W) (fun u => u) (setBuiltin b) (setBuiltin b) :=
  parallel_bind parallel_globalId fun id => parallel_bind (parallel_lend _ _) fun key =>
    parallel_setOwn id key b.value

theorem parallel_setGlobal (name : String) (v : Value) :
    M.Parallel (W := W) (fun u => u) (setGlobal name v) (setGlobal name (M.value v)) :=
  parallel_bind parallel_globalId fun id => parallel_bind (parallel_allocString _) fun key =>
    parallel_setOwn id key v

theorem parallel_install : M.Parallel (W := W) (fun u => u) install install := by
  refine parallel_bind parallel_newObject fun global => parallel_bind (k := fun u => u)
    (parallel_modify fun m => ?_) fun _ => ?_
  · simp [Move.machine]
  · induction Builtin.globals with
    | nil => exact parallel_pure _ _
    | cons b rest ih =>
      exact parallel_bind (k := fun u => u) (parallel_setBuiltin b) fun _ => ih

theorem heap_bare (o : Options) (r : Renaming) : r.heap (.empty o) = .empty o := by
  have hmap {α : Type} (f : α → α) (cells reserve : Nat) :
      (Arena.empty cells reserve : Arena α).map f = .empty cells reserve := by
    simp [Arena.map, Arena.empty, Arena.addBlock, Arena.grow]
  simp only [Renaming.heap, Heap.empty, hmap]

/-- Bare machines of two widths. -/
theorem like_bare (o : Options) (output : Output) (world : W) (w w' : Nat) :
    Like [] w w' (bare { o with placeholderWidth := w } output world)
      (bare { o with placeholderWidth := w' } output world) := by
  refine ⟨Code.Atlas.describes_empty, rfl, rfl, .same _, rfl, fun {M} hM => ?_⟩
  simp only [bare, Move.machine, Move.towards, hM.failure_zero, Roots.empty, Roots.map, Ffi.Callbacks.empty,
    Ffi.Callbacks.map, Move.value_undefined, Array.map_empty, heap_bare]
  rfl

/-- New machines of two widths are alike. -/
theorem like_new (o : Options) (output : Output) (world : W) (w w' : Nat) :
    ResultLike (Like [] w w') (new { o with placeholderWidth := w } output world)
      (new { o with placeholderWidth := w' } output world) := by
  have hinstall := (like_bare o output world w w').work (f := fun _ u => u) (fun _ => parallel_install)
    (quiet_of_parallel (f := fun _ u => u) fun _ => parallel_install)
  unfold new
  revert hinstall
  generalize install (bare { o with placeholderWidth := w } output world) = r
  generalize install (bare { o with placeholderWidth := w' } output world) = r'
  intro hinstall
  cases hinstall with
  | ok hlike _ => exact .ok hlike
  | error e _ => exact .error e

/-! ## Scripts -/

/-- At any two widths a source is rejected for the same reason, or gives units that hold the same items
from the start of their code to its end, each of which decodes at its place to the instruction whose
targets are the same items. Machines of the two widths are alike when they are new, and running the script
on machines that are alike comes to the same, but for the offsets of functions. -/
theorem exec_of_any_width (env : Embedding W) {w w' : Nat} (henv : env.Respects w w') (filename source : String)
    (hw : w ≤ Code.Emitter.maxWidth) (hw' : w' ≤ Code.Emitter.maxWidth)
    (hsmall : Code.compile filename source w ≠ .error Code.unitTooLarge)
    (hsmall' : Code.compile filename source w' ≠ .error Code.unitTooLarge) :
    ((∃ e, Code.compile filename source w = .error e ∧ Code.compile filename source w' = .error e)
      ∨ ∃ unit unit' items place place' header header',
        Code.compile filename source w = .ok unit ∧ Code.compile filename source w' = .ok unit'
        ∧ Code.Stands unit items place ∧ Code.Stands unit' items place'
        ∧ Code.Header.read? unit = some header ∧ Code.Header.read? unit' = some header'
        ∧ place 0 = header.codeStart ∧ place items.length = header.mapStart
        ∧ place' 0 = header'.codeStart ∧ place' items.length = header'.mapStart)
    ∧ (∀ (o : Options) (output : Output) (world : W), ResultLike (Like [] w w')
        (new { o with placeholderWidth := w } output world) (new { o with placeholderWidth := w' } output world))
    ∧ ∀ {A : Atlas} {m m' : Machine W}, Like A w w' m m' → ∀ budget, Outcome.Like A w w'
        (perform env (m.exec filename source) budget) (perform env (m'.exec filename source) budget) := by
  refine ⟨?_, fun o output world => like_new o output world w w', fun h budget =>
    (runsLike henv hw hw' budget).perform (h.exec hw hw' hsmall hsmall')⟩
  rcases Code.compile_two filename source hw hw' hsmall hsmall' with
    ⟨e, herror, herror'⟩ | ⟨unit, unit', items, lines, hunit, hunit', hcompiled, hcompiled', -⟩
  · exact .inl ⟨e, herror, herror'⟩
  · obtain ⟨place, header, hstands, hheader, hfirst, hlast⟩ := hcompiled.stands
    obtain ⟨place', header', hstands', hheader', hfirst', hlast'⟩ := hcompiled'.stands
    exact .inr ⟨unit, unit', items, place, place', header, header', hunit, hunit', hstands, hstands', hheader,
      hheader', hfirst, hlast, hfirst', hlast'⟩

theorem noEmbedding_respects (w w' : Nat) : noEmbedding.Respects w w' where
  natives f hf := absurd hf (Array.not_mem_empty f)
  nativesCrowded f hf := absurd hf (Array.not_mem_empty f)
  host _ hhost := by cases hhost
  hostCrowded _ hhost := by cases hhost
  files hfile := by cases hfile

/-- A script with two forward jumps. -/
def branching : String := "if (true) 1; else 2;"

theorem exec_of_any_width_branching :
    noEmbedding.Respects 0 4 ∧ Code.compile "t.js" branching 0 ≠ .error Code.unitTooLarge
    ∧ Code.compile "t.js" branching 4 ≠ .error Code.unitTooLarge
    ∧ ∀ {A : Atlas} {m m' : Machine Unit}, Like A 0 4 m m' → ∀ budget, Outcome.Like A 0 4
        (perform noEmbedding (m.exec "t.js" branching) budget) (perform noEmbedding (m'.exec "t.js" branching) budget) := by
  have hnarrow : (Code.compile "t.js" branching 0).isOk = true := by decide +kernel
  have hwide : (Code.compile "t.js" branching 4).isOk = true := by decide +kernel
  have hsmall {r : Except Error (Array UInt8)} (h : r.isOk = true) : r ≠ .error Code.unitTooLarge := by
    rintro rfl
    cases h
  exact ⟨noEmbedding_respects 0 4, hsmall hnarrow, hsmall hwide,
    (exec_of_any_width noEmbedding (noEmbedding_respects 0 4) "t.js" branching (by decide) (by decide)
      (hsmall hnarrow) (hsmall hwide)).2.2⟩

end Machine

end ScriptEngine
