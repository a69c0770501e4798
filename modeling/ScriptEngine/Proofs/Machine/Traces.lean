import ScriptEngine.Proofs.Machine.Callers
import ScriptEngine.Proofs.Machine.Interruptions
/-!
Traces.

An execution that fails notes the line of the instruction that failed and those of its calls. When a failure is
passed on from execution to execution, the lines of all of them are noted one after the other, and together they
are the line of the instruction that failed first and those of all calls that waited at that moment
(`Moment.Passes.trace`). In front of them stand the lines of failures that did not get that far
(`trace_of_request`).
-/

namespace ScriptEngine

/-! ## Lines of a program that grows -/

namespace Code.Program

variable {p q : Program} {offset : Nat} {part : Part}

/-- What is found where one item was changed, if a change makes no difference for the search. -/
theorem find?_modify {ι : Type} {found : ι → Bool} {change : ι → ι} (hchange : ∀ x, found (change x) = found x) {x : ι} :
    ∀ (xs : List ι) (index : Nat), xs.find? found = some x →
      (xs.modify index change).find? found = some x ∨ (xs.modify index change).find? found = some (change x)
  | [], _, h => by cases h
  | y :: ys, index, h => by
    by_cases hy : found y = true
    · rw [List.find?_cons_of_pos hy] at h
      obtain rfl : y = x := Option.some.inj h
      cases index with
      | zero => exact .inr (by rw [List.modify_zero_cons, List.find?_cons_of_pos ((hchange y).trans hy)])
      | succ index => exact .inl (by rw [List.modify_succ_cons, List.find?_cons_of_pos hy])
    · rw [List.find?_cons_of_neg hy] at h
      cases index with
      | zero => exact .inl (by rw [List.modify_zero_cons, List.find?_cons_of_neg (by rwa [hchange]), h])
      | succ index =>
        rw [List.modify_succ_cons, List.find?_cons_of_neg hy]
        exact find?_modify hchange ys index h

/-- An offset that is covered stays in its part. -/
theorem Grows.partAt? (h : p.Grows q) (hpart : p.partAt? offset = some part) :
    ∃ other, q.partAt? offset = some other ∧ other.filename = part.filename ∧ other.lines = part.lines
      ∧ other.start = part.start := by
  induction h with
  | refl => exact ⟨part, hpart, rfl, rfl, rfl⟩
  | tail _ hstep ih =>
    obtain ⟨other, hother, hfile, hlines, hstart⟩ := ih
    rcases hstep with ⟨unit, index, hcommit⟩ | ⟨index, succeeded, rfl⟩
    · obtain ⟨last, -, rfl, -⟩ := commit_eq hcommit
      refine ⟨other, ?_, hfile, hlines, hstart⟩
      unfold Program.partAt? at hother ⊢
      rw [Array.find?_push, hother]
      rfl
    · have hcovers (part : Part) : ({ part with lastRun := some succeeded } : Part).covers offset = part.covers offset := rfl
      unfold Program.partAt? at hother ⊢
      rw [← Array.find?_toList] at hother ⊢
      rw [recordRun, Array.toList_modify]
      rcases find?_modify hcovers _ index hother with hfound | hfound
      · exact ⟨other, hfound, hfile, hlines, hstart⟩
      · exact ⟨_, hfound, hfile, hlines, hstart⟩

theorem Grows.lineFor? (h : p.Grows q) (hcovered : (p.partAt? offset).isSome) : q.lineFor? offset = p.lineFor? offset := by
  obtain ⟨part, hpart⟩ := Option.isSome_iff_exists.mp hcovered
  obtain ⟨other, hother, -, hlines, hstart⟩ := h.partAt? hpart
  simp only [Program.lineFor?, hother, hpart, Option.map_some, hlines, hstart]

theorem Grows.filenameFor? (h : p.Grows q) (hcovered : (p.partAt? offset).isSome) :
    q.filenameFor? offset = p.filenameFor? offset := by
  obtain ⟨part, hpart⟩ := Option.isSome_iff_exists.mp hcovered
  obtain ⟨other, hother, hfile, -⟩ := h.partAt? hpart
  simp only [Program.filenameFor?, hother, hpart, Option.map_some, hfile]

/-- The place of a call is covered. -/
theorem isSome_partAt?_of_instrAt (h : p.InstrAt (offset + 1)) : (p.partAt? offset).isSome := by
  obtain ⟨base, unit, fs, f, ⟨part, hpart, rfl, rfl⟩, hdecodes, hf, hplace⟩ := h
  obtain ⟨-, hlow, hlt, hle⟩ := hdecodes.mem hf
  have hheader : headerSize = 13 := rfl
  rw [Program.partAt?, Array.find?_isSome]
  exact ⟨part, hpart, covers_iff.mpr (by omega)⟩

end Code.Program

namespace Machine

variable {W : Type} {m n : Machine W}

/-- The lines of calls, innermost first. -/
def linesOf (m : Machine W) (sites : List (Option Nat)) : List TraceEntry :=
  (sites.reverse.filterMap id).filterMap m.traceEntry?

theorem linesOf_append (m : Machine W) (sites sites' : List (Option Nat)) :
    m.linesOf (sites ++ sites') = m.linesOf sites' ++ m.linesOf sites := by
  simp [linesOf]

theorem linesOf_site (m : Machine W) (site : Nat) : m.linesOf [some site] = ( m.traceEntry? site).toList := by
  cases h : m.traceEntry? site <;> simp [linesOf, h]

/-- The lines of a failure are that of the instruction that failed and those of the calls. -/
theorem traceAbove_eq (m : Machine W) (calls : Nat) :
    m.traceAbove calls = ( m.traceEntry? m.failedAt).toList ++ m.linesOf (m.sites.drop calls) := by
  have hsites : ((m.frames.drop calls).toList.reverse.filterMap Frame.callSite)
      = (m.sites.drop calls).reverse.filterMap id := by
    have hdrop : (m.frames.drop calls).toList = m.frames.toList.drop calls := by
      rw [Array.drop_eq_extract, Array.toList_extract]
      exact List.take_of_length_le (by simp)
    rw [hdrop, sites, ← List.map_drop, ← List.map_reverse, List.filterMap_map]
    rfl
  rw [traceAbove, hsites, linesOf]
  cases h : m.traceEntry? m.failedAt <;> simp [h]

/-- Lines of calls stay what they are when the code grows. -/
theorem linesOf_grows (h : m.program.Grows n.program) {sites : List (Option Nat)}
    (hcovered : ∀ site, some site ∈ sites → (m.program.partAt? site).isSome) : n.linesOf sites = m.linesOf sites := by
  refine List.filterMap_congr fun site hsite => ?_
  have hmem : some site ∈ sites := by simpa using hsite
  simp only [ traceEntry?, h.filenameFor? (hcovered site hmem), h.lineFor? (hcovered site hmem)]

theorem traceEntry?_congr (h : n.program = m.program) : n.traceEntry? = m.traceEntry? := by
  funext offset
  simp only [ traceEntry?, h]

theorem linesOf_congr (h : n.program = m.program) (sites : List (Option Nat)) : n.linesOf sites = m.linesOf sites := by
  rw [linesOf, linesOf, traceEntry?_congr h]

/-- Only a failure adds lines to the trace, when an execution ends with it. -/
theorem trace_leaveExecution (m : Machine W) (start : Depths) (receiver : Value) (r : Except Error Value) :
    (m.leaveExecution start receiver r).1.trace
      = m.trace ++ match r with
        | .error (.failure _ _) => m.traceAbove start.calls
        | _ => [] := by
  cases r with
  | ok v => exact (List.append_nil _).symm
  | error e =>
    cases e with
    | failure kind text => rfl
    | exit =>
      simp only [leaveExecution, List.append_nil]
      split <;> rfl

/-- Only a stop becomes a stop. -/
theorem leaveExecution_exit_only {start : Depths} {receiver : Value} {r : Except Error Value}
    (h : (m.leaveExecution start receiver r).2 = .error .exit) : r = .error .exit := by
  cases r with
  | ok v => cases h
  | error e =>
    cases e with
    | failure kind text => cases h
    | exit => rfl

/-- An execution hands on a failure, and nothing else becomes one. -/
theorem leaveExecution_failure {start : Depths} {receiver : Value} {r : Except Error Value} {kind : ErrorKind} {text : String} :
    (m.leaveExecution start receiver r).2 = .error (.failure kind text) ↔ r = .error (.failure kind text) := by
  cases r with
  | ok v => exact ⟨fun h => h, fun h => h⟩
  | error e =>
    cases e with
    | failure kind text => exact ⟨fun h => h, fun h => h⟩
    | exit =>
      constructor
      · intro h
        simp only [leaveExecution] at h
        split at h <;> cases h
      · intro h
        cases h

@[simp] theorem trace_concluded (m : Machine W) (r : Except Error Value) : (m.concluded r).trace = m.trace := by
  cases r <;> rfl

end Machine

/-! ## Lines of a row of moments -/

namespace Moment

variable {W : Type} {env : Embedding W} {M M' R : Moment W}

/-- The lines that are noted next: those of an execution that failed. -/
def adds : Moment W → List TraceEntry
  | ended m r (.execution start _ :: _) =>
    match r with
    | .error (.failure _ _) => m.traceAbove start.calls
    | _ => []
  | _ => []

/-- A row of moments, with the lines that the executions that failed in it have noted. -/
inductive Recording (env : Embedding W) (M : Moment W) : List TraceEntry → Moment W → Prop
  | refl : Recording env M [] M
  | tail {lines : List TraceEntry} {M₁ M₂ : Moment W} (h : Recording env M lines M₁) (hsoon : Soon env M₁ M₂) :
    Recording env M (lines ++ M₁.adds) M₂

theorem Recording.later {lines : List TraceEntry} (h : Recording env M lines M') : Later env M M' := by
  induction h with
  | refl => exact .refl
  | tail _ hsoon ih => exact .tail ih hsoon

theorem Later.recording (h : Later env M M') : ∃ lines, Recording env M lines M' := by
  induction h with
  | refl => exact ⟨[], .refl⟩
  | tail _ hsoon ih =>
    obtain ⟨lines, hlines⟩ := ih
    exact ⟨_, hlines.tail hsoon⟩

/-- Within an execution, a step notes the lines of an execution that failed, if it ends one, and no others. -/
theorem Next.trace {base : Nat} (h : Next env M M') (hM : M.Heedful base) (hbase : 0 < base) :
    M'.machine.trace = M.machine.trace ++ M.adds := by
  have hdepth : 0 < M.machine.depth := Nat.lt_of_lt_of_le hbase hM.base_le
  have hsame {n : Machine W} (hn : n.trace = M.machine.trace) : n.trace = M.machine.trace ++ [] :=
    hn.trans (List.append_nil _).symm
  have hstep {m m' : Machine W} {c : Cursor} {r : EStateM.Result Error (Machine W) Machine.Step}
      (hadvance : Machine.advance env c m.collectIfNeeded = r) (hr : leftBy r = m') : m'.trace = m.trace := by
    have hnotes := congrArg Machine.Notes.trace (Machine.notes_step env c m)
    rw [hadvance, hr] at hnotes
    exact hnotes
  have hfailure (m : Machine W) (offset : Nat) (e : Error) : (m.noteFailure offset e).trace = m.trace := by
    cases e <;> rfl
  have hleave (m : Machine W) : m.leaveHost.trace = m.trace :=
    congrArg Machine.Notes.trace (Machine.notes_leaveHost m)
  cases h with
  | stopped hup => exact hsame rfl
  | failed hgo hadvance => exact hsame ((hfailure _ _ _).trans (hstep hadvance rfl))
  | finished hgo hadvance | goOn hgo hadvance | host hgo hadvance => exact hsame (hstep hadvance rfl)
  | resumed => exact hsame (hleave _)
  | @hostFailed m K offset slot c entries e =>
    exact hsame ((hfailure m.leaveHost offset e).trans (hleave m))
  | unloaded hload | enter hload => exact hsame rfl
  | @left m K r start receiver =>
    exact Machine.trace_leaveExecution m start receiver r
  | function | outside h | uncallable h hcode | outsideLeft | answered => exact hsame rfl
  | done => exact hsame (hM.now.trace hdepth)
  | code | value => exact hsame (hM.now.1.trace hdepth)

/-- Within an execution, the trace is what it was, followed by the lines that were noted. -/
theorem Recording.trace {base : Nat} {lines : List TraceEntry} (henv : env.Heedful) (h : Recording env M lines M')
    (hM : M.Heedful base) (hbase : 0 < base) : M'.machine.trace = M.machine.trace ++ lines := by
  induction h with
  | refl => exact (List.append_nil _).symm
  | @tail lines M₁ M₂ h hsoon ih =>
    rw [← List.append_assoc, ← ih]
    rcases hsoon with hnext | ⟨m, c, entries, K⟩
    · exact hnext.trace (Later.heedful henv h.later hM) hbase
    · exact (List.append_nil _).symm

/-! ## Errors that are passed on -/

/-- Something ends with an error. -/
def Carries (e : Error) : Moment W → Prop
  | ended _ r _ | going (.action _ (.done _ r)) _ => r = .error e
  | _ => False

/-- A function outside of the code hands an error to its caller, its own or that of a call that it made. -/
inductive HandsOn (e : Error) : Moment W → Moment W → Prop
  | done {m m' : Machine W} {K : List (Waiting W)} :
    HandsOn e (going (.action m' (.done m (.error e))) K) (ended m (.error e) K)
  | left {m : Machine W} {size : Nat} {receiver : Value} {K : List (Waiting W)} :
    HandsOn e (ended m (.error e) (.call size receiver :: K)) (ended (m.leaveHostCall size receiver) (.error e) K)
  | answered {m m' : Machine W} {next : Machine W → Except Error Value → Action W Value} {K : List (Waiting W)}
    (h : next m (.error e) = .done m' (.error e)) :
    HandsOn e (ended m (.error e) (.action next :: K)) (going (.action m (.done m' (.error e))) K)

/-- An error is passed on: by a function outside of the code, to the instruction that called it, or by an
execution. -/
inductive PassesOn (e : Error) : Moment W → Moment W → Prop
  | hands {M M' : Moment W} (h : HandsOn e M M') : PassesOn e M M'
  | run {m : Machine W} {offset slot : Nat} {c : Cursor} {entries : List Depths} {K : List (Waiting W)} :
    PassesOn e (ended m (.error e) (.run offset slot c entries :: K)) (ended (m.leaveHost.noteFailure offset e) (.error e) K)
  | execution {m : Machine W} {start : Depths} {receiver : Value} {K : List (Waiting W)} :
    PassesOn e (ended m (.error e) (.execution start receiver :: K))
      (ended (m.leaveExecution start receiver (.error e)).1 (.error e) K)

/-- An error is passed on all the way. -/
def Passes (e : Error) : Moment W → Moment W → Prop :=
  Relation.ReflTransGen (PassesOn e)

/-- An instruction fails: by itself, or because the function outside of the code that it called fails with an error
that did not come out of any of its calls. -/
inductive Raises (env : Embedding W) (e : Error) : Moment W → Moment W → Prop
  | instruction {m m' : Machine W} {c : Cursor} {entries : List Depths} {K : List (Waiting W)} (hgo : m.interrupted = false)
    (h : Machine.advance env c m.collectIfNeeded = .error e m') :
    Raises env e (going (.running m c entries) K) (ended (m'.noteFailure c.offset e) (.error e) K)
  | function {M M' : Moment W} {m : Machine W} {offset slot : Nat} {c : Cursor} {entries : List Depths}
    {K : List (Waiting W)} (hfresh : ¬ M.Carries e) (hnext : Next env M M')
    (hhands : Relation.ReflTransGen (HandsOn e) M' (ended m (.error e) (.run offset slot c entries :: K))) :
    Raises env e M (ended (m.leaveHost.noteFailure offset e) (.error e) K)

theorem HandsOn.next {e : Error} (h : HandsOn e M M') : Next env M M' := by
  cases h with
  | done => exact .done
  | left => exact .outsideLeft
  | answered h => exact h ▸ .answered

/-- Passing a failure on is what comes next. -/
theorem PassesOn.next {kind : ErrorKind} {text : String} (h : PassesOn (.failure kind text) M M') : Next env M M' := by
  cases h with
  | hands h => exact h.next
  | run => exact .hostFailed
  | execution => exact .left

theorem Passes.leads {kind : ErrorKind} {text : String} (h : Passes (.failure kind text) M M') : Leads env M M' :=
  Relation.ReflTransGen.mono (fun _ _ => PassesOn.next) M M' h

/-- The failure of an instruction comes later than the moment before it was raised. -/
theorem Raises.leads {e : Error} (h : Raises env e M M') : Leads env M M' := by
  cases h with
  | instruction hgo h => exact .single (.failed hgo h)
  | function hfresh hnext hhands =>
    exact .head hnext (.tail (Relation.ReflTransGen.mono (fun _ _ => HandsOn.next) _ _ hhands) .hostFailed)

/-! ## What is known of the moments of a run -/

/-- The places of calls that wait are in the code. -/
def Covered (M : Moment W) : Prop :=
  ∀ site, some site ∈ M.machine.sites → (M.machine.program.partAt? site).isSome

theorem Bound.places {P : Code.Program} (h : M.Bound P) : M.machine.skeleton.Bound P.InstrAt := by
  obtain ⟨hnow, -⟩ := h
  cases M with
  | going t K => cases t <;> first | exact hnow.1.places | exact hnow.1
  | ended m r K => exact hnow.1.places

theorem covered_of_on {K : List (Waiting W)} (h : (M.on K).Covered) : M.Covered := by
  unfold Covered at h
  rwa [machine_on] at h

theorem Occurs.covered (h : M.Occurs env) (henv : env.Steady) (hsourced : M.machine.program.Sourced)
    (hsmall : M.machine.program.size ≤ UInt64.size) : M.Covered := by
  intro site hsite
  have hplaces := (h.bound henv (h.readable henv hsourced hsmall) (.refl _)).places
  obtain ⟨frame, hframe, hcall⟩ := List.mem_map.mp hsite
  exact Code.Program.isSome_partAt?_of_instrAt ((Machine.bound_skeleton_iff.mp hplaces).1 frame (by simpa using hframe) site hcall)

/-- What is known of each moment of a run that is the outermost one above some sites. -/
structure Known (outermost : List (Option Nat)) (M : Moment W) : Prop where
  heedful : M.Heedful 1
  stacked : M.Stacked outermost
  tidy : M.Tidy
  loads : M.Loads
  covered : M.Covered

/-- The lines that are still to be noted when an error is passed on all the way. -/
def due (calls : Nat) : Moment W → List TraceEntry
  | ended m _ [] | ended m _ (.execution _ _ :: _) => m.traceAbove calls
  | going t _ => t.machine.linesOf (t.machine.sites.drop calls)
  | ended m _ _ => m.linesOf (m.sites.drop calls)

variable {outermost : List (Option Nat)}

/-- Above the sites of all, only lines of calls are due while a function outside of the code is at work. -/
theorem due_stacked {m : Machine W} {r : Except Error Value} {K : List (Waiting W)} (calls : Nat) {sites : List (Option Nat)}
    (h : Waiting.Stacked outermost sites K) : (ended m r K).due calls = m.linesOf (m.sites.drop calls) := by
  cases h <;> rfl

/-- When an instruction has failed, its line is due, too. -/
theorem due_above {m : Machine W} {r : Except Error Value} {K : List (Waiting W)} (calls : Nat) {base : List (Option Nat)}
    (h : Waiting.Above outermost base K) : (ended m r K).due calls = m.traceAbove calls := by
  cases h <;> rfl

variable {kind : ErrorKind} {text : String}

/-- What is noted when a failure is passed on is no longer due. -/
theorem PassesOn.due (h : PassesOn (.failure kind text) M M') (hM : M.Known outermost) :
    M.due outermost.length = M.adds ++ M'.due outermost.length := by
  cases h with
  | hands h =>
    cases h with
    | @done m m' K =>
      have hsites : m.sites = m'.sites := Machine.sites_of_skeleton hM.tidy.now.toKept.skeleton
      rw [due_stacked _ hM.stacked, hsites]
      exact (Machine.linesOf_grows hM.tidy.now.grows fun site hsite => hM.covered site (List.mem_of_mem_drop hsite)).symm
    | left =>
      obtain ⟨next, K', rfl, -⟩ := hM.stacked.call
      rfl
    | answered h => rfl
  | @run m offset slot c entries K =>
    obtain ⟨before, base, hsites, hin, hK⟩ := hM.stacked.run
    have hle : outermost.length ≤ before.length := (hK.isPrefix.trans hin.base_isPrefix).length_le
    have hleft : (m.leaveHost.noteFailure offset (.failure kind text)).sites = before :=
      (Machine.sites_noteFailure _ _ _).trans (Machine.sites_leaveHost hsites)
    have hprogram : (m.leaveHost.noteFailure offset (.failure kind text)).program = m.program :=
      (Machine.program_noteFailure _ _ _).trans (Machine.program_leaveHost m)
    show m.linesOf (m.sites.drop outermost.length) = _
    rw [due_above _ hK, Machine.traceAbove_eq, hleft, Machine.traceEntry?_congr hprogram, Machine.linesOf_congr hprogram,
      hsites, List.drop_append_of_le_length hle, Machine.linesOf_append, Machine.linesOf_site]
    rfl
  | @execution m start receiver K =>
    obtain ⟨base, next, K', rfl, ⟨inner, hsites⟩, hsize, hprefix, hK⟩ := hM.stacked.execution
    have hle : outermost.length ≤ base.length := hprefix.length_le
    have hleft : (m.leaveExecution start receiver (.error (.failure kind text))).1.sites = base :=
      Machine.sites_leaveExecution_of_isPrefix ⟨inner, hsites⟩ hsize receiver _
    have hprogram : (m.leaveExecution start receiver (.error (.failure kind text))).1.program = m.program :=
      Machine.program_leaveExecution _ _ _ _
    show m.traceAbove outermost.length
      = m.traceAbove start.calls ++ Machine.linesOf _ (Machine.sites _ |>.drop outermost.length)
    rw [Machine.traceAbove_eq, Machine.traceAbove_eq, hleft, Machine.linesOf_congr hprogram, ← hsites, ← hsize,
      List.drop_append_of_le_length hle, List.drop_left, Machine.linesOf_append, List.append_assoc]

/-- When a failure is passed on, what was noted and what is still to be noted stay the same. -/
theorem Passes.trace (hknown : ∀ M₁, Leads env M M₁ → Leads env M₁ M' → M₁.Known outermost)
    (h : Passes (.failure kind text) M M') :
    M.machine.trace ++ M.due outermost.length = M'.machine.trace ++ M'.due outermost.length := by
  induction h with
  | refl => rfl
  | @tail M₁ M₂ hbefore hpasses ih =>
    have hnow : M₁.Known outermost := hknown M₁ (Passes.leads hbefore) (.single hpasses.next)
    have hnext : Next env M₁ M₂ := hpasses.next
    rw [ih fun M₀ h₀ h₁ => hknown M₀ h₀ (.tail h₁ hnext), hpasses.due hnow, ← List.append_assoc,
      hnext.trace hnow.heedful Nat.one_pos]

/-! ## Where an error comes from -/

/-- A function outside of the code is at work, or has just ended. -/
def AtWork : Moment W → Prop
  | going (.action _ _) _ | ended _ _ (.run _ _ _ _ :: _) | ended _ _ (.call _ _ :: _) | ended _ _ (.action _ :: _) => True
  | _ => False

theorem atWork_of_stacked {m : Machine W} {r : Except Error Value} {K : List (Waiting W)} {sites : List (Option Nat)}
    (h : Waiting.Stacked outermost sites K) : (ended m r K).AtWork := by
  cases h <;> trivial

/-- An error that something ends with was raised by an instruction and passed on since; or it comes out of a
function outside of the code that is still at work. -/
inductive Origin (env : Embedding W) (e : Error) (R : Moment W) : Moment W → Prop
  | raised {lines : List TraceEntry} {M F M' : Moment W} (hrow : Recording env R lines M) (hraises : Raises env e M F)
    (hpasses : Passes e F M') : Origin env e R M'
  | atWork {lines : List TraceEntry} {M M₁ M' : Moment W} (hrow : Recording env R lines M) (hfresh : ¬ M.Carries e)
    (hnext : Next env M M₁) (hhands : Relation.ReflTransGen (HandsOn e) M₁ M') (hatWork : M'.AtWork) : Origin env e R M'

/-- Errors have an origin, as one step shows. -/
theorem Next.origin {lines : List TraceEntry} (h : Next env M M') (hrow : Recording env R lines M)
    (hM : M.Known outermost) (horigin : M.Carries (.failure kind text) → Origin env (.failure kind text) R M)
    (hcarries : M'.Carries (.failure kind text)) : Origin env (.failure kind text) R M' := by
  cases h with
  | stopped hup | finished hgo hadvance | goOn hgo hadvance | resumed | enter hload | function | code | value =>
    cases hcarries
  | failed hgo hadvance =>
    cases hcarries
    exact .raised hrow (.instruction hgo hadvance) .refl
  | host hgo hadvance => exact .atWork hrow id (.host hgo hadvance) .refl trivial
  | @hostFailed m K offset slot c entries e =>
    cases hcarries
    cases horigin rfl with
    | raised hrow hraises hpasses => exact .raised hrow hraises (.tail hpasses .run)
    | atWork hrow hfresh hnext hhands hatWork => exact .raised hrow (.function hfresh hnext hhands) .refl
  | unloaded hload =>
    obtain ⟨c, hfound⟩ := hM.loads
    rw [hfound] at hload
    cases hload
  | @left m K r start receiver =>
    obtain rfl := Machine.leaveExecution_failure.mp hcarries
    cases horigin rfl with
    | raised hrow hraises hpasses => exact .raised hrow hraises (.tail hpasses .execution)
    | atWork hrow hfresh hnext hhands hatWork => cases hatWork
  | outside houtside => exact .atWork hrow id (.outside houtside) .refl trivial
  | uncallable houtside hcode =>
    obtain ⟨next, K', rfl, -⟩ := hM.stacked
    exact .atWork hrow id (.uncallable houtside hcode) .refl trivial
  | outsideLeft =>
    obtain ⟨next, K', rfl, -⟩ := hM.stacked.call
    cases hcarries
    cases horigin rfl with
    | raised hrow hraises hpasses => exact .raised hrow hraises (.tail hpasses (.hands .left))
    | atWork hrow hfresh hnext hhands hatWork => exact .atWork hrow hfresh hnext (.tail hhands .left) trivial
  | done =>
    cases hcarries
    cases horigin rfl with
    | raised hrow hraises hpasses => exact .raised hrow hraises (.tail hpasses (.hands .done))
    | atWork hrow hfresh hnext hhands hatWork =>
      exact .atWork hrow hfresh hnext (.tail hhands .done) (atWork_of_stacked hM.stacked)
  | @answered m K r next =>
    cases hanswer : next m r with
    | call | needsFile =>
      rw [hanswer] at hcarries
      cases hcarries
    | done m' r' =>
      rw [hanswer] at hcarries
      obtain rfl : r' = .error (.failure kind text) := hcarries
      by_cases hsame : r = .error (.failure kind text)
      · subst hsame
        cases horigin rfl with
        | raised hrow hraises hpasses => exact .raised hrow hraises (.tail hpasses (.hands (.answered hanswer)))
        | atWork hrow hfresh hnext hhands hatWork =>
          exact .atWork hrow hfresh hnext (.tail hhands (.answered hanswer)) trivial
      · exact .atWork hrow hsame (hanswer ▸ .answered) .refl trivial

theorem Later.origin {E : Moment W} (hR : ¬ R.Carries (.failure kind text))
    (hknown : ∀ M, Later env R M → Later env M E → M.Known outermost) (h : Later env R M) (hrest : Later env M E)
    (hcarries : M.Carries (.failure kind text)) : Origin env (.failure kind text) R M := by
  induction h with
  | refl => exact absurd hcarries hR
  | @tail M₁ M₂ hlater hsoon ih =>
    obtain ⟨lines, hrow⟩ := Later.recording hlater
    rcases hsoon with hnext | ⟨m, c, entries, K⟩
    · have hbefore : Later env M₁ E := .head (.inl hnext) hrest
      exact hnext.origin hrow (hknown M₁ hlater hbefore) (ih hbefore) hcarries
    · cases hcarries

/-! ## The lines of a failure -/

theorem HandsOn.adds {e : Error} (h : HandsOn e M M') : M.adds = [] := by
  cases h <;> rfl

theorem carries_of_hands {e : Error} {m : Machine W} {K : List (Waiting W)}
    (h : Relation.ReflTransGen (HandsOn e) M (ended m (.error e) K)) : M.Carries e := by
  rcases Relation.ReflTransGen.cases_head h with rfl | ⟨M₁, hands, -⟩
  · rfl
  · cases hands <;> rfl

/-- An execution does not make up a failure. -/
theorem Next.adds_of_fresh (h : Next env M M') (hfresh : ¬ M.Carries (.failure kind text))
    (hcarries : M'.Carries (.failure kind text)) : M.adds = [] := by
  cases h with
  | left => exact absurd (Machine.leaveExecution_failure.mp hcarries) hfresh
  | _ => rfl

/-- A step that is not the end of an execution notes nothing. -/
theorem Next.trace_of_adds {base : Nat} (h : Next env M M') (hM : M.Heedful base) (hbase : 0 < base) (hadds : M.adds = []) :
    M'.machine.trace = M.machine.trace := by
  rw [h.trace hM hbase, hadds, List.append_nil]

theorem leads_of_hands {e : Error} (h : Relation.ReflTransGen (HandsOn e) M M') : Leads env M M' :=
  Relation.ReflTransGen.mono (fun _ _ => HandsOn.next) M M' h

theorem trace_of_hands {base : Nat} {e : Error} (henv : env.Heedful) (hM : M.Heedful base) (hbase : 0 < base)
    (h : Relation.ReflTransGen (HandsOn e) M M') : M'.machine.trace = M.machine.trace := by
  induction h with
  | refl => rfl
  | tail hbefore hands ih =>
    have hnow := Later.heedful henv (Leads.later (leads_of_hands hbefore)) hM
    have hnext : Next env _ _ := hands.next
    exact (hnext.trace_of_adds hnow hbase hands.adds).trans ih

/-- When an instruction fails, nothing is noted yet. -/
theorem Raises.trace {base : Nat} (h : Raises env (.failure kind text) M M') (henv : env.Heedful) (hM : M.Heedful base)
    (hbase : 0 < base) : M'.machine.trace = M.machine.trace := by
  cases h with
  | instruction hgo hadvance => exact (Next.failed hgo hadvance).trace_of_adds hM hbase rfl
  | @function _ M₁ m offset slot c entries K hfresh hnext hhands =>
    have hfirst : M₁.Heedful base := hnext.heedful henv hM
    have hlast := Later.heedful henv (Leads.later (leads_of_hands hhands)) hfirst
    have hfailed : Next env (ended m (.error (.failure kind text)) (.run offset slot c entries :: K)) _ := .hostFailed
    calc (m.leaveHost.noteFailure offset (.failure kind text)).trace
      _ = m.trace := hfailed.trace_of_adds hlast hbase rfl
      _ = M₁.machine.trace := trace_of_hands henv hfirst hbase hhands
      _ = M.machine.trace := hnext.trace_of_adds hM hbase (hnext.adds_of_fresh hfresh (carries_of_hands hhands))

/-- When an instruction has failed, its line and those of the calls are due. -/
theorem Raises.due {e : Error} {m : Machine W} {K : List (Waiting W)} (h : Raises env e M (ended m (.error e) K))
    (hknown : ∀ M₁, Leads env M M₁ → Leads env M₁ (ended m (.error e) K) → M₁.Known outermost) (calls : Nat) :
    (ended m (.error e) K).due calls = m.traceAbove calls := by
  cases h with
  | instruction hgo hadvance =>
    obtain ⟨base, -, hK⟩ := (hknown _ .refl (.single (.failed hgo hadvance))).stacked
    exact due_above calls hK
  | function hfresh hnext hhands =>
    obtain ⟨before, base, -, -, hK⟩ :=
      (hknown _ (.head hnext (leads_of_hands hhands)) (.single .hostFailed)).stacked.run
    exact due_above calls hK

/-- A failure that nothing waits for any more was raised at some moment, and its line and those of the calls that
waited at that moment are the last ones to be noted. -/
theorem Later.raised {n : Machine W} (henv : env.Heedful) (hR : ¬ R.Carries (.failure kind text))
    (h : Later env R (ended n (.error (.failure kind text)) []))
    (hknown : ∀ M, Later env R M → Later env M (ended n (.error (.failure kind text)) []) → M.Known outermost) :
    ∃ lines M m K, Recording env R lines M ∧ Raises env (.failure kind text) M (ended m (.error (.failure kind text)) K)
      ∧ Passes (.failure kind text) (ended m (.error (.failure kind text)) K) (ended n (.error (.failure kind text)) [])
      ∧ n.trace ++ n.traceAbove outermost.length = R.machine.trace ++ lines ++ m.traceAbove outermost.length := by
  cases Later.origin hR hknown h .refl rfl with
  | atWork hrow hfresh hnext hhands hatWork => cases hatWork
  | @raised lines M F _ hrow hraises hpasses =>
    obtain ⟨m, K, rfl⟩ : ∃ m K, F = ended m (.error (.failure kind text)) K := by
      cases hraises with
      | instruction hgo hadvance => exact ⟨_, _, rfl⟩
      | function hfresh hnext hhands => exact ⟨_, _, rfl⟩
    have hbetween {M₁ : Moment W} (hM₁ : Leads env M M₁) (hrest : Leads env M₁ (ended m (.error (.failure kind text)) K)) :
        M₁.Known outermost :=
      hknown M₁ (.trans hrow.later (Leads.later hM₁)) (Leads.later (.trans hrest hpasses.leads))
    have hafter {M₁ : Moment W} (hM₁ : Leads env (ended m (.error (.failure kind text)) K) M₁)
        (hrest : Leads env M₁ (ended n (.error (.failure kind text)) [])) : M₁.Known outermost :=
      hknown M₁ (.trans hrow.later (Leads.later (.trans hraises.leads hM₁))) (Leads.later hrest)
    have hheedful : R.Heedful 1 := (hknown R .refl h).heedful
    have hnow : M.Heedful 1 := Later.heedful henv hrow.later hheedful
    refine ⟨lines, M, m, K, hrow, hraises, hpasses, ?_⟩
    calc n.trace ++ n.traceAbove outermost.length
      _ = m.trace ++ (ended m (.error (.failure kind text)) K).due outermost.length :=
        (Passes.trace (fun M₁ => hafter) hpasses).symm
      _ = m.trace ++ m.traceAbove outermost.length := by rw [hraises.due fun M₁ => hbetween]
      _ = M.machine.trace ++ m.traceAbove outermost.length := by
        rw [show m.trace = M.machine.trace from hraises.trace henv hnow Nat.one_pos]
      _ = R.machine.trace ++ lines ++ m.traceAbove outermost.length := by
        rw [hrow.trace henv hheedful Nat.one_pos]

/-! ## The run of a request -/

section Starts

variable {l : Machine W} {a : Action W Value} {K : List (Waiting W)}

/-- The run comes later than the request. -/
theorem Starts.leads_run (h : Starts l a R K) (m : Machine W) : Leads env (going (.action m a) []) (R.on K) := by
  cases h with
  | @intro m' start receiver args next c hexecutes hload =>
    obtain ⟨hdepths, hreceiver, -⟩ := hexecutes.same
    exact .tail (hexecutes.leads m []) (hdepths ▸ hreceiver ▸ .enter hload)

theorem Starts.stacked (h : Starts l a R K) : R.Stacked l.sites := by
  cases h with
  | @intro m start receiver args next c hexecutes hload =>
    obtain ⟨program, rfl⟩ := hexecutes.machine
    exact ⟨l.sites, ⟨[], Machine.sites_enterExecution _ receiver args⟩, .outermost⟩

/-- Nothing is noted before the run. -/
theorem Starts.trace (h : Starts l a R K) : R.machine.trace = [] := by
  cases h with
  | @intro m start receiver args next c hexecutes hload =>
    obtain ⟨program, rfl⟩ := hexecutes.machine
    rfl

theorem Starts.not_carries {e : Error} (h : Starts l a R K) : ¬ R.Carries e := by
  cases h with
  | intro hexecutes hload => exact id

/-- The run of a request is over before the request is, and the request notes nothing but the lines of the run's
failure. -/
theorem Starts.of_ended {n : Machine W} {r : Except Error Value} (h : Starts l a R K) (hend : Later env (R.on K) (ended n r [])) :
    ∃ n₁ r₁, Later env R (ended n₁ r₁ []) ∧ Later env (ended n₁ r₁ K) (ended n r [])
      ∧ r = (n₁.leaveExecution l.depths l.receiver r₁).2
      ∧ n.trace = (n₁.leaveExecution l.depths l.receiver r₁).1.trace := by
  have hwaits : ∃ w K', K = w :: K' := by
    cases h with
    | intro hexecutes hload => exact ⟨_, _, rfl⟩
  rcases Later.of_on hend with ⟨M₁, -, heq⟩ | ⟨n₁, r₁, hover, hafter⟩
  · obtain ⟨w, K', rfl⟩ := hwaits
    cases M₁ <;> simp [on] at heq
  · refine ⟨n₁, r₁, hover, hafter, ?_⟩
    rcases h.after hafter with heq | ⟨next, hclosing, hnext⟩
    · obtain ⟨w, K', rfl⟩ := hwaits
      cases heq
    · rcases Later.closing hnext hclosing with heq | heq | ⟨p, heq⟩
      · cases heq
      · cases heq
      · cases heq
        exact ⟨rfl, Machine.trace_concluded _ _⟩

end Starts

end Moment

/-! ## Requests on machines of a session -/

namespace Machine

variable {W : Type} {env : Embedding W} {l n : Machine W} {q : Request} {R : Moment W} {K : List (Waiting W)}
  {r : Except Error Value}

/-- All that is known of moments is known of those of a run that a request started. -/
theorem Request.known (henv : env.Steady) (hheedful : env.Heedful) (hmade : q.MadeOn env l) (hdepth : l.depth = 0)
    (hstarts : Moment.Starts l (q.action env l) R K) {M E : Moment W} (hM : Moment.Later env R M)
    (hend : Moment.Later env (M.on K) E) (hsourced : E.machine.program.Sourced)
    (hsmall : E.machine.program.size ≤ UInt64.size) : M.Known l.sites := by
  obtain ⟨m₀, k, K₀, hoccurs⟩ := hmade
  obtain ⟨K', hleads⟩ := hstarts.leads (m := m₀) k K₀
  have hinside (M₁ : Moment W) (h : Moment.Later env R M₁) : (M₁.on K').Occurs env :=
    hoccurs.later (.trans (Moment.Leads.later hleads) (Moment.Later.on h K'))
  have hstart : (q.start env l).Tidy := ⟨q.tidy l, fun w hw => absurd hw List.not_mem_nil⟩
  have hrow : Moment.Later env (q.start env l) (M.on K) :=
    .trans (Moment.Leads.later (hstarts.leads_run l)) (Moment.Later.on hM K)
  obtain ⟨hgrows, -⟩ := Moment.Later.grows henv hend (Moment.Later.grows henv hrow hstart).2
  rw [Moment.machine_on] at hgrows
  have hcode : M.machine.program.Sourced := hsourced.of_partOf hgrows.partOf
  have hroom : M.machine.program.size ≤ UInt64.size := Nat.le_trans hgrows.size_le hsmall
  rw [← Moment.machine_on M K'] at hcode hroom
  exact {
    heedful := Moment.Later.heedful hheedful hM (hstarts.first hdepth).1
    stacked := Moment.Later.stacked henv hM (Moment.tidy_of_on ((hinside R .refl).grows henv).2) hstarts.stacked
    tidy := Moment.tidy_of_on ((hinside M hM).grows henv).2
    loads := Moment.loads_of_on ((hinside M hM).loads henv hcode hroom)
    covered := Moment.covered_of_on ((hinside M hM).covered henv hcode hroom) }

/-- The trace of a run that ends with a value is what executions in it noted that failed; and the trace of a run
that fails ends with the line of the instruction that raised the failure and those of the calls that waited at that
moment, innermost first, through all executions that the failure was passed on by. In front stand the lines that had
been noted before that instruction, and nothing else: those of executions whose failure went no further. -/
theorem trace_of_request (henv : env.Steady) (hheedful : env.Heedful) (hmade : q.MadeOn env l) (hdepth : l.depth = 0)
    (hstarts : Moment.Starts l (q.action env l) R K) (hend : Moment.Later env (R.on K) (.ended n r []))
    (hsourced : n.program.Sourced) (hsmall : n.program.size ≤ UInt64.size) :
    (∀ v, r = .ok v → ∃ m₁ r₁, Moment.Recording env R n.trace (.ended m₁ r₁ [])
        ∧ Moment.Later env (.ended m₁ r₁ K) (.ended n r []))
      ∧ ∀ e, r = .error e → ∃ lines M m K₁ m₁, Moment.Recording env R lines M
        ∧ Moment.Raises env e M (.ended m r K₁) ∧ Moment.Passes e (.ended m r K₁) (.ended m₁ r [])
        ∧ Moment.Later env (.ended m₁ r K) (.ended n r []) ∧ n.trace = lines ++ m.traceAbove l.frames.size := by
  obtain ⟨n₁, r₁, hover, hafter, hresult, htrace⟩ := hstarts.of_ended hend
  have hknown (M : Moment W) (hM : Moment.Later env R M) (hrest : Moment.Later env M (.ended n₁ r₁ [])) :
      M.Known l.sites :=
    Request.known henv hheedful hmade hdepth hstarts hM (.trans (Moment.Later.on hrest K) hafter) hsourced hsmall
  rw [trace_leaveExecution] at htrace
  have hcalls : l.sites.length = l.depths.calls := length_sites l
  refine ⟨fun v hv => ?_, fun e he => ?_⟩
  · subst hv
    obtain ⟨lines, hlines⟩ := Moment.Later.recording hover
    have hnoted : n₁.trace = lines := by
      refine (hlines.trace hheedful (hstarts.first hdepth).1 Nat.one_pos).trans ?_
      rw [hstarts.trace, List.nil_append]
    have hkept : n.trace = n₁.trace := by
      rw [htrace]
      cases r₁ with
      | ok v' => exact List.append_nil _
      | error e =>
        cases e with
        | failure kind text => cases hresult
        | exit => exact List.append_nil _
    rw [hkept, hnoted]
    exact ⟨n₁, r₁, hlines, hafter⟩
  · subst he
    cases e with
    | exit =>
      have hn : n₁.depth = 1 := (Moment.Later.heedful hheedful hover (hstarts.first hdepth).1).counted
      obtain rfl := leaveExecution_exit_only hresult.symm
      rw [leaveExecution_exit_outermost l.depths l.receiver (by omega)] at hresult
      cases hresult
    | failure kind text =>
      obtain rfl := leaveExecution_failure.mp hresult.symm
      obtain ⟨lines, M, m, K₁, hrow, hraises, hpasses, hlines⟩ :=
        Moment.Later.raised hheedful hstarts.not_carries hover hknown
      refine ⟨lines, M, m, K₁, n₁, hrow, hraises, hpasses, hafter, ?_⟩
      rw [hstarts.trace, List.nil_append, hcalls] at hlines
      exact htrace.trans hlines

/-! ## A failure after another one -/

/-- The function that calls another one heeds the notes. -/
theorem guarding_heedful : guarding.Heedful where
  natives f hf m receiver args := by
    obtain rfl : f = attempt := by simpa [guarding] using hf
    exact ⟨.refl m, fun n r _ => .refl n⟩
  host host hhost := by cases hhost

/-- A script that survives the failure of a nested execution, and not the next failure. -/
def undeclared : String := "attempt(function() { x; });\nx"

/-- A request to run it. -/
def undeclaredRun : Request :=
  .exec "t.js" undeclared

/-- Both failures are in the trace in the end, and all code is that of the script. -/
def notesBoth (l : Machine Unit) : Bool :=
  l.depth == 0
    && ((Code.compile "t.js" undeclared 1).toOption.any fun unit =>
      (Moment.after? guarding 2 (undeclaredRun.start guarding l)).any fun M =>
        decide (0 < M.machine.depth) && hasOnly unit M.machine
          && (Moment.after? guarding 24 M).any fun
            | .ended n (.error _) [] => hasOnly unit n && decide (n.trace = [⟨"t.js", 1⟩, ⟨"t.js", 2⟩])
            | _ => false)

theorem trace_of_request_undeclared : ∃ (l n m : Machine Unit) (R M : Moment Unit) (K K₁ : List (Waiting Unit)) (e : Error)
    (lines : List TraceEntry), undeclaredRun.MadeOn guarding l ∧ l.depth = 0
      ∧ Moment.Starts l (undeclaredRun.action guarding l) R K ∧ Moment.Later guarding (R.on K) (.ended n (.error e) [])
      ∧ Moment.Recording guarding R lines M ∧ Moment.Raises guarding e M (.ended m (.error e) K₁)
      ∧ n.trace = lines ++ m.traceAbove l.frames.size ∧ n.trace = [⟨"t.js", 1⟩, ⟨"t.js", 2⟩] := by
  have hcheck : (furnished? guarding).any notesBoth = true := by decide +kernel
  obtain ⟨l, hl, hnotes⟩ := (Option.any_eq_true _ _).mp hcheck
  simp only [notesBoth, Bool.and_eq_true, beq_iff_eq, Option.any_eq_true, decide_eq_true_eq] at hnotes
  obtain ⟨hdepth, unit, hunit, M₀, hM₀, ⟨hwithin, hfirst⟩, E, hE, hends⟩ := hnotes
  have hmade : undeclaredRun.MadeOn guarding l := Request.madeOn_furnished hl "t.js" undeclared
  obtain ⟨hcode, hroom⟩ := sourced_of_hasOnly hunit hfirst
  obtain ⟨R, K, M₁, hstarts, hrun, rfl, -⟩ := Request.exists_run guarding_steady guarding_heedful hmade hdepth id
    (Moment.Leads.later (Moment.leads_of_after hM₀)) hwithin hcode hroom
  have hend : Moment.Later guarding (R.on K) E :=
    .trans (Moment.Later.on hrun K) (Moment.Leads.later (Moment.leads_of_after hE))
  split at hends
  · rename_i n e
    simp only [Bool.and_eq_true, decide_eq_true_eq] at hends
    obtain ⟨honly, htrace⟩ := hends
    obtain ⟨hsourced, hsmall⟩ := sourced_of_hasOnly hunit honly
    obtain ⟨lines, M, m, K₁, m₁, hrow, hraises, -, -, hlines⟩ :=
      (trace_of_request guarding_steady guarding_heedful hmade hdepth hstarts hend hsourced hsmall).2 e rfl
    exact ⟨l, n, m, R, M, K, K₁, e, lines, hmade, hdepth, hstarts, hend, hrow, hraises, hlines, htrace⟩
  · cases hends

end Machine

end ScriptEngine
