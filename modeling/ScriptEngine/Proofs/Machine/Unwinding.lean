import ScriptEngine.Proofs.Machine.Discipline
import ScriptEngine.Proofs.Machine.Steady
/-!
Unwinding.

Over a program whose units have charts, whatever an execution, a call or an action does, and however it
ends, the stacks are as they were before, but for collections (`RunsKeep`). The induction is on the budget,
with one lemma for each kind of run; that code only grows (`RunsGrow`) comes first, since what is known about
offsets is known about the program at the end.
-/

namespace ScriptEngine

open Code (Charts Level Program)

namespace Machine

variable {W : Type} {env : Embedding W} {m m' n : Machine W}

/-! ## Code grows -/

/-- The code grows along runs that take `budget` at most. -/
structure RunsGrow (env : Embedding W) (budget : Nat) : Prop where
  run : ∀ {m n : Machine W} {c : Cursor} {result : Except Error Value},
    Machine.run env m c budget = .done n result → m.program.Grows n.program
  execute : ∀ {m n : Machine W} {start : Nat} {receiver : Value} {args : List Value} {result : Except Error Value},
    Machine.execute env m start receiver args budget = .done n result → m.program.Grows n.program
  callValue : ∀ {m n : Machine W} {callee receiver : Value} {args : List Value} {result : Except Error Value},
    Machine.callValue env m callee receiver args budget = .done n result → m.program.Grows n.program
  perform : ∀ {m n : Machine W} {a : Action W Value} {result : Except Error Value}, a.Tidy m →
    Machine.perform env a budget = .done n result → m.program.Grows n.program

/-- A step leaves the code as it is. -/
theorem program_step (env : Embedding W) (c : Cursor) (m : Machine W) :
    (leftBy (advance env c m.collectIfNeeded)).program = m.program :=
  ((quiet_advance env c _).1).trans (program_collectIfNeeded m)

theorem RunsGrow.callCallee {budget : Nat} (ih : RunsGrow env budget) {callee : Callee} {receiver : Value}
    {args : List Value} {result : Except Error Value}
    (h : Machine.callCallee env m callee receiver args budget = .done n result) : m.program.Grows n.program := by
  cases callee with
  | code start => exact ih.execute h
  | value v => exact ih.callValue h

theorem RunsGrow.run_succ (henv : env.Steady) {budget : Nat} (ih : RunsGrow env budget) {c : Cursor}
    {result : Except Error Value} (h : Machine.run env m c (budget + 1) = .done n result) :
    m.program.Grows n.program := by
  have hprogram := program_step env c m
  rw [Machine.run_succ] at h
  split at h
  · cases h
    exact .refl _
  · cases hadvance : advance env c m.collectIfNeeded with
    | error e m₁ =>
      rw [hadvance] at h hprogram
      cases h
      rw [program_noteFailure, ← hprogram]
      exact .refl _
    | ok step m₁ =>
      rw [hadvance] at h hprogram
      rw [← hprogram]
      cases step with
      | finish v =>
        cases h
        exact .refl _
      | goOn next => exact ih.run h
      | host callee receiver args slot next =>
        obtain ⟨m₂, r, hperform, hresume⟩ := Outcome.andThen_eq_done h
        refine (ih.perform (tidy_callHost henv m₁ callee receiver args) hperform).trans ?_
        cases r with
        | error e =>
          cases hresume
          rw [program_noteFailure, program_leaveHost]
          exact .refl _
        | ok v =>
          have hrun := ih.run hresume
          rwa [show (m₂.leaveHost.putResult slot v).program = m₂.program from program_leaveHost m₂] at hrun

theorem RunsGrow.execute_succ {budget : Nat} (ih : RunsGrow env budget) {start : Nat} {receiver : Value}
    {args : List Value} {result : Except Error Value}
    (h : Machine.execute env m start receiver args (budget + 1) = .done n result) : m.program.Grows n.program := by
  rw [Machine.execute_succ] at h
  split at h
  · cases h
    rw [program_leaveExecution]
    exact .refl _
  · obtain ⟨l, r, hrun, hend⟩ := Outcome.andThen_eq_done h
    cases hend
    rw [program_leaveExecution]
    have hgrows := ih.run hrun
    exact hgrows

theorem RunsGrow.hostCall (henv : env.Steady) {budget : Nat} (ih : RunsGrow env budget) {callee receiver : Value}
    {args : List Value} {result : Except Error Value}
    (h : Machine.hostCall env m callee receiver args budget = .done n result) : m.program.Grows n.program := by
  obtain ⟨l, r, hperform, hend⟩ := Outcome.andThen_eq_done h
  cases hend
  have hgrows := ih.perform (tidy_callHost henv (m.enterHostCall callee receiver args) callee receiver args) hperform
  exact hgrows

theorem RunsGrow.callValue_succ (henv : env.Steady) {budget : Nat} (ih : RunsGrow env budget)
    {callee receiver : Value} {args : List Value} {result : Except Error Value}
    (h : Machine.callValue env m callee receiver args (budget + 1) = .done n result) : m.program.Grows n.program := by
  rw [Machine.callValue_succ] at h
  split at h
  · exact ih.execute h
  · exact ih.hostCall henv h
  · exact ih.hostCall henv h
  · cases h
    exact .refl _

theorem RunsGrow.perform_succ {budget : Nat} (ih : RunsGrow env budget) {a : Action W Value} (ha : a.Tidy m)
    {result : Except Error Value} (h : Machine.perform env a (budget + 1) = .done n result) :
    m.program.Grows n.program := by
  cases a with
  | done m₁ r =>
    cases h
    exact ha.grows
  | needsFile path => cases h
  | call m₁ callee receiver args next =>
    obtain ⟨honward, -, hnext⟩ := ha
    rw [perform_call] at h
    obtain ⟨m₂, r, hcall, hrest⟩ := Outcome.andThen_eq_done h
    have hgrows := ih.callCallee hcall
    exact honward.grows.trans (hgrows.trans (ih.perform (hnext m₂ r hgrows) hrest))

theorem runsGrow (henv : env.Steady) (budget : Nat) : RunsGrow env budget := by
  induction budget with
  | zero =>
    exact ⟨(fun h => by cases h), (fun h => by cases h), (fun h => by cases h), fun _ h => by cases h⟩
  | succ budget ih =>
    exact ⟨ih.run_succ henv, ih.execute_succ, ih.callValue_succ henv, fun ha h => ih.perform_succ ha h⟩

/-- Nor is code taken back by what follows a function outside of the code. -/
theorem grows_resume (henv : env.Steady) {budget offset slot : Nat} {next : Cursor} {r result : Except Error Value}
    (h : Machine.resume env offset slot next budget m r = .done n result) : m.program.Grows n.program := by
  cases r with
  | error e =>
    cases h
    rw [program_noteFailure, program_leaveHost]
    exact .refl _
  | ok v =>
    have hrun := (runsGrow henv budget).run h
    rwa [show (m.leaveHost.putResult slot v).program = m.program from program_leaveHost m] at hrun

/-! ## Starts and ends -/

section Ends

variable {S : Nat → Prop} {d : Depths} {T : Charts} {P : Program} {start E : Skeleton} {outer : List Skeleton}
  {L : Level} {c : Cursor}

theorem Running.of_skeleton (h : Running T P start m c E outer L) (hskeleton : m'.skeleton = m.skeleton) :
    Running T P start m' c E outer L :=
  ⟨h.chain, h.place, h.inside, hskeleton.trans h.skeleton⟩

/-- What an execution starts with goes on top of what was there. -/
theorem untouched_enterExecution (m : Machine W) (receiver : Value) (args : List Value) :
    Untouched m.depths m (m.enterExecution receiver args) := by
  refine ⟨⟨?_, ?_, Nat.le_refl _, Nat.le_refl _, Nat.le_refl _⟩, ?_, take_push_of_le _ _ (Nat.le_refl _), rfl, rfl, rfl⟩
  · show m.stack.size ≤ (m.stack.push .undefined ++ args.toArray).size
    simp
  · show m.frames.size ≤ (m.frames.push _).size
    simp
  · show (m.stack.push .undefined ++ args.toArray).take m.stack.size = m.stack.take m.stack.size
    apply Array.ext'
    simp

/-- An execution starts as a call that nothing called. -/
theorem running_enterExecution (m : Machine W) (receiver : Value) (args : List Value) (hc : c.At T P .entry) :
    Running T P m.skeleton (m.enterExecution receiver args) c (m.enterExecution receiver args).skeleton [] .entry := by
  refine ⟨.outermost ⟨m.stack.size, rfl, ?_, ?_, rfl, rfl, rfl⟩, hc, (fun r hr => absurd hr List.not_mem_nil), rfl⟩
  · show m.stack.size < (m.stack.push .undefined ++ args.toArray).size
    rw [Array.size_append, Array.size_push]
    omega
  · simp [enterExecution, pushFrame, skeleton, Frame.bare]

theorem Spared.restore (h : Spared d m n) (receiver : Value) :
    Spared d m (n.restore d receiver) ∧ (n.restore d receiver).depths = d := by
  obtain ⟨f, hf, hn⟩ := h
  obtain ⟨hdata, hcalls, hargs, hscopes, hloops⟩ := hn.room
  have hdepths : (n.restore d receiver).depths = d := by
    simp only [depths] at hdata hcalls hargs hscopes hloops
    simp only [Machine.restore, cutBack, depths, Array.size_shrink]
    congr 1 <;> omega
  refine ⟨⟨f, hf, by rw [hdepths]; exact .refl d, ?_, ?_, ?_, ?_, ?_⟩, hdepths⟩
  · exact (take_shrink_of_le _ (Nat.le_refl _)).trans hn.stack
  · exact (take_shrink_of_le _ (Nat.le_refl _)).trans hn.frames
  · exact (take_shrink_of_le _ (Nat.le_refl _)).trans hn.pending
  · exact (take_shrink_of_le _ (Nat.le_refl _)).trans hn.scopes
  · exact (take_shrink_of_le _ (Nat.le_refl _)).trans hn.loops

/-- However an execution ends, the stacks are cut back. -/
theorem leaveExecution_eq (n : Machine W) (d : Depths) (receiver : Value) (result : Except Error Value) :
    ∃ (trace : List TraceEntry) (interrupted : Bool),
      (n.leaveExecution d receiver result).1
        = { n.restore d receiver with depth := n.depth - 1, trace := trace, interrupted := interrupted }
      ∧ ((n.leaveExecution d receiver result).2 = result ∨ (n.leaveExecution d receiver result).2 = .ok .undefined) := by
  unfold leaveExecution
  dsimp only
  split
  · exact ⟨n.trace, n.interrupted, rfl, .inl rfl⟩
  · split
    · exact ⟨n.trace, false, rfl, .inr rfl⟩
    · exact ⟨n.trace, n.interrupted, rfl, .inl rfl⟩
  · exact ⟨_, n.interrupted, rfl, .inl rfl⟩

theorem Spared.leaveExecution (h : Spared m.depths m n) (receiver : Value) (result : Except Error Value) :
    m.Kept (n.leaveExecution m.depths receiver result).1 := by
  obtain ⟨trace, interrupted, hend, -⟩ := leaveExecution_eq n m.depths receiver result
  obtain ⟨hspared, hdepths⟩ := h.restore receiver
  have hrestored : m.Kept (n.restore m.depths receiver) := ⟨hspared, hdepths⟩
  rw [hend]
  exact hrestored.trans (SameStacks.kept ⟨rfl, rfl, rfl, rfl, rfl⟩)

/-- A call of a function outside of the code leaves what was there. -/
theorem Kept.leaveHostCall {callee receiver : Value} {args : List Value}
    (h : (m.enterHostCall callee receiver args).Kept n) (before : Value) :
    m.Kept (n.leaveHostCall m.stack.size before) := by
  have hle : m.depths.Le (m.enterHostCall callee receiver args).depths := by
    refine ⟨?_, Nat.le_refl _, Nat.le_refl _, Nat.le_refl _, Nat.le_refl _⟩
    show m.stack.size ≤ (m.stack.push callee ++ args.toArray).size
    rw [Array.size_append, Array.size_push]
    omega
  have henter : Untouched m.depths m (m.enterHostCall callee receiver args) := by
    refine ⟨hle, ?_, rfl, rfl, rfl, rfl⟩
    show (m.stack.push callee ++ args.toArray).take m.stack.size = m.stack.take m.stack.size
    apply Array.ext'
    simp
  have hspared := henter.spared.trans (h.spared.mono hle)
  have hleave : Untouched m.depths n (n.leaveHostCall m.stack.size before) := by
    refine ⟨⟨?_, hspared.room.calls, hspared.room.args, hspared.room.scopes, hspared.room.loops⟩,
      take_take_of_le _ (Nat.le_refl _), rfl, rfl, rfl, rfl⟩
    show m.stack.size ≤ (n.stack.take m.stack.size).size
    have hdata : m.stack.size ≤ n.stack.size := hspared.room.data
    simp
    omega
  refine ⟨hspared.trans hleave.spared, ?_⟩
  have hdata : m.stack.size ≤ n.stack.size := hspared.room.data
  have hsizes := h.depths
  simp only [Machine.depths, Machine.enterHostCall, Depths.mk.injEq] at hsizes
  obtain ⟨-, hcalls, hargs, hscopes, hloops⟩ := hsizes
  simp only [Machine.depths, Machine.leaveHostCall, hcalls, hargs, hscopes, hloops, Depths.mk.injEq, and_true]
  simp
  omega

theorem Within.enterExecution (h : m.Within S) {receiver : Value} {args : List Value} (hreceiver : receiver.Within S)
    (hargs : Values.Within S args) : (m.enterExecution receiver args).Within S := by
  refine h.change (g := fun n => n.enterExecution receiver args) (fun r hr => ?_) ⟨rfl, rfl, rfl⟩
  have hmove := enterExecution_machine (M := Move.renaming m r) m receiver args
  rwa [show (Move.renaming m r).value receiver = receiver from hreceiver r hr,
    show args.map (Move.renaming m r).value = args from hargs.map_eq hr] at hmove

theorem Within.enterHostCall (h : m.Within S) {callee receiver : Value} {args : List Value} (hcallee : callee.Within S)
    (hreceiver : receiver.Within S) (hargs : Values.Within S args) : (m.enterHostCall callee receiver args).Within S := by
  refine h.change (g := fun n => n.enterHostCall callee receiver args) (fun r hr => ?_) ⟨rfl, rfl, rfl⟩
  have hmove := enterHostCall_machine (M := Move.renaming m r) m callee receiver args
  rwa [show (Move.renaming m r).value receiver = receiver from hreceiver r hr,
    show (Move.renaming m r).value callee = callee from hcallee r hr,
    show args.map (Move.renaming m r).value = args from hargs.map_eq hr] at hmove

theorem Within.leaveHostCall (h : m.Within S) (size : Nat) {receiver : Value} (hreceiver : receiver.Within S) :
    (m.leaveHostCall size receiver).Within S := by
  refine h.change (g := fun n => n.leaveHostCall size receiver) (fun r hr => ?_) ⟨rfl, rfl, rfl⟩
  have hmove := leaveHostCall_machine (M := Move.renaming m r) m size receiver
  rwa [show (Move.renaming m r).value receiver = receiver from hreceiver r hr] at hmove

theorem Within.leaveExecution (h : m.Within S) (d : Depths) {receiver : Value} (hreceiver : receiver.Within S)
    (result : Except Error Value) : (m.leaveExecution d receiver result).1.Within S := by
  obtain ⟨trace, interrupted, hend, -⟩ := leaveExecution_eq m d receiver result
  rw [hend]
  refine h.change (g := fun n => { n.restore d receiver with
    depth := m.depth - 1, trace := trace, interrupted := interrupted }) (fun r hr => ?_) ⟨rfl, rfl, rfl⟩
  have hmove := restore_machine (M := Move.renaming m r) m d receiver
  rw [show (Move.renaming m r).value receiver = receiver from hreceiver r hr] at hmove
  rw [hmove]
  rfl

theorem Within.leaveHost (h : m.Within S) : m.leaveHost.Within S := by
  refine h.change (g := fun n => n.leaveHost) (fun r _ => leaveHost_machine (M := Move.renaming m r) m) ?_
  unfold Machine.leaveHost
  split <;> exact ⟨rfl, rfl, rfl⟩

theorem Within.putResult (h : m.Within S) (slot : Nat) {v : Value} (hv : v.Within S) : (m.putResult slot v).Within S := by
  refine h.change (g := fun n => n.putResult slot v) (fun r hr => ?_) ⟨rfl, rfl, rfl⟩
  have hmove := putResult_machine (M := Move.renaming m r) m slot v
  rwa [show (Move.renaming m r).value v = v from hv r hr] at hmove

theorem Within.noteFailure (h : m.Within S) (offset : Nat) (e : Error) : (m.noteFailure offset e).Within S := by
  cases e with
  | exit => exact h
  | failure kind message =>
    exact h.change (g := fun n => { n with failedAt := offset }) (fun _ _ => rfl) ⟨rfl, rfl, rfl⟩

theorem Within.collectIfNeeded (h : m.Within S) : m.collectIfNeeded.Within S := by
  refine h.change (g := fun n => n.collectIfNeeded) (fun r _ => Move.collectIfNeeded_machine _ m) ?_
  unfold Machine.collectIfNeeded
  split
  · exact collect_quiet m false
  · exact ⟨rfl, rfl, rfl⟩

end Ends

/-! ## Runs keep the stacks -/

section Keep

variable {T : Charts} {P : Program} {start E : Skeleton} {outer : List Skeleton} {L : Level} {c : Cursor}

/-- A run ended: below what its execution started with nothing happened but collections, and all functions
are functions of the code. -/
structure RunEnds (T : Charts) (P : Program) (d : Depths) (m n : Machine W) (result : Except Error Value) : Prop where
  spared : Spared d m n
  within : n.Within (T.Entry P)
  result : Result.Within (T.Entry P) result

/-- A call ended: nothing happened to the stacks but collections, and all functions are functions of the
code. -/
structure CallEnds (T : Charts) (P : Program) (m n : Machine W) (result : Except Error Value) : Prop where
  kept : m.Kept n
  within : n.Within (T.Entry P)
  result : Result.Within (T.Entry P) result

/-- The start of a unit or of a function. -/
def Startable (T : Charts) (P : Program) (start : Nat) : Prop :=
  T.Entry P start ∨ ∃ unit, P.Has start unit

/-- What holds of runs that take `budget` at most and end with code that is part of a program. -/
structure RunsKeep (env : Embedding W) (T : Charts) (P : Program) (budget : Nat) : Prop where
  run : ∀ {m n : Machine W} {c : Cursor} {start E : Skeleton} {outer : List Skeleton} {L : Level}
    {result : Except Error Value}, m.Within (T.Entry P) → Running T P start m c E outer L →
    Machine.run env m c budget = .done n result → n.program.PartOf P → RunEnds T P start.depths m n result
  execute : ∀ {m n : Machine W} {start : Nat} {receiver : Value} {args : List Value} {result : Except Error Value},
    m.Within (T.Entry P) → Startable T P start → receiver.Within (T.Entry P) → Values.Within (T.Entry P) args →
    Machine.execute env m start receiver args budget = .done n result → n.program.PartOf P → CallEnds T P m n result
  callValue : ∀ {m n : Machine W} {callee receiver : Value} {args : List Value} {result : Except Error Value},
    m.Within (T.Entry P) → callee.Within (T.Entry P) → receiver.Within (T.Entry P) → Values.Within (T.Entry P) args →
    Machine.callValue env m callee receiver args budget = .done n result → n.program.PartOf P →
    CallEnds T P m n result
  perform : ∀ {m n : Machine W} {a : Action W Value} {result : Except Error Value}, a.Tidy m →
    a.Honest (T.Entry P) (Value.Within (T.Entry P)) → Machine.perform env a budget = .done n result →
    n.program.PartOf P → CallEnds T P m n result

/-- A step of a run, after the collection that may come first. -/
theorem Running.step (h : Running T P start m c E outer L) (hcharts : T.Describe P) (hprogram : m.program.PartOf P)
    (hwithin : m.Within (T.Entry P)) (env : Embedding W) :
    Spared start.depths m m.collectIfNeeded
      ∧ (∃ least, Comes T P start m.collectIfNeeded E outer least (Machine.advance env c m.collectIfNeeded)
        ∧ (least = E.values ∨ AtReturn c))
      ∧ (leftBy (Machine.advance env c m.collectIfNeeded)).Within (T.Entry P)
      ∧ ∀ step m', Machine.advance env c m.collectIfNeeded = .ok step m' → StepWithin (T.Entry P) step := by
  obtain ⟨hspared, hskeleton⟩ := collectIfNeeded_spares m h.room
  have hcollected := h.of_skeleton hskeleton
  have hsame : m.collectIfNeeded.program.PartOf P := by rwa [program_collectIfNeeded]
  exact ⟨hspared, hcollected.advance hcharts hsame hwithin.collectIfNeeded env,
    hcollected.within hcharts hsame hwithin.collectIfNeeded env⟩

theorem Kept.skeleton (h : m.Kept n) : n.skeleton = m.skeleton := by
  obtain ⟨⟨f, -, hn⟩, hdepths⟩ := h
  simp only [Machine.depths, Depths.mk.injEq] at hdepths
  obtain ⟨hdata, hcalls, hargs, hscopes, hloops⟩ := hdepths
  have hall {ι : Type} {xs : Array ι} {k : Nat} (hk : xs.size = k) : xs.take k = xs := by
    rw [← hk]
    apply Array.ext'
    simp
  have hframes : n.frames = m.frames.map fun frame => { frame with receiver := f frame.receiver } := by
    have htake : n.frames.take m.frames.size
        = (m.frames.take m.frames.size).map fun frame => { frame with receiver := f frame.receiver } := hn.frames
    rwa [hall hcalls, hall rfl] at htake
  have hpending : n.pending = m.pending.map fun call => { call with receiver := f call.receiver } := by
    have htake : n.pending.take m.pending.size
        = (m.pending.take m.pending.size).map fun call => { call with receiver := f call.receiver } := hn.pending
    rwa [hall hargs, hall rfl] at htake
  have hround : n.loops = m.loops := by
    have htake : n.loops.take m.loops.size = m.loops.take m.loops.size := hn.loops
    rwa [hall hloops, hall rfl] at htake
  simp [Machine.skeleton, hdata, hframes, hpending, hscopes, hround, Function.comp_def, Frame.bare]

theorem RunEnds.of_spared {d : Depths} {result : Except Error Value} (h : Spared d m m')
    (hends : RunEnds T P d m' n result) : RunEnds T P d m n result :=
  ⟨h.trans hends.spared, hends.within, hends.result⟩

section Steps

variable {budget : Nat} (ih : RunsKeep env T P budget) (henv : env.Steady) (hcharts : T.Describe P)

include ih

/-- How a run goes on when a function outside of the code is done, on a machine with the stacks as they were
when it was called. -/
theorem RunsKeep.resume {offset slot : Nat} {next : Cursor} {r : Except Error Value}
    {result : Except Error Value} (hleave : Untouched start.depths m m.leaveHost)
    (hput : ∀ v, Untouched start.depths m (m.leaveHost.putResult slot v)
      ∧ ∃ L', Running T P start (m.leaveHost.putResult slot v) next E outer L')
    (hwithin : m.Within (T.Entry P)) (hr : Result.Within (T.Entry P) r)
    (h : Machine.resume env offset slot next budget m r = .done n result) (hpart : n.program.PartOf P) :
    RunEnds T P start.depths m n result := by
  cases r with
  | error e =>
    cases h
    have hnote : m.leaveHost.SameStacks (m.leaveHost.noteFailure offset e) := by
      cases e <;> exact ⟨rfl, rfl, rfl, rfl, rfl⟩
    exact ⟨(hleave.trans (hnote.untouched hleave.room)).spared, hwithin.leaveHost.noteFailure offset e,
      Result.within_error e⟩
  | ok v =>
    obtain ⟨hsame, L', hrunning⟩ := hput v
    exact .of_spared hsame.spared (ih.run (hwithin.leaveHost.putResult slot (hr v rfl)) hrunning h hpart)

include henv hcharts

theorem RunsKeep.run_succ {result : Except Error Value} (hwithin : m.Within (T.Entry P))
    (hrunning : Running T P start m c E outer L) (h : Machine.run env m c (budget + 1) = .done n result)
    (hpart : n.program.PartOf P) : RunEnds T P start.depths m n result := by
  have hprogram : m.program.PartOf P := ((runsGrow henv (budget + 1)).run h).partOf.trans hpart
  have hsame := program_step env c m
  obtain ⟨hspared, ⟨least, hcomes, -⟩, hleft, hstep⟩ := hrunning.step hcharts hprogram hwithin env
  rw [Machine.run_succ] at h
  split at h
  · cases h
    exact ⟨.refl hrunning.room, hwithin, Result.within_error _⟩
  · refine .of_spared hspared ?_
    cases hadvance : advance env c m.collectIfNeeded with
    | error e m₁ =>
      rw [hadvance] at h hcomes hleft
      have hconfined : Confined start.depths least m.collectIfNeeded m₁ := hcomes
      have hnote : m₁.SameStacks (m₁.noteFailure c.offset e) := by
        cases e <;> exact ⟨rfl, rfl, rfl, rfl, rfl⟩
      cases h
      exact ⟨(hconfined.toUntouched.trans (hnote.untouched hconfined.room)).spared, hleft.noteFailure c.offset e,
        Result.within_error e⟩
    | ok step m₁ =>
      rw [hadvance] at h hcomes hleft hsame
      have hstep' := hstep step m₁ hadvance
      cases step with
      | finish v =>
        have hconfined : Confined start.depths least m.collectIfNeeded m₁ := hcomes
        cases h
        exact ⟨hconfined.toUntouched.spared, hleft, Result.within_ok hstep'⟩
      | goOn next =>
        obtain ⟨hconfined, E', outer', L', hnext, -⟩ := hcomes
        exact .of_spared hconfined.toUntouched.spared (ih.run hleft hnext h hpart)
      | host callee receiver args slot next =>
        obtain ⟨hconfined, -, hback⟩ := hcomes
        obtain ⟨-, hreceiver, hargs⟩ := hstep'
        obtain ⟨m₂, r, hperform, hresume⟩ := Outcome.andThen_eq_done h
        have hcall := ih.perform (tidy_callHost henv m₁ callee receiver args)
          (honest_callHost henv hleft hreceiver hargs) hperform ((grows_resume henv hresume).partOf.trans hpart)
        obtain ⟨hleave, hput⟩ := hback m₂ hcall.kept.skeleton
        have hends := ih.resume hleave hput hcall.within hcall.result hresume hpart
        exact .of_spared hconfined.toUntouched.spared (.of_spared (hcall.kept.spared.mono hconfined.room) hends)

theorem RunsKeep.execute_succ {entry : Nat} {receiver : Value} {args : List Value} {result : Except Error Value}
    (hwithin : m.Within (T.Entry P)) (hentry : Startable T P entry) (hreceiver : receiver.Within (T.Entry P))
    (hargs : Values.Within (T.Entry P) args)
    (h : Machine.execute env m entry receiver args (budget + 1) = .done n result) (hpart : n.program.PartOf P) :
    CallEnds T P m n result := by
  have hprogram : m.program.PartOf P := ((runsGrow henv (budget + 1)).execute h).partOf.trans hpart
  have henter := hwithin.enterExecution hreceiver hargs
  have hsame := untouched_enterExecution m receiver args
  have hend {l : Machine W} {r : Except Error Value} (hl : Spared m.depths m l) (hlwithin : l.Within (T.Entry P))
      (hr : Result.Within (T.Entry P) r) (hdone : endExecution m.depths m.receiver l r = .done n result) :
      CallEnds T P m n result := by
    cases hdone
    refine ⟨hl.leaveExecution _ _, hlwithin.leaveExecution _ hwithin.receiver _, ?_⟩
    obtain ⟨_, _, -, hresult⟩ := leaveExecution_eq l m.depths m.receiver r
    rcases hresult with hresult | hresult
    · rwa [hresult]
    · rw [hresult]
      exact Result.within_ok Value.within_undefined
  rw [Machine.execute_succ] at h
  split at h
  · exact hend hsame.spared henter (Result.within_error _) h
  · rename_i c hload
    have hat : c.At T P .entry := by
      rcases hentry with hentry | ⟨unit, hunit⟩
      · exact hcharts.load_entry hprogram hentry hload
      · exact hcharts.load_start hprogram hunit hload
    obtain ⟨l, r, hrun, hdone⟩ := Outcome.andThen_eq_done h
    have hlast : l.program.PartOf P := by
      cases hdone
      rwa [program_leaveExecution] at hpart
    have hends := ih.run henter (running_enterExecution m receiver args hat) hrun hlast
    rw [depths_skeleton] at hends
    exact hend (hsame.spared.trans hends.spared) hends.within hends.result hdone

omit hcharts in
theorem RunsKeep.hostCall {callee receiver : Value} {args : List Value} {result : Except Error Value}
    (hwithin : m.Within (T.Entry P)) (hcallee : callee.Within (T.Entry P)) (hreceiver : receiver.Within (T.Entry P))
    (hargs : Values.Within (T.Entry P) args)
    (h : Machine.hostCall env m callee receiver args budget = .done n result) (hpart : n.program.PartOf P) :
    CallEnds T P m n result := by
  obtain ⟨l, r, hperform, hdone⟩ := Outcome.andThen_eq_done h
  cases hdone
  have hcall := ih.perform (tidy_callHost henv (m.enterHostCall callee receiver args) callee receiver args)
    (honest_callHost henv (hwithin.enterHostCall hcallee hreceiver hargs) hreceiver hargs) hperform hpart
  exact ⟨hcall.kept.leaveHostCall _, hcall.within.leaveHostCall _ hwithin.receiver, hcall.result⟩

theorem RunsKeep.callValue_succ {callee receiver : Value} {args : List Value} {result : Except Error Value}
    (hwithin : m.Within (T.Entry P)) (hcallee : callee.Within (T.Entry P)) (hreceiver : receiver.Within (T.Entry P))
    (hargs : Values.Within (T.Entry P) args)
    (h : Machine.callValue env m callee receiver args (budget + 1) = .done n result) (hpart : n.program.PartOf P) :
    CallEnds T P m n result := by
  rw [Machine.callValue_succ] at h
  split at h
  · exact ih.execute hwithin (.inl (hcharts.entry_of_within hcallee)) hreceiver hargs h hpart
  · exact ih.hostCall henv hwithin hcallee hreceiver hargs h hpart
  · exact ih.hostCall henv hwithin hcallee hreceiver hargs h hpart
  · cases h
    exact ⟨.refl m, hwithin, Result.within_error _⟩

omit henv hcharts in
/-- A callee that is there is called. -/
theorem RunsKeep.callCallee {callee : Callee} {receiver : Value} {args : List Value} {result : Except Error Value}
    (hknown : callee.Known P) (hwithin : m.Within (T.Entry P)) (hcallee : callee.Within (T.Entry P))
    (hreceiver : receiver.Within (T.Entry P)) (hargs : Values.Within (T.Entry P) args)
    (h : Machine.callCallee env m callee receiver args budget = .done n result) (hpart : n.program.PartOf P) :
    CallEnds T P m n result := by
  cases callee with
  | code entry => exact ih.execute hwithin (.inr hknown) hreceiver hargs h hpart
  | value v => exact ih.callValue hwithin hcallee hreceiver hargs h hpart

omit hcharts in
theorem RunsKeep.perform_succ {a : Action W Value} {result : Except Error Value} (htidy : a.Tidy m)
    (hhonest : a.Honest (T.Entry P) (Value.Within (T.Entry P)))
    (h : Machine.perform env a (budget + 1) = .done n result) (hpart : n.program.PartOf P) :
    CallEnds T P m n result := by
  cases a with
  | done m₁ r =>
    cases h
    exact ⟨htidy.toKept, hhonest.1, hhonest.2⟩
  | needsFile path => cases h
  | call m₁ callee receiver args next =>
    obtain ⟨honward, hknown, hnext⟩ := htidy
    obtain ⟨⟨hwithin, hcallee, hreceiver, hargs⟩, hhonest⟩ := hhonest
    rw [perform_call] at h
    obtain ⟨m₂, r, hcall, hrest⟩ := Outcome.andThen_eq_done h
    have hgrows := (runsGrow henv budget).callCallee hcall
    have htidy' := hnext m₂ r hgrows
    have hlast : m₂.program.PartOf P := ((runsGrow henv budget).perform htidy' hrest).partOf.trans hpart
    have hends := ih.callCallee (hknown.of_partOf (hgrows.partOf.trans hlast)) hwithin hcallee hreceiver hargs hcall hlast
    have hdone := ih.perform htidy' (hhonest m₂ r hends.within hends.result) hrest hpart
    exact ⟨honward.toKept.trans (hends.kept.trans hdone.kept), hdone.within, hdone.result⟩

end Steps

theorem runsKeep (henv : env.Steady) (hcharts : T.Describe P) (budget : Nat) : RunsKeep env T P budget := by
  induction budget with
  | zero =>
    exact ⟨(fun _ _ h => by cases h), (fun _ _ _ _ h => by cases h), (fun _ _ _ _ h => by cases h),
      fun _ _ h => by cases h⟩
  | succ budget ih =>
    exact ⟨fun hm hc h hp => ih.run_succ henv hcharts hm hc h hp,
      fun hm hs hr ha h hp => ih.execute_succ henv hcharts hm hs hr ha h hp,
      fun hm hc hr ha h hp => ih.callValue_succ henv hcharts hm hc hr ha h hp,
      fun ht hh h hp => ih.perform_succ henv ht hh h hp⟩

end Keep

end Machine

end ScriptEngine
