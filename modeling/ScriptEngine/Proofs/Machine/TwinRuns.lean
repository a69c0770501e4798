import ScriptEngine.Proofs.Machine.Runs
import ScriptEngine.Proofs.Machine.TwinCalls
/-!
Runs over two programs.

Machines that are alike stay so through runs, calls and whole actions, and come to results that are alike
(`runsLike`); a crowded machine stays crowded (`runsCrowd`). So the width of placeholders does not change
what a script does: it compiles to the same items at every width, and running it gives the same results
but for the offsets of functions (`compile_two_exec_two`).
-/

namespace ScriptEngine

open Code (Atlas)

/-- An outcome that leaves a crowded machine, if it leaves one. -/
def Outcome.Crowded {W α : Type} : Outcome W α → Prop
  | done m _ => m.Crowded
  | _ => True

/-- Outcomes on two machines that are alike, or that both are crowded. -/
inductive Outcome.Like {W : Type} (A : Atlas) (w w' : Nat) : Outcome W Value → Outcome W Value → Prop
  | done {B : Atlas} {m m' : Machine W} {r r' : Except Error Value} (hle : A <+: B)
    (hlike : Machine.Like B w w' m m') (hresult : ResultLike (ValueLike B) r r') :
    Outcome.Like A w w' (.done m r) (.done m' r')
  | outOfBudget : Outcome.Like A w w' .outOfBudget .outOfBudget
  | needsFile (path : String) : Outcome.Like A w w' (.needsFile path) (.needsFile path)
  | crowded {o o' : Outcome W Value} (h : o.Crowded) (h' : o'.Crowded) : Outcome.Like A w w' o o'

/-- Outcomes of runs: what failed is at the same item. -/
inductive Outcome.RunLike {W : Type} (A : Atlas) (w w' : Nat) : Outcome W Value → Outcome W Value → Prop
  | done {B : Atlas} {m m' : Machine W} {r r' : Except Error Value} (hle : A <+: B)
    (hlike : Machine.Like B w w' m m') (hresult : ResultLike (ValueLike B) r r')
    (hfailed : ∀ kind message, r = .error (.failure kind message) → B.Known m.failedAt m'.failedAt) :
    Outcome.RunLike A w w' (.done m r) (.done m' r')
  | outOfBudget : Outcome.RunLike A w w' .outOfBudget .outOfBudget
  | needsFile (path : String) : Outcome.RunLike A w w' (.needsFile path) (.needsFile path)
  | crowded {o o' : Outcome W Value} (h : o.Crowded) (h' : o'.Crowded) : Outcome.RunLike A w w' o o'

section Outcomes

variable {W : Type} {A B : Atlas} {w w' : Nat} {o o' : Outcome W Value}

theorem Outcome.Crowded.andThen (h : o.Crowded) {next : Machine W → Except Error Value → Outcome W Value}
    (hnext : ∀ m r, m.Crowded → (next m r).Crowded) : (o.andThen next).Crowded := by
  cases o with
  | done m r => exact hnext m r h
  | outOfBudget => trivial
  | needsFile path => trivial

theorem Outcome.Like.andThen (h : Outcome.Like A w w' o o')
    {next next' : Machine W → Except Error Value → Outcome W Value}
    (hnext : ∀ {B : Atlas} {m m' : Machine W} {r r' : Except Error Value}, A <+: B → Machine.Like B w w' m m' →
      ResultLike (ValueLike B) r r' → Outcome.Like A w w' (next m r) (next' m' r'))
    (hcrowded : ∀ m r, m.Crowded → (next m r).Crowded) (hcrowded' : ∀ m r, m.Crowded → (next' m r).Crowded) :
    Outcome.Like A w w' (o.andThen next) (o'.andThen next') := by
  cases h with
  | done hle hlike hresult => exact hnext hle hlike hresult
  | outOfBudget => exact .outOfBudget
  | needsFile path => exact .needsFile path
  | crowded h h' => exact .crowded (h.andThen hcrowded) (h'.andThen hcrowded')

theorem Outcome.Like.of_le (hle : A <+: B) (h : Outcome.Like B w w' o o') : Outcome.Like A w w' o o' := by
  cases h with
  | done hle' hlike hresult => exact .done (hle.trans hle') hlike hresult
  | outOfBudget => exact .outOfBudget
  | needsFile path => exact .needsFile path
  | crowded h h' => exact .crowded h h'

theorem Outcome.RunLike.of_le (hle : A <+: B) (h : Outcome.RunLike B w w' o o') :
    Outcome.RunLike A w w' o o' := by
  cases h with
  | done hle' hlike hresult hfailed => exact .done (hle.trans hle') hlike hresult hfailed
  | outOfBudget => exact .outOfBudget
  | needsFile path => exact .needsFile path
  | crowded h h' => exact .crowded h h'

end Outcomes

namespace Machine

variable {W : Type} {A B : Atlas} {w w' : Nat} {m m' : Machine W} {env : Embedding W}

/-! ## Starts and ends -/

theorem Like.noteFailure (h : Like A w w' m m') {o o' : Nat} (hknown : A.Known o o') (e : Error) :
    Like A w w' (m.noteFailure o e) (m'.noteFailure o' e) := by
  cases e with
  | exit => exact h
  | failure kind message =>
    refine h.change (g := fun n => { n with failedAt := o }) (k := fun n => { n with failedAt := o' })
      (fun {M} hM n => ?_) fun n => ⟨rfl, rfl, rfl⟩
    rw [← hM.failure hknown]
    rfl

theorem Like.leaveHost (h : Like A w w' m m') : Like A w w' m.leaveHost m'.leaveHost := by
  refine h.change (fun _ n => leaveHost_machine n) fun n => ?_
  unfold Machine.leaveHost
  split <;> exact ⟨rfl, rfl, rfl⟩

theorem Like.putResult (h : Like A w w' m m') (slot : Nat) {v v' : Value} (hv : ValueLike A v v') :
    Like A w w' (m.putResult slot v) (m'.putResult slot v') := by
  refine h.change (g := (·.putResult slot v)) (k := (·.putResult slot v')) (fun {M} hM n => ?_)
    fun n => ⟨rfl, rfl, rfl⟩
  rw [hv.eq (hM.towards m')]
  exact putResult_machine (M := M.towards m') n slot v

theorem collect_quiet (m : Machine W) (full : Bool) :
    (m.collect full).1.program = m.program
      ∧ (m.collect full).1.options.placeholderWidth = m.options.placeholderWidth
      ∧ (m.collect full).1.output = m.output := by
  unfold Machine.collect
  generalize m.heap.collect m.heldValues full m.options.stringSlack = collected
  obtain ⟨heap, moves, stats⟩ := collected
  dsimp only
  split <;> exact ⟨rfl, rfl, rfl⟩

theorem Like.collectIfNeeded (h : Like A w w' m m') : Like A w w' m.collectIfNeeded m'.collectIfNeeded := by
  refine h.change (fun _ n => Move.collectIfNeeded_machine _ n) fun n => ?_
  unfold Machine.collectIfNeeded
  split
  · exact collect_quiet n false
  · exact ⟨rfl, rfl, rfl⟩

theorem enterExecution_machine {M : Move} (m : Machine W) (receiver : Value) (args : List Value) :
    (M.machine m).enterExecution (M.value receiver) (args.map M.value)
      = M.machine (m.enterExecution receiver args) := by
  simp only [Machine.enterExecution, pushFrame, Move.machine, Move.frame, Array.size_map, Array.map_append,
    Array.map_push, List.map_toArray, Option.map_none, Move.value_undefined]

theorem enterHostCall_machine {M : Move} (m : Machine W) (callee receiver : Value) (args : List Value) :
    (M.machine m).enterHostCall (M.value callee) (M.value receiver) (args.map M.value)
      = M.machine (m.enterHostCall callee receiver args) := by
  simp only [Machine.enterHostCall, Move.machine, Array.map_append, Array.map_push, List.map_toArray]

theorem restore_machine {M : Move} (m : Machine W) (start : Depths) (receiver : Value) :
    (M.machine m).restore start (M.value receiver) = M.machine (m.restore start receiver) := by
  simp only [restore, cutBack, Move.machine, Array.shrink_eq_take, Array.take_eq_extract, Array.map_extract]

theorem leaveHostCall_machine {M : Move} (m : Machine W) (size : Nat) (receiver : Value) :
    (M.machine m).leaveHostCall size (M.value receiver) = M.machine (m.leaveHostCall size receiver) := by
  simp only [leaveHostCall, Move.machine, Array.take_eq_extract, Array.map_extract]

theorem Like.enterExecution (h : Like A w w' m m') {receiver receiver' : Value} {args args' : List Value}
    (hreceiver : ValueLike A receiver receiver') (hargs : List.Forall₂ (ValueLike A) args args') :
    Like A w w' (m.enterExecution receiver args) (m'.enterExecution receiver' args') := by
  refine h.change (g := (·.enterExecution receiver args)) (k := (·.enterExecution receiver' args'))
    (fun {M} hM n => ?_) fun n => ⟨rfl, rfl, rfl⟩
  rw [hreceiver.eq (hM.towards m'), ValueLike.map_eq hargs (hM.towards m')]
  exact enterExecution_machine (M := M.towards m') n receiver args

theorem Like.enterHostCall (h : Like A w w' m m') {callee callee' receiver receiver' : Value}
    {args args' : List Value} (hcallee : ValueLike A callee callee') (hreceiver : ValueLike A receiver receiver')
    (hargs : List.Forall₂ (ValueLike A) args args') :
    Like A w w' (m.enterHostCall callee receiver args) (m'.enterHostCall callee' receiver' args') := by
  refine h.change (g := (·.enterHostCall callee receiver args)) (k := (·.enterHostCall callee' receiver' args'))
    (fun {M} hM n => ?_) fun n => ⟨rfl, rfl, rfl⟩
  rw [hcallee.eq (hM.towards m'), hreceiver.eq (hM.towards m'), ValueLike.map_eq hargs (hM.towards m')]
  exact enterHostCall_machine (M := M.towards m') n callee receiver args

theorem Like.restore (h : Like A w w' m m') (start : Depths) {receiver receiver' : Value}
    (hreceiver : ValueLike A receiver receiver') :
    Like A w w' (m.restore start receiver) (m'.restore start receiver') := by
  refine h.change (g := (·.restore start receiver)) (k := (·.restore start receiver')) (fun {M} hM n => ?_)
    fun n => ⟨rfl, rfl, rfl⟩
  rw [hreceiver.eq (hM.towards m')]
  exact restore_machine (M := M.towards m') n start receiver

theorem Like.leaveHostCall (h : Like A w w' m m') (size : Nat) {receiver receiver' : Value}
    (hreceiver : ValueLike A receiver receiver') :
    Like A w w' (m.leaveHostCall size receiver) (m'.leaveHostCall size receiver') := by
  refine h.change (g := (·.leaveHostCall size receiver)) (k := (·.leaveHostCall size receiver'))
    (fun {M} hM n => ?_) fun n => ⟨rfl, rfl, rfl⟩
  rw [hreceiver.eq (hM.towards m')]
  exact leaveHostCall_machine (M := M.towards m') n size receiver

theorem Like.depths (h : Like A w w' m m') : m'.depths = m.depths := by
  obtain ⟨M, -, rfl⟩ := h.exists_move
  simp [Machine.depths, Move.machine]

/-- The lines on the way to a failure are the same. -/
theorem Like.traceAbove (h : Like A w w' m m') (hfailed : A.Known m.failedAt m'.failedAt) (calls : Nat) :
    m'.traceAbove calls = m.traceAbove calls := by
  have hentry {o o' : Nat} (hknown : A.Known o o') : m'.traceEntry? o' = m.traceEntry? o := by
    simp only [ traceEntry?, h.describes.lineFor? hknown]
  have hdrop (frames : Array Frame) : (frames.drop calls).toList = frames.toList.drop calls := by
    simp [Array.drop_eq_extract, List.take_of_length_le]
  obtain ⟨M, hM⟩ := h.describes.exists_fits
  have hframes {N : Move} (hN : N.Fits A) : m'.frames = m.frames.map N.frame := by rw [h.moved hN]; rfl
  have hsites : (m'.frames.drop calls).toList.reverse.filterMap Frame.callSite
      = ((m.frames.drop calls).toList.reverse.filterMap Frame.callSite).map M.site := by
    rw [hframes hM, hdrop, hdrop, Array.toList_map, ← List.map_drop, ← List.map_reverse, List.filterMap_map,
      List.map_filterMap]
    rfl
  have hknown {o : Nat} (ho : o ∈ (m.frames.drop calls).toList.reverse.filterMap Frame.callSite) :
      A.Known o (M.site o) := by
    obtain ⟨frame, hmem, hsite⟩ := List.mem_filterMap.mp ho
    have hframe : frame ∈ m.frames := by
      rw [List.mem_reverse, hdrop] at hmem
      exact Array.mem_toList_iff.mp (List.mem_of_mem_drop hmem)
    refine (h.describes.known_of_site fun N hN => ?_).known
    have hsame := (hframes hM).symm.trans (hframes hN)
    have hat := Array.map_inj_left.mp hsame frame hframe
    have := congrArg Frame.callSite hat
    simpa [Move.frame, hsite] using this
  unfold Machine.traceAbove
  rw [hsites, List.filterMap_cons, List.filterMap_cons, hentry hfailed, List.filterMap_map]
  have hrest : ((m.frames.drop calls).toList.reverse.filterMap Frame.callSite).filterMap ( m'.traceEntry? ∘ M.site)
      = ((m.frames.drop calls).toList.reverse.filterMap Frame.callSite).filterMap m.traceEntry? :=
    List.filterMap_congr fun o ho => hentry (hknown ho)
  rw [hrest]

/-- The end of a request to stop, for the restored machine. -/
def stopped (m : Machine W) : Machine W × Except Error Value :=
  if m.depth = 0 then ({ m with interrupted := false }, .ok .undefined) else (m, .error .exit)

theorem leaveExecution_exit (m : Machine W) (start : Depths) (receiver : Value) :
    m.leaveExecution start receiver (.error .exit)
      = (({ m with depth := m.depth - 1 } : Machine W).restore start receiver).stopped := rfl

theorem Like.stopped (h : Like A w w' m m') :
    Like A w w' m.stopped.1 m'.stopped.1 ∧ ResultLike (ValueLike A) m.stopped.2 m'.stopped.2 := by
  unfold Machine.stopped
  by_cases houter : m.depth = 0
  · rw [if_pos houter, if_pos (h.depth.trans houter)]
    refine ⟨?_, .ok (.same fun start heq => by cases heq)⟩
    exact h.change (g := fun n => { n with interrupted := false }) (k := fun n => { n with interrupted := false })
      (fun _ _ => rfl) fun _ => ⟨rfl, rfl, rfl⟩
  · rw [if_neg houter, if_neg fun hzero => houter (h.depth.symm.trans hzero)]
    exact ⟨h, .error .exit⟩

theorem Like.leaveExecution (h : Like A w w' m m') (start : Depths) {receiver receiver' : Value}
    (hreceiver : ValueLike A receiver receiver') {r r' : Except Error Value} (hresult : ResultLike (ValueLike A) r r')
    (hfailed : ∀ kind message, r = .error (.failure kind message) → A.Known m.failedAt m'.failedAt) :
    Like A w w' (m.leaveExecution start receiver r).1 (m'.leaveExecution start receiver' r').1
      ∧ ResultLike (ValueLike A) (m.leaveExecution start receiver r).2 (m'.leaveExecution start receiver' r').2 := by
  have hless : Like A w w' { m with depth := m.depth - 1 } { m' with depth := m'.depth - 1 } :=
    h.change (g := fun n => { n with depth := n.depth - 1 }) (k := fun n => { n with depth := n.depth - 1 })
      (fun _ _ => rfl) fun _ => ⟨rfl, rfl, rfl⟩
  cases hresult with
  | ok hv => exact ⟨hless.restore start hreceiver, .ok hv⟩
  | error e =>
    cases e with
    | exit =>
      rw [leaveExecution_exit, leaveExecution_exit]
      exact (hless.restore start hreceiver).stopped
    | failure kind message =>
      refine ⟨?_, .error _⟩
      have htrace := hless.traceAbove (hfailed kind message rfl) start.calls
      have htraced : Like A w w'
          { m with depth := m.depth - 1, trace := m.trace ++ ({ m with depth := m.depth - 1 } : Machine W).traceAbove start.calls }
          { m' with depth := m'.depth - 1, trace := m'.trace ++ ({ m' with depth := m'.depth - 1 } : Machine W).traceAbove start.calls } := by
        rw [htrace]
        exact hless.change
          (g := fun n => { n with trace := n.trace ++ ({ m with depth := m.depth - 1 } : Machine W).traceAbove start.calls })
          (k := fun n => { n with trace := n.trace ++ ({ m with depth := m.depth - 1 } : Machine W).traceAbove start.calls })
          (fun _ _ => rfl) fun _ => ⟨rfl, rfl, rfl⟩
      exact htraced.restore start hreceiver

/-! ## Crowded machines -/

theorem program_noteFailure (m : Machine W) (offset : Nat) (e : Error) :
    (m.noteFailure offset e).program = m.program := by
  cases e <;> rfl

theorem program_collectIfNeeded (m : Machine W) : m.collectIfNeeded.program = m.program := by
  unfold Machine.collectIfNeeded
  split
  · exact (collect_quiet m false).1
  · rfl

theorem program_leaveHost (m : Machine W) : m.leaveHost.program = m.program := by
  unfold Machine.leaveHost
  split <;> rfl

theorem program_leaveExecution (m : Machine W) (start : Depths) (receiver : Value) (result : Except Error Value) :
    (m.leaveExecution start receiver result).1.program = m.program := by
  unfold Machine.leaveExecution
  dsimp only
  split
  · rfl
  · split <;> rfl
  · rfl

/-- What holds of crowded machines and runs that take `budget` at most. -/
structure RunsCrowd (env : Embedding W) (budget : Nat) : Prop where
  run : ∀ {m : Machine W} (c : Cursor), m.Crowded → (run env m c budget).Crowded
  execute : ∀ {m : Machine W} (start : Nat) (receiver : Value) (args : List Value), m.Crowded →
    (execute env m start receiver args budget).Crowded
  callValue : ∀ {m : Machine W} (callee receiver : Value) (args : List Value), m.Crowded →
    (callValue env m callee receiver args budget).Crowded
  perform : ∀ {a : Action W Value}, a.Crowded → (perform env a budget).Crowded

theorem RunsCrowd.resume {budget : Nat} (ih : RunsCrowd env budget) (offset slot : Nat) (next : Cursor)
    (m : Machine W) (result : Except Error Value) (h : m.Crowded) :
    (Machine.resume env offset slot next budget m result).Crowded := by
  cases result with
  | ok v => exact ih.run next (Crowded.of_program (program_leaveHost m) h)
  | error e => exact Crowded.of_program ((program_noteFailure _ offset e).trans (program_leaveHost m)) h

theorem RunsCrowd.proceed (henv : env.Respects w w') {budget : Nat} (ih : RunsCrowd env budget) (offset : Nat)
    {r : EStateM.Result Error (Machine W) Step} (h : (leftBy r).Crowded) :
    (Machine.proceed env offset budget r).Crowded := by
  cases r with
  | error e m => exact Crowded.of_program (program_noteFailure m offset e) h
  | ok step m =>
    cases step with
    | finish v => exact h
    | goOn next => exact ih.run next h
    | host callee receiver args slot next =>
      exact (ih.perform (crowded_callHost henv callee receiver args h)).andThen (ih.resume offset slot next)

theorem RunsCrowd.hostCall (henv : env.Respects w w') {budget : Nat} (ih : RunsCrowd env budget)
    (callee receiver : Value) (args : List Value) (h : m.Crowded) :
    (Machine.hostCall env m callee receiver args budget).Crowded :=
  (ih.perform (crowded_callHost henv callee receiver args (m := m.enterHostCall callee receiver args) h)).andThen
    fun _ _ hn => hn

/-- A crowded machine stays crowded. -/
theorem runsCrowd (henv : env.Respects w w') (budget : Nat) : RunsCrowd env budget := by
  induction budget with
  | zero =>
    exact ⟨fun _ _ => trivial, fun _ _ _ _ => trivial, fun _ _ _ _ => trivial, fun _ => trivial⟩
  | succ budget ih =>
    refine ⟨fun {m} c h => ?_, fun {m} start receiver args h => ?_, fun {m} callee receiver args h => ?_, fun {a} h => ?_⟩
    · rw [run_succ]
      split
      · exact h
      · refine ih.proceed henv c.offset (Crowded.of_program ?_ h)
        rw [(quiet_advance env c m.collectIfNeeded).1, program_collectIfNeeded]
    · have hend (n : Machine W) (r : Except Error Value) (hn : n.Crowded) :
          (endExecution m.depths m.receiver n r).Crowded :=
        Crowded.of_program (program_leaveExecution n _ _ r) hn
      rw [execute_succ]
      split
      · exact hend _ _ h
      · exact (ih.run (m := m.enterExecution receiver args) _ h).andThen hend
    · rw [callValue_succ]
      split
      · exact ih.execute _ receiver args h
      · exact ih.hostCall henv _ receiver args h
      · exact ih.hostCall henv _ receiver args h
      · exact h
    · cases a with
      | done m result => exact h
      | needsFile path => trivial
      | call m callee receiver args next =>
        rw [perform_call]
        have hcall : (callCallee env m callee receiver args budget).Crowded := by
          cases callee with
          | code start => exact ih.execute start receiver args h.1
          | value v => exact ih.callValue v receiver args h.1
        exact hcall.andThen fun n result hn => ih.perform (h.2 n result hn)

/-! ## Machines that are alike -/

/-- Offsets at which the same code can be entered: the start of a unit, or an item. -/
inductive KnownEntry (A : Atlas) : Nat → Nat → Prop
  | unit {o o' : Nat} (h : A.KnownStart o o') : KnownEntry A o o'
  | item {o o' : Nat} (h : A.Known o o') : KnownEntry A o o'

theorem Like.loadEntry (h : Like A w w' m m') {start start' : Nat} (hstart : KnownEntry A start start') :
    ∃ c c', Cursor.load m.program start .nop = .ok c ∧ Cursor.load m'.program start' .nop = .ok c'
      ∧ Cursor.Like A c c' := by
  cases hstart with
  | unit hunit =>
    obtain ⟨k, s, hs, rfl, rfl⟩ := hunit
    exact ⟨_, _, h.describes.load_start hs .nop, h.describes.swap.load_start (Atlas.getElem?_swap hs) .nop,
      .start hs .nop⟩
  | item hitem =>
    obtain ⟨k, s, i, hs, hi, rfl, rfl⟩ := hitem
    exact ⟨_, _, h.describes.load hs hi .nop, h.describes.swap.load (Atlas.getElem?_swap hs) hi .nop,
      .item hs hi .nop⟩

/-- What holds of machines that are alike and runs that take `budget` at most. -/
structure RunsLike (env : Embedding W) (w w' budget : Nat) : Prop where
  run : ∀ {A : Atlas} {m m' : Machine W} {c c' : Cursor}, Like A w w' m m' → Cursor.Like A c c' →
    Outcome.RunLike A w w' (run env m c budget) (Machine.run env m' c' budget)
  execute : ∀ {A : Atlas} {m m' : Machine W} {start start' : Nat} {receiver receiver' : Value}
    {args args' : List Value}, Like A w w' m m' → KnownEntry A start start' → ValueLike A receiver receiver' →
    List.Forall₂ (ValueLike A) args args' →
    Outcome.Like A w w' (execute env m start receiver args budget) (Machine.execute env m' start' receiver' args' budget)
  callValue : ∀ {A : Atlas} {m m' : Machine W} {callee callee' receiver receiver' : Value} {args args' : List Value},
    Like A w w' m m' → ValueLike A callee callee' → ValueLike A receiver receiver' →
    List.Forall₂ (ValueLike A) args args' →
    Outcome.Like A w w' (callValue env m callee receiver args budget)
      (Machine.callValue env m' callee' receiver' args' budget)
  perform : ∀ {A : Atlas} {a a' : Action W Value}, Action.Like w w' ValueLike A a a' →
    Outcome.Like A w w' (perform env a budget) (Machine.perform env a' budget)

section Steps

variable {budget : Nat} (ih : RunsLike env w w' budget) (henv : env.Respects w w')
  (hw : w ≤ Code.Emitter.maxWidth) (hw' : w' ≤ Code.Emitter.maxWidth)

include ih henv

theorem RunsLike.resume {offset offset' : Nat} (hknown : A.Known offset offset') (slot : Nat) {next next' : Cursor}
    (hnext : Cursor.Like A next next') {o o' : Outcome W Value} (h : Outcome.Like A w w' o o') :
    Outcome.RunLike A w w' (o.andThen (resume env offset slot next budget))
      (o'.andThen (Machine.resume env offset' slot next' budget)) := by
  cases h with
  | outOfBudget => exact .outOfBudget
  | needsFile path => exact .needsFile path
  | crowded h h' =>
    have hcrowd := runsCrowd henv budget
    exact .crowded (h.andThen (hcrowd.resume offset slot next)) (h'.andThen (hcrowd.resume offset' slot next'))
  | done hle hlike hresult =>
    cases hresult with
    | ok hv => exact .of_le hle (ih.run (hlike.leaveHost.putResult slot hv) (hnext.mono hle))
    | error e =>
      refine .done hle (hlike.leaveHost.noteFailure (hknown.mono hle) e) (.error e) fun kind message heq => ?_
      cases heq
      exact hknown.mono hle

include hw hw'

theorem RunsLike.run_succ {c c' : Cursor} (h : Like A w w' m m') (hc : Cursor.Like A c c') :
    Outcome.RunLike A w w' (Machine.run env m c (budget + 1)) (Machine.run env m' c' (budget + 1)) := by
  have hinterrupted : m'.interrupted = m.interrupted := by
    obtain ⟨M, -, rfl⟩ := h.exists_move
    rfl
  rw [Machine.run_succ, Machine.run_succ, hinterrupted]
  split
  · exact .done (List.prefix_refl A) h (.error .exit) fun _ _ heq => by cases heq
  · obtain ⟨hstep, hknown⟩ := h.collectIfNeeded.advance hc env
    revert hstep hknown
    generalize Machine.advance env c m.collectIfNeeded = r
    generalize Machine.advance env c' m'.collectIfNeeded = r'
    intro hstep hknown
    cases hstep with
    | error e hlike =>
      have hat := hknown fun _ _ heq => by cases heq
      refine .done (List.prefix_refl A) (hlike.noteFailure hat e) (.error e) fun kind message heq => ?_
      cases heq
      exact hat
    | ok hlike hsteps =>
      cases hsteps with
      | finish hv => exact .done (List.prefix_refl A) hlike (.ok hv) fun _ _ heq => by cases heq
      | goOn hnext => exact ih.run hlike hnext
      | host hcallee hreceiver hargs hnext =>
        have hat := hknown fun _ _ heq => by cases heq
        exact ih.resume henv hat _ hnext (ih.perform (hlike.callHost henv hw hw' hcallee hreceiver hargs))

omit henv hw hw' in
theorem RunsLike.execute_succ {start start' : Nat} {receiver receiver' : Value} {args args' : List Value}
    (h : Like A w w' m m') (hstart : KnownEntry A start start') (hreceiver : ValueLike A receiver receiver')
    (hargs : List.Forall₂ (ValueLike A) args args') :
    Outcome.Like A w w' (Machine.execute env m start receiver args (budget + 1))
      (Machine.execute env m' start' receiver' args' (budget + 1)) := by
  obtain ⟨c, c', hload, hload', hc⟩ := h.loadEntry hstart
  simp only [Machine.execute_succ, hload, hload', h.depths]
  have hrun := ih.run (h.enterExecution hreceiver hargs) hc
  revert hrun
  generalize Machine.run env (m.enterExecution receiver args) c budget = o
  generalize Machine.run env (m'.enterExecution receiver' args') c' budget = o'
  intro hrun
  have hend (n : Machine W) (before : Value) (r : Except Error Value) (hn : n.Crowded) :
      (endExecution m.depths before n r).Crowded :=
    Crowded.of_program (program_leaveExecution n _ _ r) hn
  cases hrun with
  | outOfBudget => exact .outOfBudget
  | needsFile path => exact .needsFile path
  | crowded h h' => exact .crowded (h.andThen fun n => hend n _) (h'.andThen fun n => hend n _)
  | done hle hlike hresult hfailed =>
    obtain ⟨hleft, hvalue⟩ := hlike.leaveExecution m.depths (h.receiver.mono hle) hresult hfailed
    exact .done hle hleft hvalue

theorem RunsLike.hostCall {callee callee' receiver receiver' : Value} {args args' : List Value}
    (h : Like A w w' m m') (hcallee : ValueLike A callee callee') (hreceiver : ValueLike A receiver receiver')
    (hargs : List.Forall₂ (ValueLike A) args args') :
    Outcome.Like A w w' (hostCall env m callee receiver args budget)
      (Machine.hostCall env m' callee' receiver' args' budget) := by
  have hsize : m'.stack.size = m.stack.size := congrArg Depths.data h.depths
  have hentered := h.enterHostCall hcallee hreceiver hargs
  refine (ih.perform (hentered.callHost henv hw hw' hcallee hreceiver hargs)).andThen
    (fun hle hlike hresult => ?_) (fun _ _ hn => hn) fun _ _ hn => hn
  rw [hsize]
  exact .done hle (hlike.leaveHostCall _ (h.receiver.mono hle)) hresult

theorem RunsLike.callValue_succ {callee callee' receiver receiver' : Value} {args args' : List Value}
    (h : Like A w w' m m') (hcallee : ValueLike A callee callee') (hreceiver : ValueLike A receiver receiver')
    (hargs : List.Forall₂ (ValueLike A) args args') :
    Outcome.Like A w w' (Machine.callValue env m callee receiver args (budget + 1))
      (Machine.callValue env m' callee' receiver' args' (budget + 1)) := by
  rw [Machine.callValue_succ, Machine.callValue_succ]
  have hhost := ih.hostCall henv hw hw' h hcallee hreceiver hargs
  cases hcallee with
  | function hknown => exact ih.execute h (.item hknown) hreceiver hargs
  | same hne =>
    cases callee with
    | function start => exact absurd rfl (hne start)
    | native id => exact hhost
    | signature id => exact hhost
    | _ => exact .done (List.prefix_refl A) h (.error _)

omit henv hw hw' in
theorem RunsLike.callCallee {callee callee' : Callee} {receiver receiver' : Value} {args args' : List Value}
    (h : Like A w w' m m') (hcallee : Callee.Like A callee callee') (hreceiver : ValueLike A receiver receiver')
    (hargs : List.Forall₂ (ValueLike A) args args') :
    Outcome.Like A w w' (callCallee env m callee receiver args budget)
      (Machine.callCallee env m' callee' receiver' args' budget) := by
  cases hcallee with
  | code hstart => exact ih.execute h (.unit hstart) hreceiver hargs
  | value hv => exact ih.callValue h hv hreceiver hargs

omit hw hw' in
theorem RunsLike.perform_succ {a a' : Action W Value} (h : Action.Like w w' ValueLike A a a') :
    Outcome.Like A w w' (Machine.perform env a (budget + 1)) (Machine.perform env a' (budget + 1)) := by
  have hcrowd := runsCrowd henv budget
  cases h with
  | done hle hlike hresult => exact .done hle hlike hresult
  | needsFile path => exact .needsFile path
  | crowded h h' =>
    have hmore := runsCrowd henv (budget + 1)
    exact .crowded (hmore.perform h) (hmore.perform h')
  | call hle hlike hcallee hreceiver hargs hnext hrest hrest' =>
    rw [perform_call, perform_call]
    have hcall := ih.callCallee hlike hcallee hreceiver hargs
    exact .of_le hle (hcall.andThen (fun hle' hlike' hresult => .of_le hle' (ih.perform (hnext hle' hlike' hresult)))
      (fun n r hn => hcrowd.perform (hrest n r hn)) fun n r hn => hcrowd.perform (hrest' n r hn))

end Steps

/-- Machines that are alike stay so, whatever runs on them. -/
theorem runsLike (henv : env.Respects w w') (hw : w ≤ Code.Emitter.maxWidth) (hw' : w' ≤ Code.Emitter.maxWidth)
    (budget : Nat) : RunsLike env w w' budget := by
  induction budget with
  | zero => exact ⟨fun _ _ => .outOfBudget, fun _ _ _ _ => .outOfBudget, fun _ _ _ _ => .outOfBudget, fun _ => .outOfBudget⟩
  | succ budget ih =>
    exact ⟨ih.run_succ henv hw hw', ih.execute_succ, ih.callValue_succ henv hw hw', ih.perform_succ henv⟩

end Machine

end ScriptEngine
