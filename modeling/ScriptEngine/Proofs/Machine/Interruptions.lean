import ScriptEngine.Proofs.Machine.Obligations
import ScriptEngine.Proofs.Machine.Requests
import ScriptEngine.Proofs.Machine.Scopes
/-!
Interruptions.

When a stop is asked for, everything that waits is given an end that it can pass on, provided that functions outside
of the code oblige (`Moment.Obeys`). So from the moment at which a stop is asked for within an execution, nothing
but unwinding happens until the outermost execution has ended, which takes the request to stop with it
(`interruption_unwinds`).
-/

namespace ScriptEngine

open Machine (Fails)

/-- A run was asked to stop. -/
def Machine.Exits (r : Except Error Value) : Prop :=
  r = .error .exit

open Machine (Exits)

/-- What waits passes on that a stop was asked for, when what it waits for ends in one of some ways then. -/
inductive Waiting.Awaits {W : Type} : (Except Error Value → Prop) → List (Waiting W) → Prop
  | nil {D : Except Error Value → Prop} (h : ∀ r, D r → Exits r) : Awaits D []
  | run {D : Except Error Value → Prop} {K : List (Waiting W)} {offset slot : Nat} {c : Cursor} {entries : List Depths}
    (h : ∀ r, D r → ¬ Fails r) (hK : Awaits Exits K) : Awaits D (.run offset slot c entries :: K)
  | execution {D : Except Error Value → Prop} {K : List (Waiting W)} {start : Depths} {receiver : Value}
    (h : ∀ r, D r → Exits r) (hK : Awaits Exits K) : Awaits D (.execution start receiver :: K)
  | call {D : Except Error Value → Prop} {K : List (Waiting W)} {size : Nat} {receiver : Value} (hK : Awaits D K) :
    Awaits D (.call size receiver :: K)
  | action {D D' : Except Error Value → Prop} {K : List (Waiting W)} {next : Machine W → Except Error Value → Action W Value}
    (h : ∀ n r, (n.interrupted = true → D r) → (next n r).Obliging fun _ => D') (hK : Awaits D' K) :
    Awaits D (.action next :: K)

theorem Waiting.Awaits.mono {W : Type} {D D' : Except Error Value → Prop} {K : List (Waiting W)} (h : Awaits D K)
    (hD : ∀ r, D' r → D r) : Awaits D' K := by
  induction h generalizing D' with
  | nil h => exact .nil fun r hr => h r (hD r hr)
  | run h hK => exact .run (fun r hr => h r (hD r hr)) hK
  | execution h hK => exact .execution (fun r hr => h r (hD r hr)) hK
  | call hK ih => exact .call (ih hD)
  | action h hK => exact .action (fun n r hr => h n r fun hup => hD r (hr hup)) hK

namespace Moment

open Machine (advance callHost IsOutside)

variable {W : Type} {env : Embedding W} {M M' : Moment W} {D : Except Error Value → Prop} {base : Nat}

/-- What goes on ends in one of some ways, if a stop was asked for by then. -/
def Ends (D : Except Error Value → Prop) : Moment W → Prop
  | going (.running _ _ _) _ | going (.execution _ _ _ _) _ => D (.error .exit)
  | going (.call m callee _ _) _ =>
    ∀ r, ((Callee.value callee).RunsCode ∨ m.interrupted = false → ¬ Fails r) → D r
  | going (.action _ a) _ => a.Obliging fun _ => D
  | ended m r _ => m.interrupted = true → D r

/-- What waits passes on a stop, in the way in which it comes. -/
def Obeys (M : Moment W) : Prop :=
  ∃ D, M.Ends D ∧ Waiting.Awaits D M.waiting

theorem not_runsCode_of_outside {callee : Value} (h : IsOutside callee) : ¬ (Callee.value callee).RunsCode := by
  rintro ⟨start, rfl⟩
  rcases h with ⟨id, h⟩ | ⟨id, h⟩ <;> cases h

/-- Instructions ask nobody to stop. -/
theorem interrupted_step {m m' : Machine W} {c : Cursor} {r : EStateM.Result Error (Machine W) Machine.Step}
    (h : advance env c m.collectIfNeeded = r) (hr : leftBy r = m') : m'.interrupted = m.interrupted := by
  have hnotes := congrArg Machine.Notes.interrupted (Machine.notes_step env c m)
  rw [h, hr] at hnotes
  exact hnotes

theorem interrupted_noteFailure (m : Machine W) (offset : Nat) (e : Error) :
    (m.noteFailure offset e).interrupted = m.interrupted := by
  cases e <;> rfl

theorem interrupted_leaveHost (m : Machine W) : m.leaveHost.interrupted = m.interrupted :=
  congrArg Machine.Notes.interrupted (Machine.notes_leaveHost m)

/-- Only a stop is left by an execution with the request for it, unless it is the outermost. -/
theorem exits_leaveExecution {m : Machine W} {r : Except Error Value} (start : Depths) (receiver : Value)
    (hr : m.interrupted = true → Exits r) (hup : (m.leaveExecution start receiver r).1.interrupted = true) :
    Exits (m.leaveExecution start receiver r).2 := by
  obtain rfl : r = .error .exit := by
    refine hr ?_
    unfold Machine.leaveExecution at hup
    dsimp only at hup
    split at hup
    · exact hup
    · split at hup
      · cases hup
      · exact hup
    · exact hup
  unfold Machine.leaveExecution at hup ⊢
  dsimp only at hup ⊢
  split at hup
  · cases hup
  · rw [if_neg (by assumption)]
    rfl

theorem Next.obeys (henv : env.Obliging) (h : Next env M M') (hloads : M.Loads) (hM : M.Obeys) : M'.Obeys := by
  obtain ⟨D, hends, hK⟩ := hM
  cases h with
  | stopped hup => exact ⟨D, fun _ => hends, hK⟩
  | @failed m m' K c entries e hgo hadvance =>
    refine ⟨D, fun hup => ?_, hK⟩
    have hm : m'.interrupted = false := (interrupted_step hadvance rfl).trans hgo
    cases hm.symm.trans ((interrupted_noteFailure m' c.offset e).symm.trans hup)
  | @finished m m' K c entries v hgo hadvance =>
    refine ⟨D, fun hup => ?_, hK⟩
    have hm : m'.interrupted = false := (interrupted_step hadvance rfl).trans hgo
    cases hm.symm.trans hup
  | goOn hgo hadvance => exact ⟨D, hends, hK⟩
  | @host m m' K c c' entries callee receiver args slot hgo hadvance =>
    have hm : m'.interrupted = false := (interrupted_step hadvance rfl).trans hgo
    refine ⟨fun r => ¬ Fails r, Machine.obliges_callHost henv hm callee receiver args, .run (fun r hr => hr) ?_⟩
    exact hK.mono fun r hr => hr ▸ hends
  | resumed =>
    cases hK with
    | run hpass hK => exact ⟨Exits, rfl, hK⟩
  | @hostFailed m K offset slot c entries e =>
    cases hK with
    | run hpass hK =>
      refine ⟨Exits, fun hup => ?_, hK⟩
      replace hup : (m.leaveHost.noteFailure offset e).interrupted = true := hup
      rw [interrupted_noteFailure, interrupted_leaveHost] at hup
      exact congrArg Except.error (Machine.eq_exit_of_not_fails (hpass _ (hends hup)))
  | unloaded hload =>
    obtain ⟨c, hc⟩ := hloads
    rw [hc] at hload
    cases hload
  | enter hload =>
    exact ⟨Exits, rfl, .execution (fun r hr => hr) (hK.mono fun r hr => hr ▸ hends)⟩
  | @left m K r start receiver =>
    cases hK with
    | execution hpass hK =>
      exact ⟨Exits, exits_leaveExecution start receiver fun hup => hpass r (hends hup), hK⟩
  | function => exact ⟨D, hends _ fun _ => Machine.not_fails_exit, hK⟩
  | @outside m K callee receiver args houtside =>
    refine ⟨D, ?_, .call hK⟩
    by_cases hm : m.interrupted = true
    · refine Action.obliging_of_all (fun _ r => hends r fun hcallee => ?_) _
      rw [or_iff_right (not_runsCode_of_outside houtside), hm] at hcallee
      cases hcallee
    · have hdown : (m.enterHostCall callee receiver args).interrupted = false := Bool.eq_false_iff.mpr hm
      exact (Machine.obliges_callHost henv hdown callee receiver args).mono fun _ r hr => hends r fun _ => hr
  | @uncallable m K callee receiver args houtside hcode =>
    refine ⟨D, fun hup => hends _ fun hcallee => ?_, hK⟩
    rcases hcallee with ⟨start, rfl⟩ | hdown
    · exact absurd rfl (hcode start)
    · rw [show m.interrupted = true from hup] at hdown
      cases hdown
  | outsideLeft =>
    cases hK with
    | call hK => exact ⟨D, hends, hK⟩
  | done => exact ⟨D, hends, hK⟩
  | @code m m' K start receiver args next =>
    exact ⟨fun r => (Callee.code start).RunsCode ∨ m.interrupted = false → ¬ Fails r,
      fun _ => Machine.not_fails_exit, .action (fun n r hr => hends n r hr) hK⟩
  | @value m m' K callee receiver args next =>
    exact ⟨fun r => (Callee.value callee).RunsCode ∨ m.interrupted = false → ¬ Fails r,
      fun r hr => hr, .action (fun n r hr => hends n r hr) hK⟩
  | answered =>
    cases hK with
    | action hnext hK => exact ⟨_, hnext _ _ hends, hK⟩

theorem Soon.obeys (henv : env.Obliging) (h : Soon env M M') (hloads : M.Loads) (hM : M.Obeys) : M'.Obeys := by
  rcases h with hnext | ⟨m, c, entries, K⟩
  · exact hnext.obeys henv hloads hM
  · exact hM

theorem Later.obeys (henv : env.Obliging) (h : Later env M M')
    (hloads : ∀ M₂, Later env M M₂ → Later env M₂ M' → M₂.Loads) (hM : M.Obeys) : M'.Obeys := by
  induction h with
  | refl => exact hM
  | tail hlater hsoon ih =>
    exact hsoon.obeys henv (hloads _ hlater (.single hsoon)) (ih fun M₂ hbefore hafter => hloads M₂ hbefore (.tail hafter hsoon))

end Moment

/-! ## Unwinding -/

namespace Machine

variable {W : Type} {m n l : Machine W}

/-- Nothing is noted on the way back from a stop. -/
structure Unwinds (m n : Machine W) : Prop where
  interrupted : n.interrupted = true
  trace : n.trace = m.trace
  lastError : n.lastError = m.lastError

theorem Unwinds.of_notes (h : n.notes = m.notes) (hup : m.interrupted = true) : m.Unwinds n :=
  ⟨(congrArg Notes.interrupted h).trans hup, congrArg Notes.trace h, congrArg Notes.lastError h⟩

theorem Unwinds.refl (hup : m.interrupted = true) : m.Unwinds m :=
  .of_notes rfl hup

theorem Unwinds.trans (h : m.Unwinds l) (h' : l.Unwinds n) : m.Unwinds n :=
  ⟨h'.interrupted, h'.trace.trans h.trace, h'.lastError.trans h.lastError⟩

theorem Unwinds.of_heeds (h : m.Heeds n) (hdepth : 0 < m.depth) (hup : m.interrupted = true) : m.Unwinds n :=
  ⟨h.flag hup, h.trace hdepth, h.lastError hdepth⟩

/-- A stop of an execution that is not the outermost is passed on. -/
theorem leaveExecution_exit_inner (start : Depths) (receiver : Value) (hinner : m.depth - 1 ≠ 0) :
    m.leaveExecution start receiver (.error .exit)
      = ({ m.restore start receiver with depth := m.depth - 1 }, .error .exit) := by
  unfold leaveExecution
  dsimp only
  exact if_neg hinner

/-- A stop of the outermost execution ends with it. -/
theorem leaveExecution_exit_outermost (start : Depths) (receiver : Value) (houter : m.depth - 1 = 0) :
    m.leaveExecution start receiver (.error .exit)
      = ({ m.restore start receiver with depth := 0, interrupted := false }, .ok .undefined) := by
  unfold leaveExecution
  dsimp only
  rw [if_pos (show (restore { m with depth := m.depth - 1 } start receiver).depth = 0 from houter), houter]
  rfl

end Machine

namespace Moment

open Machine (IsOutside)

variable {W : Type} {env : Embedding W} {M M' : Moment W} {base : Nat}

/-- Within an execution, what follows a request to stop is unwinding. -/
theorem Next.unwinds (henv : env.Heedful) (h : Next env M M') (hobeys : M.Obeys) (hM : M.Heedful base) (hbase : 0 < base)
    (hup : M.machine.interrupted = true) : M.machine.Unwinds M'.machine := by
  have hdepth : 0 < M.machine.depth := Nat.lt_of_lt_of_le hbase hM.base_le
  have hstep {m : Machine W} {P : Prop} (hm : m.interrupted = true) (hgo : m.interrupted = false) : P := by
    cases hm.symm.trans hgo
  have hafter := (h.heedful henv hM).base_le
  cases h with
  | stopped _ => exact .refl hup
  | failed hgo hadvance | finished hgo hadvance | goOn hgo hadvance | host hgo hadvance => exact hstep hup hgo
  | @resumed m K offset slot c entries v => exact .of_notes (Machine.notes_leaveHost m) hup
  | @hostFailed m K offset slot c entries e =>
    obtain ⟨D, hends, hK⟩ := hobeys
    cases hK with
    | run hpass hK =>
      obtain rfl := Machine.eq_exit_of_not_fails (hpass _ (hends hup))
      exact .of_notes (Machine.notes_leaveHost m) hup
  | unloaded hload | enter hload => exact ⟨hup, rfl, rfl⟩
  | @left m K r start receiver =>
    obtain ⟨D, hends, hK⟩ := hobeys
    cases hK with
    | execution hpass hK =>
      obtain rfl : r = .error .exit := hpass _ (hends hup)
      have hinner : m.depth - 1 ≠ 0 := by
        intro houter
        replace hafter : base ≤ (m.leaveExecution start receiver (.error .exit)).1.depth := hafter
        rw [Machine.leaveExecution_exit_outermost start receiver houter] at hafter
        exact absurd hafter (Nat.not_le.mpr hbase)
      show m.Unwinds (m.leaveExecution start receiver (.error .exit)).1
      rw [Machine.leaveExecution_exit_inner start receiver hinner]
      exact ⟨hup, rfl, rfl⟩
  | function => exact .refl hup
  | outside houtside => exact ⟨hup, rfl, rfl⟩
  | uncallable houtside hcode => exact .refl hup
  | outsideLeft => exact ⟨hup, rfl, rfl⟩
  | done => exact .of_heeds hM.now hdepth hup
  | code | value => exact .of_heeds hM.now.1 hdepth hup
  | answered => exact .refl hup

/-- From a request to stop on, there is nothing but unwinding within an execution. -/
theorem Later.unwinds (henv : env.Heedful) (hoblige : env.Obliging) (h : Later env M M')
    (hloads : ∀ M', Later env M M' → M'.Loads) (hobeys : M.Obeys) (hM : M.Heedful base) (hbase : 0 < base)
    (hup : M.machine.interrupted = true) : M.machine.Unwinds M'.machine := by
  induction h with
  | refl => exact .refl hup
  | tail hlater hsoon ih =>
    rcases hsoon with hnext | ⟨m, c, entries, K⟩
    · exact ih.trans (hnext.unwinds henv (Later.obeys hoblige hlater (fun M₂ hbefore _ => hloads M₂ hbefore) hobeys)
        (Later.heedful henv hlater hM) hbase ih.interrupted)
    · exact ih.trans ⟨rfl, rfl, rfl⟩

/-! ## Requests -/

section Requests

variable {l : Machine W} {a : Action W Value} {R : Moment W} {K : List (Waiting W)}

/-- The run that a request starts, before anything happened in it. -/
theorem Starts.first (h : Starts l a R K) (hdepth : l.depth = 0) :
    R.Heedful 1 ∧ R.Obeys ∧ R.machine.lastError = none := by
  cases h with
  | @intro m start receiver args next c hexecutes hload =>
    obtain ⟨program, rfl⟩ := hexecutes.machine
    refine ⟨⟨trivial, ?_⟩, ⟨Exits, rfl, .nil fun _ hr => hr⟩, rfl⟩
    show l.depth + 1 = 1
    rw [hdepth]

/-- A stop is passed on, or it ended with the outermost execution. -/
structure Unwound (m : Machine W) (M : Moment W) : Prop where
  idle : ¬ M.Dispatches
  trace : M.machine.trace = m.trace
  lastError : M.machine.lastError = none
  interrupted : M.machine.interrupted = true ↔ 0 < M.machine.depth

theorem not_dispatches_of_interrupted (hup : M.machine.interrupted = true) : ¬ M.Dispatches := by
  intro h
  cases M with
  | ended m r K => exact h
  | going t K =>
    cases t with
    | running m c entries => cases hup.symm.trans h
    | _ => exact h

theorem Unwound.on {m : Machine W} (h : Unwound m M) (K : List (Waiting W)) : Unwound m (M.on K) := by
  cases M with
  | going t K' => exact ⟨fun hgo => h.idle (by cases t <;> exact hgo), h.trace, h.lastError, h.interrupted⟩
  | ended n r K' => exact ⟨id, h.trace, h.lastError, h.interrupted⟩

/-- A stop was asked for in a run that a request started. -/
structure Stops (env : Embedding W) (M : Moment W) : Prop where
  interrupted : M.machine.interrupted = true
  lastError : M.machine.lastError = none
  heedful : M.Heedful 1
  obeys : M.Obeys
  loads : ∀ {M'}, Later env M M' → M'.Loads

/-- Within the run that a request started, a stop is passed on. -/
theorem Stops.unwound (h : M.Stops env) (henv : env.Heedful) (hobliging : env.Obliging) (hM : Later env M M') :
    Unwound M.machine M' := by
  have hunwinds := Later.unwinds henv hobliging hM (fun _ => h.loads) h.obeys h.heedful Nat.one_pos h.interrupted
  have hdepth : 1 ≤ M'.machine.depth := (Later.heedful henv hM h.heedful).base_le
  exact ⟨not_dispatches_of_interrupted hunwinds.interrupted, hunwinds.trace, hunwinds.lastError.trans h.lastError,
    fun _ => hdepth, fun _ => hunwinds.interrupted⟩

/-- The run that a request started ends with the stop. -/
theorem Stops.exits (h : M.Stops env) (henv : env.Heedful) (hobliging : env.Obliging) {n : Machine W}
    {r : Except Error Value} (hM : Later env M (ended n r [])) : r = .error .exit ∧ n.depth = 1 := by
  obtain ⟨D, hends, hK⟩ := Later.obeys hobliging hM (fun _ hbefore _ => h.loads hbefore) h.obeys
  cases hK with
  | nil hpass =>
    have hup : n.interrupted = true :=
      (Later.unwinds henv hobliging hM (fun _ => h.loads) h.obeys h.heedful Nat.one_pos h.interrupted).interrupted
    exact ⟨hpass r (hends hup), (Later.heedful henv hM h.heedful).counted⟩

/-- After a stop, the request is on the way back in the run that it started, or it is over but for its account. -/
theorem Stops.later (h : M.Stops env) (henv : env.Heedful) (hobliging : env.Obliging) (hstarts : Starts l a R K)
    (hM : Later env (M.on K) M') :
    (∃ M₂, Later env M M₂ ∧ M' = M₂.on K)
      ∨ ∃ n next, Later env M (ended n (.error .exit) [])
        ∧ Later env (ended { n.restore l.depths l.receiver with depth := 0, interrupted := false } (.ok .undefined)
          [.action next]) M'
        ∧ ∀ n r, ∃ p, next n r = .done (Machine.concluded { n with program := p } r) r := by
  rcases Later.of_on hM with hinside | ⟨n, r, hover, hafter⟩
  · exact .inl hinside
  · obtain ⟨rfl, hn⟩ := h.exits henv hobliging hover
    rcases hstarts.after hafter with rfl | ⟨next, hclosing, hnext⟩
    · exact .inl ⟨_, hover, rfl⟩
    · rw [Machine.leaveExecution_exit_outermost l.depths l.receiver (by omega)] at hclosing
      exact .inr ⟨n, next, hover, hclosing, hnext⟩

/-- A request is over but for its account, and nothing was asked of the machine any more. -/
structure Closed (m : Machine W) (M : Moment W) : Prop where
  idle : ¬ M.Dispatches
  depth : M.machine.depth = 0
  interrupted : M.machine.interrupted = m.interrupted
  trace : M.machine.trace = m.trace
  lastError : M.machine.lastError = m.lastError
  depths : M.machine.depths = m.depths
  result : ∀ {n r K}, M = ended n r K → r = .ok .undefined

theorem Later.closed {m : Machine W} {next : Machine W → Except Error Value → Action W Value} (hm : m.depth = 0)
    (hnext : ∀ n r, ∃ p, next n r = .done (Machine.concluded { n with program := p } r) r)
    (h : Later env (ended m (.ok .undefined) [.action next]) M) : Closed m M := by
  rcases Later.closing hnext h with rfl | rfl | ⟨p, rfl⟩
  · exact ⟨id, hm, rfl, rfl, rfl, rfl, fun heq => by cases heq; rfl⟩
  · exact ⟨id, hm, rfl, rfl, rfl, rfl, fun heq => by cases heq⟩
  · exact ⟨id, hm, rfl, rfl, rfl, rfl, fun heq => by cases heq; rfl⟩

end Requests

/-! ## The way back comes to an end -/

/-- Functions outside of the code that are called from now on come to an end, and no file has to be fetched. -/
structure Unhindered (env : Embedding W) (M : Moment W) : Prop where
  files : ∀ {m path K}, ¬ Later env M (going (.action m (.needsFile path)) K)
  outside : ∀ {m callee receiver args K}, IsOutside callee → Later env M (going (.call m callee receiver args) K) →
    ∃ n r, Leads env (going (.call m callee receiver args) []) (ended n r [])

theorem Unhindered.of_on {K : List (Waiting W)} (h : Unhindered env (M.on K)) : Unhindered env M :=
  ⟨fun hlater => h.files (Later.on hlater K), fun hcallee hlater => h.outside hcallee (Later.on hlater K)⟩

section Returns

variable {K : List (Waiting W)} (hstop : ∀ M', Later env M M' → M'.machine.interrupted = true ∧ M'.Loads)
  (hfree : Unhindered env M)

include hstop

theorem returns_running {m : Machine W} {c : Cursor} {entries : List Depths}
    (h : Later env M (going (.running m c entries) K)) : ∃ n r, Leads env (going (.running m c entries) K) (ended n r K) :=
  ⟨m, _, .single (.stopped (hstop _ h).1)⟩

theorem returns_execution {m : Machine W} {start : Nat} {receiver : Value} {args : List Value}
    (h : Later env M (going (.execution m start receiver args) K)) :
    ∃ n r, Leads env (going (.execution m start receiver args) K) (ended n r K) := by
  obtain ⟨c, hload⟩ := (hstop _ h).2
  obtain ⟨n, r, hrun⟩ := returns_running hstop (.tail h (.inl (.enter hload)))
  exact ⟨_, _, .head (.enter hload) (.tail hrun .left)⟩

include hfree

theorem returns_call {m : Machine W} {callee receiver : Value} {args : List Value}
    (h : Later env M (going (.call m callee receiver args) K)) :
    ∃ n r, Leads env (going (.call m callee receiver args) K) (ended n r K) := by
  by_cases houtside : IsOutside callee
  · obtain ⟨n, r, hcall⟩ := hfree.outside houtside h
    exact ⟨n, r, hcall.on K⟩
  · by_cases hcode : ∃ start, callee = .function start
    · obtain ⟨start, rfl⟩ := hcode
      obtain ⟨n, r, hexecution⟩ := returns_execution hstop (.tail h (.inl .function))
      exact ⟨n, r, .head .function hexecution⟩
    · exact ⟨m, _, .single (.uncallable houtside fun start hstart => hcode ⟨start, hstart⟩)⟩

/-- By induction on what is left of the action. -/
theorem returns_action (a : Action W Value) {m : Machine W} (h : Later env M (going (.action m a) K)) :
    ∃ n r, Leads env (going (.action m a) K) (ended n r K) := by
  induction a generalizing m with
  | done n r => exact ⟨n, r, .single .done⟩
  | needsFile path => exact absurd h hfree.files
  | call l callee receiver args next ih =>
    have hrest {l' : Machine W} {r : Except Error Value} {t : Activity W}
        (hbefore : Later env M (going t (.action next :: K)))
        (hcall : Leads env (going t (.action next :: K)) (ended l' r (.action next :: K))) :
        ∃ n r', Leads env (going t (.action next :: K)) (ended n r' K) := by
      obtain ⟨n, r', hnext⟩ := ih l' r (.tail (.trans hbefore (Leads.later hcall)) (.inl .answered))
      exact ⟨n, r', .trans hcall (.head .answered hnext)⟩
    cases callee with
    | code start =>
      have hbefore := Relation.ReflTransGen.tail h (.inl .code)
      obtain ⟨l', r, hcall⟩ := returns_execution hstop hbefore
      obtain ⟨n, r', hleads⟩ := hrest hbefore hcall
      exact ⟨n, r', .head .code hleads⟩
    | value v =>
      have hbefore := Relation.ReflTransGen.tail h (.inl .value)
      obtain ⟨l', r, hcall⟩ := returns_call hstop hfree hbefore
      obtain ⟨n, r', hleads⟩ := hrest hbefore hcall
      exact ⟨n, r', .head .value hleads⟩

theorem returns_going (t : Activity W) (h : Later env M (going t K)) : ∃ n r, Leads env (going t K) (ended n r K) := by
  cases t with
  | running m c entries => exact returns_running hstop h
  | execution m start receiver args => exact returns_execution hstop h
  | call m callee receiver args => exact returns_call hstop hfree h
  | action m a => exact returns_action hstop hfree a h

/-- By induction on what waits. -/
theorem returns_ended (K : List (Waiting W)) {m : Machine W} {r : Except Error Value} (h : Later env M (ended m r K)) :
    ∃ n r', Leads env (ended m r K) (ended n r' []) := by
  induction K generalizing m r with
  | nil => exact ⟨m, r, .refl⟩
  | cons w K ih =>
    have hnext {M' : Moment W} (hsoon : Next env (ended m r (w :: K)) M')
        (hM' : ∃ l r', Leads env M' (ended l r' K)) : ∃ n r', Leads env (ended m r (w :: K)) (ended n r' []) := by
      obtain ⟨l, r', hleads⟩ := hM'
      have hbefore : Leads env (ended m r (w :: K)) (ended l r' K) := .head hsoon hleads
      obtain ⟨n, r'', hrest⟩ := ih (.trans h (Leads.later hbefore))
      exact ⟨n, r'', .trans hbefore hrest⟩
    cases w with
    | run offset slot c entries =>
      cases r with
      | ok v => exact hnext .resumed (returns_going hstop hfree _ (.tail h (.inl .resumed)))
      | error e => exact hnext .hostFailed ⟨_, _, .refl⟩
    | execution start receiver => exact hnext .left ⟨_, _, .refl⟩
    | call size receiver => exact hnext .outsideLeft ⟨_, _, .refl⟩
    | action next => exact hnext .answered (returns_going hstop hfree _ (.tail h (.inl .answered)))

/-- Once a stop was asked for, everything comes to an end, if functions outside of the code do. -/
theorem exists_end : ∃ n r, Leads env M (ended n r []) := by
  cases M with
  | ended m r K => exact returns_ended hstop hfree K .refl
  | going t K =>
    obtain ⟨l, r, hnow⟩ := returns_going hstop hfree t .refl
    obtain ⟨n, r', hrest⟩ := returns_ended hstop hfree K (Leads.later hnow)
    exact ⟨n, r', .trans hnow hrest⟩

end Returns

end Moment

/-! ## Requests on machines of a session -/

namespace Machine

variable {W : Type} {env : Embedding W} {l n : Machine W} {q : Request} {M : Moment W}

/-- Nothing is under way: there is the scope of global variables, and that is all. -/
def Idle (m : Machine W) : Prop :=
  m.depths = ⟨0, 0, 0, 1, 0⟩

theorem depths_restore_le (n : Machine W) (d : Depths) (receiver : Value) : (n.restore d receiver).depths.Le d := by
  constructor <;>
  · simp only [restore, cutBack, depths, Array.size_shrink]
    omega

theorem Scoped.depths_restore (h : n.Scoped) (receiver : Value) :
    (n.restore ⟨0, 0, 0, 1, 0⟩ receiver).depths = ⟨0, 0, 0, 1, 0⟩ := by
  have hscopes := h.scopes
  simp only [restore, cutBack, depths, Array.size_shrink, Depths.mk.injEq]
  omega

/-- What goes on within an execution, when a request for code is made with none around it, is the run that the request
starts; and that run is part of some session. -/
theorem Request.exists_run (henv : env.Steady) (hheedful : env.Heedful) (hmade : q.MadeOn env l) (hdepth : l.depth = 0)
    (hcode : ¬ q.Outside) (hM : Moment.Later env (q.start env l) M) (hwithin : 0 < M.machine.depth)
    (hsourced : M.machine.program.Sourced) (hsmall : M.machine.program.size ≤ UInt64.size) :
    ∃ R K M₁, Moment.Starts l (q.action env l) R K ∧ Moment.Later env R M₁ ∧ M = M₁.on K
      ∧ ∃ K', (R.on K').Occurs env := by
  obtain ⟨m₀, k, K₀, hoccurs⟩ := hmade
  have htidy : (q.start env l).Tidy := ⟨q.tidy l, fun w hw => absurd hw List.not_mem_nil⟩
  have hloads {m : Machine W} {start : Nat} {receiver : Value} {args : List Value}
      {next : Machine W → Except Error Value → Action W Value}
      (hexecutes : Moment.Executes l (q.action env l) m start receiver args next)
      (hafter : Moment.Later env (.going (.execution m start receiver args) [.action next]) M) :
      ∃ c, Cursor.load m.program start .nop = .ok c := by
    obtain ⟨-, hbefore⟩ := Moment.Later.grows henv (Moment.Leads.later (hexecutes.leads l [])) htidy
    obtain ⟨hgrows, -⟩ := Moment.Later.grows henv hafter hbefore
    have hexecution := hoccurs.later (Moment.Leads.later (hexecutes.leads_bind k m₀ K₀))
    exact hexecution.loads henv (hsourced.of_partOf hgrows.partOf) (Nat.le_trans hgrows.size_le hsmall)
  obtain ⟨R, K, hstarts, hrun⟩ := Moment.Later.starts (q.once hdepth) hcode hdepth hloads hM hwithin
  obtain ⟨K', hleads⟩ := hstarts.leads (m := m₀) k K₀
  have hR : ∃ K', (R.on K').Occurs env := ⟨K', hoccurs.later (Moment.Leads.later hleads)⟩
  rcases Moment.Later.of_on hrun with ⟨M₁, hlater, rfl⟩ | ⟨n, r, hover, hafter⟩
  · exact ⟨R, K, M₁, hstarts, hlater, rfl, hR⟩
  · rcases hstarts.after hafter with rfl | ⟨next, hclosing, hnext⟩
    · exact ⟨R, K, .ended n r [], hstarts, hover, rfl, hR⟩
    · have hn : n.depth = 1 := (Moment.Later.heedful hheedful hover (hstarts.first hdepth).1).counted
      have hleft : (n.leaveExecution l.depths l.receiver r).1.depth = 0 := by
        refine (congrArg Prod.fst (account_leaveExecution n l.depths l.receiver r)).trans ?_
        show n.depth - 1 = 0
        rw [hn]
      have hzero : M.machine.depth = 0 := by
        rcases Moment.Later.closing hnext hclosing with rfl | rfl | ⟨p, rfl⟩
        · exact hleft
        · exact hleft
        · exact (depth_concluded _ _).trans hleft
      rw [hzero] at hwithin
      exact absurd hwithin (Nat.lt_irrefl 0)

/-- A request for code is stopped in the run that it started. -/
theorem Request.exists_stops (henv : env.Steady) (hheedful : env.Heedful) (hobliging : env.Obliging)
    (hmade : q.MadeOn env l) (hdepth : l.depth = 0) (hcode : ¬ q.Outside) (hM : Moment.Later env (q.start env l) M)
    (hscripts : ∀ M', Moment.Later env M M' →
      M'.machine.program.Sourced ∧ M'.machine.program.size ≤ UInt64.size)
    (hwithin : 0 < M.machine.depth) (hup : M.machine.interrupted = true) :
    ∃ R K M₁, Moment.Starts l (q.action env l) R K ∧ M = M₁.on K ∧ M₁.Stops env
      ∧ ∀ M₂, Moment.Later env M₁ M₂ → M₂.machine.Scoped := by
  obtain ⟨hsourced, hsmall⟩ := hscripts M .refl
  obtain ⟨R, K, M₁, hstarts, hlater, rfl, K', hoccurs⟩ :=
    Request.exists_run henv hheedful hmade hdepth hcode hM hwithin hsourced hsmall
  obtain ⟨hfirst, hobeys, hlast⟩ := hstarts.first hdepth
  rw [Moment.machine_on] at hsourced hsmall hup
  have hinside {M₂ : Moment W} (h : Moment.Later env R M₂) : (M₂.on K').Occurs env :=
    hoccurs.later (Moment.Later.on h K')
  have hfinds {M₂ : Moment W} (h : Moment.Later env R M₂) (hsourced : M₂.machine.program.Sourced)
      (hsmall : M₂.machine.program.size ≤ UInt64.size) : M₂.Loads := by
    rw [← Moment.machine_on M₂ K'] at hsourced hsmall
    exact Moment.loads_of_on ((hinside h).loads henv hsourced hsmall)
  have hbefore {M₂ : Moment W} (h : Moment.Later env R M₂) (h' : Moment.Later env M₂ M₁) : M₂.Loads := by
    obtain ⟨hgrows, -⟩ := Moment.Later.grows henv (Moment.Later.on h' K') ((hinside h).grows henv).2
    rw [Moment.machine_on, Moment.machine_on] at hgrows
    exact hfinds h (hsourced.of_partOf hgrows.partOf) (Nat.le_trans hgrows.size_le hsmall)
  refine ⟨R, K, M₁, hstarts, rfl, ⟨hup, ?_, ?_, ?_, fun {M₂} h => ?_⟩, fun M₂ h => ?_⟩
  · exact (Moment.Later.lastError hheedful hlater hfirst Nat.one_pos).trans hlast
  · exact Moment.Later.heedful hheedful hlater hfirst
  · exact Moment.Later.obeys hobliging hlater (fun _ => hbefore) hobeys
  · obtain ⟨hsourced₂, hsmall₂⟩ := hscripts _ (Moment.Later.on h K)
    rw [Moment.machine_on] at hsourced₂ hsmall₂
    exact hfinds (.trans hlater h) hsourced₂ hsmall₂
  · have hscopes := ((hinside (.trans hlater h)).scoped henv).machine
    rwa [Moment.machine_on] at hscopes

/-- An interruption cannot be swallowed. When a stop was asked for within an execution that a request started, by a
function outside of the code or by somebody else between two instructions, then no instruction is carried out any
more, however deep executions are nested and whatever functions outside of the code make of the stop; nothing is
noted, neither a line of the trace nor an error; the request to stop stands until the outermost execution has
ended, and is gone after that. The request for code ends with undefined and with the stacks cut back to the sizes
that it found; and it does end, if the functions outside of the code do. -/
theorem interruption_unwinds (henv : env.Steady) (hheedful : env.Heedful) (hobliging : env.Obliging)
    (hmade : q.MadeOn env l) (hdepth : l.depth = 0) (hcode : ¬ q.Outside) (hM : Moment.Later env (q.start env l) M)
    (hscripts : ∀ M', Moment.Later env M M' →
      M'.machine.program.Sourced ∧ M'.machine.program.size ≤ UInt64.size)
    (hwithin : 0 < M.machine.depth) (hup : M.machine.interrupted = true) :
    (∀ M', Moment.Later env M M' → Moment.Unwound M.machine M'
        ∧ (M'.machine.interrupted = false → ∀ M'', Moment.Later env M' M'' → M''.machine.interrupted = false))
      ∧ (∀ n r, Moment.Later env M (.ended n r []) → r = .ok .undefined ∧ n.depth = 0 ∧ n.depths.Le l.depths
        ∧ (l.Idle → n.Idle))
      ∧ (Moment.Unhindered env M → ∃ n r, Moment.Leads env M (.ended n r [])) := by
  obtain ⟨R, K, M₁, hstarts, rfl, hstops, hscopes⟩ :=
    Request.exists_stops henv hheedful hobliging hmade hdepth hcode hM hscripts hwithin hup
  have hclosed {n : Machine W} {M' : Moment W} {next : Machine W → Except Error Value → Action W Value}
      (hnext : ∀ n r, ∃ p, next n r = .done (concluded { n with program := p } r) r)
      (hafter : Moment.Later env (.ended { n.restore l.depths l.receiver with depth := 0, interrupted := false }
        (.ok .undefined) [.action next]) M') :
      Moment.Closed { n.restore l.depths l.receiver with depth := 0, interrupted := false } M' :=
    Moment.Later.closed rfl hnext hafter
  rw [Moment.machine_on]
  refine ⟨fun M' hM' => ?_, fun n r hend => ?_, fun hfree => ?_⟩
  · rcases hstops.later hheedful hobliging hstarts hM' with ⟨M₂, hinside, rfl⟩ | ⟨n, next, hover, hafter, hnext⟩
    · have hunwound := hstops.unwound hheedful hobliging hinside
      refine ⟨hunwound.on K, fun hdown => ?_⟩
      have hrunning : 0 < M₂.machine.depth := (Moment.Later.heedful hheedful hinside hstops.heedful).base_le
      rw [Moment.machine_on] at hdown
      cases hdown.symm.trans (hunwound.interrupted.mpr hrunning)
    · have hn := hstops.unwound hheedful hobliging hover
      obtain ⟨hidle, hzero, hdown, htrace, hlast, -, -⟩ := hclosed hnext hafter
      refine ⟨⟨hidle, htrace.trans hn.trace, hlast.trans hn.lastError, ?_⟩, fun _ M'' hM'' => ?_⟩
      · rw [hdown, hzero]
        simp
      · exact (hclosed hnext (.trans hafter hM'')).interrupted
  · rcases hstops.later hheedful hobliging hstarts hend with ⟨M₂, hinside, heq⟩ | ⟨n₁, next, hover, hafter, hnext⟩
    · cases hstarts with
      | intro hexecutes hload => cases M₂ <;> simp [Moment.on] at heq
    · obtain ⟨-, hzero, -, -, -, hdepths, hresult⟩ := hclosed hnext hafter
      have hcut : n.depths = (n₁.restore l.depths l.receiver).depths := hdepths
      refine ⟨hresult rfl, hzero, hcut ▸ depths_restore_le n₁ l.depths l.receiver, fun hidle => ?_⟩
      have hscopes : n₁.Scoped := hscopes _ hover
      rw [Idle, hcut, show l.depths = ⟨0, 0, 0, 1, 0⟩ from hidle]
      exact hscopes.depths_restore l.receiver
  · have hstop : ∀ M₂, Moment.Later env M₁ M₂ → M₂.machine.interrupted = true ∧ M₂.Loads := fun M₂ h =>
      ⟨(hstops.unwound hheedful hobliging h).interrupted.mpr
        (Moment.Later.heedful hheedful h hstops.heedful).base_le, hstops.loads h⟩
    obtain ⟨n, r, hleads⟩ := Moment.exists_end hstop (Moment.Unhindered.of_on hfree)
    obtain ⟨m', r', hclosing⟩ := hstarts.ends n r
    exact ⟨m', r', .trans (hleads.on K) hclosing⟩

/-! ## A stop that is not passed on -/

/-- A function that asks for a stop. -/
def halt : Native Unit where
  name := "stop"
  call m _ _ := .done m.interrupt (.ok .undefined)

/-- An embedder with a function that asks for a stop, and one that makes a value of whatever comes of a call. -/
def halting : Embedding Unit := ⟨#[attempt, halt], none, fun _ _ => .unknown⟩

theorem mem_halting {f : Native Unit} (hf : f ∈ halting.natives) : f = attempt ∨ f = halt := by
  simpa [halting] using hf

theorem halting_steady : halting.Steady where
  natives f hf m receiver args := by
    rcases mem_halting hf with rfl | rfl
    · exact ⟨.refl m, trivial, fun n result _ => Onward.refl n⟩
    · exact SameStacks.onward ⟨rfl, rfl, rfl, rfl, rfl⟩ rfl
  nativesHonest f hf S m receiver args hm hreceiver hargs := by
    rcases mem_halting hf with rfl | rfl
    · exact ⟨⟨hm, Values.within_arg hargs 0, Value.within_undefined, fun _ hv => absurd hv List.not_mem_nil⟩,
        fun n result hn _ => ⟨hn, Result.within_ok (Value.within_of_ne fun _ h => by cases h)⟩⟩
    · exact ⟨hm.change (g := interrupt) (fun _ _ => rfl) ⟨rfl, rfl, rfl⟩, Result.within_ok Value.within_undefined⟩
  host host hhost := by cases hhost
  hostHonest host hhost := by cases hhost

theorem halting_heedful : halting.Heedful where
  natives f hf m receiver args := by
    rcases mem_halting hf with rfl | rfl
    · exact ⟨.refl m, fun n r _ => .refl n⟩
    · exact ⟨rfl, rfl, fun _ => rfl, fun _ => rfl, fun _ => rfl⟩
  host host hhost := by cases hhost

theorem halting_obliging : halting.Obliging where
  natives f hf m receiver args _ := by
    rcases mem_halting hf with rfl | rfl
    · exact fun n r _ _ => not_fails_ok _
    · exact fun _ => not_fails_ok _
  host host hhost := by cases hhost

/-- A script with a stop in a nested execution, which its caller swallows. -/
def swallowing : String := "attempt(function() { stop(); }); 1"

/-- A unit is all code that there is. -/
def hasOnly (unit : Array UInt8) (m : Machine Unit) : Bool :=
  (m.program.parts.all fun part => part.data == unit) && decide (m.program.size ≤ UInt64.size)

theorem sourced_of_hasOnly {source : String} {unit : Array UInt8} {m : Machine Unit}
    (hunit : (Code.compile "t.js" source 1).toOption = some unit) (h : hasOnly unit m = true) :
    m.program.Sourced ∧ m.program.size ≤ UInt64.size := by
  simp only [hasOnly, Bool.and_eq_true, decide_eq_true_eq, Array.all_eq_true', beq_iff_eq] at h
  refine ⟨fun part hpart => ⟨"t.js", source, 1, ?_⟩, h.2⟩
  rw [h.1 part hpart]
  cases hcompile : Code.compile "t.js" source 1 with
  | error e =>
    rw [hcompile] at hunit
    cases hunit
  | ok compiled =>
    rw [hcompile] at hunit
    exact congrArg Except.ok (Option.some.inj hunit)

/-- No instruction can come next, no function outside of the code is called, and no file has to be fetched. -/
def onlyUnwinds : Moment Unit → Bool
  | .going (.running m _ _) _ => m.interrupted
  | .going (.call _ (.function _) _ _) _ => true
  | .going (.call _ _ _ _) _ => false
  | .going (.action _ (.needsFile _)) _ => false
  | _ => true

/-- From now on to an end within some steps, there is only unwinding, and no code besides a unit. -/
def unwindsWithin (unit : Array UInt8) : Nat → Moment Unit → Bool
  | 0, _ => false
  | steps + 1, M =>
    onlyUnwinds M && hasOnly unit M.machine
      && match M.next? halting with
        | some M' => unwindsWithin unit steps M'
        | none => true

/-- Nobody changes anything any more by asking for a stop. -/
theorem unwindsWithin_later {unit : Array UInt8} {steps : Nat} {M M' : Moment Unit}
    (h : unwindsWithin unit steps M = true) (hM : Moment.Later halting M M') :
    ∃ steps', unwindsWithin unit steps' M' = true := by
  induction hM with
  | refl => exact ⟨steps, h⟩
  | tail _ hsoon ih =>
    obtain ⟨steps', h'⟩ := ih
    cases steps' with
    | zero => cases h'
    | succ steps' =>
      have h'' := h'
      simp only [unwindsWithin, Bool.and_eq_true] at h''
      rcases hsoon with hnext | ⟨m, c, entries, K⟩
      · rw [Moment.next_iff.mp hnext] at h''
        exact ⟨steps', h''.2⟩
      · have hup : m.interrupted = true := h''.1.1
        have hsame : m.interrupt = m := by
          cases m
          cases hup
          rfl
        exact ⟨steps' + 1, hsame ▸ h'⟩

theorem onlyUnwinds_later {unit : Array UInt8} {steps : Nat} {M M' : Moment Unit}
    (h : unwindsWithin unit steps M = true) (hM : Moment.Later halting M M') :
    onlyUnwinds M' = true ∧ hasOnly unit M'.machine = true := by
  obtain ⟨steps', h'⟩ := unwindsWithin_later h hM
  cases steps' with
  | zero => cases h'
  | succ steps' =>
    simp only [unwindsWithin, Bool.and_eq_true] at h'
    exact h'.1

theorem unhindered_of_unwindsWithin {unit : Array UInt8} {steps : Nat} {M : Moment Unit}
    (h : unwindsWithin unit steps M = true) : Moment.Unhindered halting M := by
  constructor
  · intro m path K hM
    cases (onlyUnwinds_later h hM).1
  · intro m callee receiver args K houtside hM
    have hcall := (onlyUnwinds_later h hM).1
    rcases houtside with ⟨id, rfl⟩ | ⟨id, rfl⟩ <;> cases hcall

/-- A request to run it. -/
def swallowed : Request :=
  .exec "t.js" swallowing

/-- The stop is asked for in a nested execution, which its caller swallows. -/
def swallows (l : Machine Unit) : Bool :=
  l.depth == 0 && decide (l.depths = ⟨0, 0, 0, 1, 0⟩)
    && ((Code.compile "t.js" swallowing 1).toOption.any fun unit =>
      (Moment.after? halting 20 (swallowed.start halting l)).any fun M =>
        M.machine.depth == 2 && M.machine.interrupted && unwindsWithin unit 12 M)

theorem interruption_unwinds_swallowing : ∃ (l n : Machine Unit) (M : Moment Unit),
    swallowed.MadeOn halting l ∧ l.depth = 0 ∧ Moment.Later halting (swallowed.start halting l) M
      ∧ M.machine.depth = 2 ∧ M.machine.interrupted = true ∧ Moment.Leads halting M (.ended n (.ok .undefined) [])
      ∧ n.interrupted = false ∧ n.Idle := by
  have hcheck : (furnished? halting).any swallows = true := by decide +kernel
  obtain ⟨l, hl, hswallows⟩ := (Option.any_eq_true _ _).mp hcheck
  simp only [swallows, Bool.and_eq_true, beq_iff_eq, decide_eq_true_eq, Option.any_eq_true] at hswallows
  obtain ⟨⟨hdepth, hidle⟩, unit, hunit, M, hM, ⟨hinner, hup⟩, hunwinds⟩ := hswallows
  have hlater : Moment.Later halting (swallowed.start halting l) M := Moment.Leads.later (Moment.leads_of_after hM)
  have hmade : swallowed.MadeOn halting l := Request.madeOn_furnished hl "t.js" swallowing
  have hend := interruption_unwinds halting_steady halting_heedful halting_obliging hmade hdepth id hlater
    (fun M' hM' => sourced_of_hasOnly hunit (onlyUnwinds_later hunwinds hM').2) (by omega) hup
  obtain ⟨n, r, hleads⟩ := hend.2.2 (unhindered_of_unwindsWithin hunwinds)
  obtain ⟨rfl, hzero, -, hrestored⟩ := hend.2.1 n r (Moment.Leads.later hleads)
  have hunwound := (hend.1 _ (Moment.Leads.later hleads)).1
  refine ⟨l, n, M, hmade, hdepth, hlater, hinner, hup, hleads, ?_, hrestored hidle⟩
  refine Bool.eq_false_iff.mpr fun hflag => ?_
  have hrunning : 0 < n.depth := hunwound.interrupted.mp hflag
  omega

end Machine

end ScriptEngine
