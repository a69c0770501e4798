import ScriptEngine.Proofs.Machine.Unwinding
/-!
Everything that goes on in a session.

An `Activity` is a run at a cursor, an execution, a call or an action, on the machine that it starts with;
`Activity.Leads` relates it to the ones that it goes on with and to those nested in it, whether they come to
an end or not. Runs note the sizes of the stacks with which their calls were entered. What is known of an
activity over a program with charts (`Activity.Sound`) is known of all that it leads to, as long as the code
stays part of that program (`Activity.Leads.sound`).
-/

namespace ScriptEngine

open Code (Charts Level Program)

/-- Something that goes on. -/
inductive Activity (W : Type) where
  /-- A run at a cursor, with the sizes of the stacks with which the calls that it is in were entered,
  innermost first. -/
  | running (m : Machine W) (c : Cursor) (entries : List Depths)
  | execution (m : Machine W) (start : Nat) (receiver : Value) (args : List Value)
  | call (m : Machine W) (callee receiver : Value) (args : List Value)
  /-- What is left of an action, and the machine from which it goes on. -/
  | action (m : Machine W) (a : Action W Value)

namespace Activity

open Machine (advance callHost callCallee perform)

variable {W : Type} {env : Embedding W}

/-- The machine that an activity starts with. -/
def machine : Activity W → Machine W
  | running m _ _ | execution m _ _ _ | call m _ _ _ | action m _ => m

/-- What comes of an activity. -/
def outcome (env : Embedding W) (budget : Nat) : Activity W → Outcome W Value
  | running m c _ => Machine.run env m c budget
  | execution m start receiver args => Machine.execute env m start receiver args budget
  | call m callee receiver args => Machine.callValue env m callee receiver args budget
  | action _ a => perform env a budget

/-- What an activity goes on with, or waits for. -/
inductive Next (env : Embedding W) : Activity W → Activity W → Prop
  | step {m m' : Machine W} {c c' : Cursor} {entries : List Depths} (hgo : m.interrupted = false)
    (h : advance env c m.collectIfNeeded = .ok (.goOn c') m') :
    Next env (running m c entries) (running m' c' (Machine.entriesAfter m.collectIfNeeded m' entries))
  | host {m m' : Machine W} {c c' : Cursor} {entries : List Depths} {callee receiver : Value} {args : List Value}
    {slot : Nat} (hgo : m.interrupted = false)
    (h : advance env c m.collectIfNeeded = .ok (.host callee receiver args slot c') m') :
    Next env (running m c entries) (action m' (callHost env m' callee receiver args))
  | resume {m m' n : Machine W} {c c' : Cursor} {entries : List Depths} {callee receiver v : Value} {args : List Value}
    {slot budget : Nat} (hgo : m.interrupted = false)
    (h : advance env c m.collectIfNeeded = .ok (.host callee receiver args slot c') m')
    (hdone : perform env (callHost env m' callee receiver args) budget = .done n (.ok v)) :
    Next env (running m c entries) (running (n.leaveHost.putResult slot v) c' entries)
  | enter {m : Machine W} {c : Cursor} {start : Nat} {receiver : Value} {args : List Value}
    (hload : Cursor.load m.program start .nop = .ok c) :
    Next env (execution m start receiver args)
      (running (m.enterExecution receiver args) c [(m.enterExecution receiver args).depths])
  | function {m : Machine W} {start : Payload} {receiver : Value} {args : List Value} :
    Next env (call m (.function start) receiver args) (execution m start.val receiver args)
  | outside {m : Machine W} {callee receiver : Value} {args : List Value}
    (h : (∃ id, callee = .native id) ∨ ∃ id, callee = .signature id) :
    Next env (call m callee receiver args) (action (m.enterHostCall callee receiver args)
      (callHost env (m.enterHostCall callee receiver args) callee receiver args))
  | code {m m' : Machine W} {start : Nat} {receiver : Value} {args : List Value}
    {next : Machine W → Except Error Value → Action W Value} :
    Next env (action m (.call m' (.code start) receiver args next)) (execution m' start receiver args)
  | value {m m' : Machine W} {callee receiver : Value} {args : List Value}
    {next : Machine W → Except Error Value → Action W Value} :
    Next env (action m (.call m' (.value callee) receiver args next)) (call m' callee receiver args)
  | result {m m' n : Machine W} {callee : Callee} {receiver : Value} {args : List Value}
    {next : Machine W → Except Error Value → Action W Value} {budget : Nat} {r : Except Error Value}
    (hdone : callCallee env m' callee receiver args budget = .done n r) :
    Next env (action m (.call m' callee receiver args next)) (action n (next n r))

/-- An activity goes on with another one after the other, or waits for it. -/
def Leads (env : Embedding W) : Activity W → Activity W → Prop :=
  Relation.ReflTransGen (Next env)

/-- An action minds the stacks. -/
def Tidy : Activity W → Prop
  | action m a => a.Tidy m
  | _ => True

/-- What is known of activities over a program whose units have charts. -/
def Sound (T : Charts) (P : Program) : Activity W → Prop
  | running m c entries =>
    m.Within (T.Entry P) ∧ ∃ start E outer L, Machine.Running T P start m c E outer L
      ∧ entries = (E :: outer).map Skeleton.depths
  | execution m start receiver args =>
    m.Within (T.Entry P) ∧ Machine.Startable T P start ∧ receiver.Within (T.Entry P) ∧ Values.Within (T.Entry P) args
  | call m callee receiver args =>
    m.Within (T.Entry P) ∧ callee.Within (T.Entry P) ∧ receiver.Within (T.Entry P) ∧ Values.Within (T.Entry P) args
  | action _ a => a.Honest (T.Entry P) (Value.Within (T.Entry P))

variable {t t' : Activity W} {T : Charts} {P : Program}

/-- The code grows, and the actions that follow mind the stacks. -/
theorem Next.grows (henv : env.Steady) (h : Next env t t') (ht : t.Tidy) :
    t.machine.program.Grows t'.machine.program ∧ t'.Tidy := by
  cases h with
  | @step m m' c c' entries hgo h =>
    have hprogram := Machine.program_step env c m
    rw [h] at hprogram
    exact ⟨(show m'.program = m.program from hprogram) ▸ .refl _, trivial⟩
  | @host m m' c c' entries callee receiver args slot hgo h =>
    have hprogram := Machine.program_step env c m
    rw [h] at hprogram
    exact ⟨(show m'.program = m.program from hprogram) ▸ .refl _, Machine.tidy_callHost henv m' callee receiver args⟩
  | @resume m m' n c c' entries callee receiver v args slot budget hgo h hdone =>
    have hprogram := Machine.program_step env c m
    rw [h] at hprogram
    have hgrows := (Machine.runsGrow henv budget).perform (Machine.tidy_callHost henv m' callee receiver args) hdone
    refine ⟨?_, trivial⟩
    show m.program.Grows n.leaveHost.program
    rw [Machine.program_leaveHost, ← show m'.program = m.program from hprogram]
    exact hgrows
  | enter hload | function => exact ⟨.refl _, trivial⟩
  | outside h => exact ⟨.refl _, Machine.tidy_callHost henv _ _ _ _⟩
  | code | value => exact ⟨ht.1.grows, trivial⟩
  | result hdone =>
    have hgrows := (Machine.runsGrow henv _).callCallee hdone
    exact ⟨ht.1.grows.trans hgrows, ht.2.2 _ _ hgrows⟩

theorem Leads.grows (henv : env.Steady) (h : Leads env t t') (ht : t.Tidy) :
    t.machine.program.Grows t'.machine.program ∧ t'.Tidy := by
  induction h with
  | refl => exact ⟨.refl _, ht⟩
  | tail _ hnext ih =>
    obtain ⟨hgrows, htidy⟩ := hnext.grows henv ih.2
    exact ⟨ih.1.trans hgrows, htidy⟩

/-- What is known of an activity is known of what comes next, as long as the code is part of the program. -/
theorem Next.sound (henv : env.Steady) (hcharts : T.Describe P) (h : Next env t t') (ht : t.Tidy) (hsound : t.Sound T P)
    (hpart : t'.machine.program.PartOf P) : t'.Sound T P := by
  have hprogram : t.machine.program.PartOf P := (h.grows henv ht).1.partOf.trans hpart
  cases h with
  | @step m m' c c' entries hgo h =>
    obtain ⟨hwithin, start, E, outer, L, hrunning, rfl⟩ := hsound
    obtain ⟨-, ⟨least, hcomes, -⟩, hleft, -⟩ := hrunning.step hcharts hprogram hwithin env
    rw [h] at hcomes hleft
    obtain ⟨-, E', outer', L', hnext, hentries⟩ := hcomes
    exact ⟨hleft, start, E', outer', L', hnext, hentries.symm⟩
  | @host m m' c c' entries callee receiver args slot hgo h =>
    obtain ⟨hwithin, start, E, outer, L, hrunning, rfl⟩ := hsound
    obtain ⟨-, -, hleft, hstep⟩ := hrunning.step hcharts hprogram hwithin env
    rw [h] at hleft
    obtain ⟨-, hreceiver, hargs⟩ := hstep _ _ h
    exact Machine.honest_callHost henv hleft hreceiver hargs
  | @resume m m' n c c' entries callee receiver v args slot budget hgo h hdone =>
    obtain ⟨hwithin, start, E, outer, L, hrunning, rfl⟩ := hsound
    obtain ⟨-, ⟨least, hcomes, -⟩, hleft, hstep⟩ := hrunning.step hcharts hprogram hwithin env
    rw [h] at hcomes hleft
    obtain ⟨-, hreceiver, hargs⟩ := hstep _ _ h
    obtain ⟨-, -, hback⟩ := hcomes
    have hlast : n.program.PartOf P := by
      rwa [← show (n.leaveHost.putResult slot v).program = n.program from Machine.program_leaveHost n]
    have hcall := (Machine.runsKeep henv hcharts budget).perform (Machine.tidy_callHost henv m' callee receiver args)
      (Machine.honest_callHost henv hleft hreceiver hargs) hdone hlast
    obtain ⟨-, hput⟩ := hback n hcall.kept.skeleton
    obtain ⟨-, L', hnext⟩ := hput v
    exact ⟨hcall.within.leaveHost.putResult slot (hcall.result v rfl), start, E, outer, L', hnext, rfl⟩
  | @enter m c start receiver args hload =>
    obtain ⟨hwithin, hentry, hreceiver, hargs⟩ := hsound
    have hat : c.At T P .entry := by
      rcases hentry with hentry | ⟨unit, hunit⟩
      · exact hcharts.load_entry hprogram hentry hload
      · exact hcharts.load_start hprogram hunit hload
    refine ⟨hwithin.enterExecution hreceiver hargs, _, _, _, _, Machine.running_enterExecution m receiver args hat, ?_⟩
    rw [List.map_singleton, Machine.depths_skeleton]
  | function =>
    obtain ⟨hwithin, hcallee, hreceiver, hargs⟩ := hsound
    exact ⟨hwithin, .inl (hcharts.entry_of_within hcallee), hreceiver, hargs⟩
  | outside h =>
    obtain ⟨hwithin, hcallee, hreceiver, hargs⟩ := hsound
    exact Machine.honest_callHost henv (hwithin.enterHostCall hcallee hreceiver hargs) hreceiver hargs
  | code =>
    obtain ⟨⟨hwithin, -, hreceiver, hargs⟩, -⟩ := hsound
    obtain ⟨unit, hunit⟩ := ht.2.1
    exact ⟨hwithin, .inr ⟨unit, hunit.of_partOf hpart⟩, hreceiver, hargs⟩
  | value => exact hsound.1
  | @result m m' n callee receiver args next budget r hdone =>
    obtain ⟨⟨hwithin, hcallee, hreceiver, hargs⟩, hnext⟩ := hsound
    have hends := (Machine.runsKeep henv hcharts budget).callCallee (ht.2.1.of_partOf
      (((Machine.runsGrow henv budget).callCallee hdone).partOf.trans hpart)) hwithin hcallee hreceiver hargs hdone hpart
    exact hnext n r hends.within hends.result

theorem Leads.sound (henv : env.Steady) (hcharts : T.Describe P) (h : Leads env t t') (ht : t.Tidy)
    (hsound : t.Sound T P) (hpart : t'.machine.program.PartOf P) : t'.Sound T P := by
  induction h with
  | refl => exact hsound
  | tail hleads hnext ih =>
    have htidy := (Leads.grows henv hleads ht).2
    exact hnext.sound henv hcharts htidy (ih ((hnext.grows henv htidy).1.partOf.trans hpart)) hpart

/-! ## Following an activity -/

/-- What an activity goes on with or waits for, as far as it depends on no result of another one. -/
def descend (env : Embedding W) : Activity W → Option (Activity W)
  | running m c entries =>
    if m.interrupted then none
    else
      match advance env c m.collectIfNeeded with
      | .ok (.goOn c') m' => some (running m' c' (Machine.entriesAfter m.collectIfNeeded m' entries))
      | .ok (.host callee receiver args _ _) m' => some (action m' (callHost env m' callee receiver args))
      | _ => none
  | execution m start receiver args =>
    match Cursor.load m.program start .nop with
    | .ok c => some (running (m.enterExecution receiver args) c [(m.enterExecution receiver args).depths])
    | .error _ => none
  | call m callee receiver args =>
    match callee with
    | .function start => some (execution m start.val receiver args)
    | .native _ | .signature _ =>
      some (action (m.enterHostCall callee receiver args)
        (callHost env (m.enterHostCall callee receiver args) callee receiver args))
    | _ => none
  | action _ (.call m (.code start) receiver args _) => some (execution m start receiver args)
  | action _ (.call m (.value callee) receiver args _) => some (call m callee receiver args)
  | action _ _ => none

theorem next_of_descend (h : descend env t = some t') : Next env t t' := by
  cases t with
  | running m c entries =>
    simp only [descend] at h
    split at h
    · cases h
    · rename_i hgo
      have hgo' : m.interrupted = false := Bool.eq_false_iff.mpr hgo
      split at h
      · rename_i hadvance
        cases h
        exact .step hgo' hadvance
      · rename_i hadvance
        cases h
        exact .host hgo' hadvance
      · cases h
  | execution m start receiver args =>
    simp only [descend] at h
    split at h
    · rename_i hload
      cases h
      exact .enter hload
    · cases h
  | call m callee receiver args =>
    cases callee with
    | function start =>
      cases h
      exact .function
    | native id =>
      cases h
      exact .outside (.inl ⟨id, rfl⟩)
    | signature id =>
      cases h
      exact .outside (.inr ⟨id, rfl⟩)
    | _ => cases h
  | action m a =>
    cases a with
    | call m' callee receiver args next =>
      cases callee with
      | code start =>
        cases h
        exact .code
      | value v =>
        cases h
        exact .value
    | _ => cases h

/-- As many steps of that kind. -/
def descendBy (env : Embedding W) : Nat → Activity W → Option (Activity W)
  | 0, t => some t
  | steps + 1, t => (descend env t).bind (descendBy env steps)

theorem leads_of_descendBy {steps : Nat} (h : descendBy env steps t = some t') : Leads env t t' := by
  induction steps generalizing t with
  | zero =>
    cases h
    exact .refl
  | succ steps ih =>
    obtain ⟨u, hu, hrest⟩ := Option.bind_eq_some_iff.mp h
    exact .head (next_of_descend hu) (ih hrest)

end Activity

end ScriptEngine
