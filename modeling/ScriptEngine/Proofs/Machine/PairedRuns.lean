import ScriptEngine.Proofs.Machine.Activities
import ScriptEngine.Proofs.Machine.PairedActions
/-!
Runs on machines that hold the same.

Whenever they collect, machines that hold the same come to the same: runs, calls and actions on paired machines
end in results that stand for each other and leave paired machines (`runsPaired`), as long as nothing on the
way holds more than handles can name (`Activity.roomy`).
-/

namespace ScriptEngine

variable {W : Type}

/-! ## Room -/

instance Heap.decidableFits (h : Heap) : Decidable h.Fits :=
  decidable_of_iff ((h.objects.cells.size ≤ UInt32.size ∧ h.properties.cells.size ≤ UInt32.size
      ∧ h.signatures.cells.size ≤ UInt32.size) ∧ h.strings.data.size < payloadSize)
    ⟨fun h => ⟨⟨h.1.1, h.1.2.1, h.1.2.2⟩, h.2⟩, fun h => ⟨⟨h.1.objects, h.1.properties, h.1.signatures⟩, h.2⟩⟩

instance Action.decidableFits {α : Type} (a : Action W α) : Decidable a.Fits :=
  match a with
  | .done m _ => inferInstanceAs (Decidable m.heap.Fits)
  | .call m _ _ _ _ => inferInstanceAs (Decidable m.heap.Fits)
  | .needsFile _ => inferInstanceAs (Decidable True)

namespace Activity

open Machine (advance callHost callCallee perform)

/-- Whether nothing that an activity does within a budget leaves more on the heap than handles can name. -/
def roomy (env : Embedding W) : Nat → Activity W → Bool
  | 0, _ => true
  | budget + 1, running m c entries =>
    m.interrupted || match advance env c m.collectIfNeeded with
      | .error _ n | .ok (.finish _) n => decide n.heap.Fits
      | .ok (.goOn c') n => decide n.heap.Fits && roomy env budget (running n c' entries)
      | .ok (.host callee receiver args slot c') n =>
        let a := callHost env n callee receiver args
        decide n.heap.Fits && decide a.Fits && roomy env budget (action n a)
          && match perform env a budget with
            | .done l (.ok v) => roomy env budget (running (l.leaveHost.putResult slot v) c' entries)
            | _ => true
  | budget + 1, execution m start receiver args =>
    match Cursor.load m.program start .nop with
    | .ok c => roomy env budget (running (m.enterExecution receiver args) c [])
    | .error _ => true
  | budget + 1, call m callee receiver args =>
    match callee with
    | .function start => roomy env budget (execution m start.val receiver args)
    | .native _ | .signature _ =>
      let n := m.enterHostCall callee receiver args
      let a := callHost env n callee receiver args
      decide a.Fits && roomy env budget (action n a)
    | _ => true
  | budget + 1, action _ (.call m callee receiver args next) =>
    (match callee with
      | .code start => roomy env budget (execution m start receiver args)
      | .value v => roomy env budget (call m v receiver args))
      && match callCallee env m callee receiver args budget with
        | .done n r => roomy env budget (action n (next n r))
        | _ => true
  | _ + 1, action _ _ => true

end Activity

/-! ## Outcomes -/

/-- Outcomes that leave machines that hold the same, with results that stand for each other. -/
inductive Outcome.Paired (kept : List (Option Nat) → Prop) : Outcome W Value → Outcome W Value → Prop
  | done {p : Pairing} {m m' : Machine W} {r r' : Except Error Value} (h : m.AtRest p m') (hsites : kept m.sites)
    (hresult : ResultLike p.Values r r') : Outcome.Paired kept (.done m r) (.done m' r')
  | outOfBudget : Outcome.Paired kept .outOfBudget .outOfBudget
  | needsFile (path : String) : Outcome.Paired kept (.needsFile path) (.needsFile path)

theorem Outcome.Paired.andThen {kept kept' : List (Option Nat) → Prop} {o o' : Outcome W Value} (h : Outcome.Paired kept o o')
    {next next' : Machine W → Except Error Value → Outcome W Value}
    (hnext : ∀ {p : Pairing} {m m' : Machine W} {r r' : Except Error Value}, o = .done m r → o' = .done m' r' →
      m.AtRest p m' → kept m.sites → ResultLike p.Values r r' → Outcome.Paired kept' (next m r) (next' m' r')) :
    Outcome.Paired kept' (o.andThen next) (o'.andThen next') := by
  cases h with
  | done h hsites hresult => exact hnext rfl rfl h hsites hresult
  | outOfBudget => exact .outOfBudget
  | needsFile path => exact .needsFile path

namespace Machine

variable {env : Embedding W} {p q : Pairing} {m m' : Machine W} {v v' : Value} {base : List (Option Nat)}

/-! ## Starts and ends -/

theorem AtRest.noteFailure (h : m.AtRest p m') (offset : Nat) (e : Error) :
    (m.noteFailure offset e).AtRest p (m'.noteFailure offset e) := by
  cases e with
  | exit => exact h
  | failure kind message =>
    exact { h with shell := congrArg (fun n : Machine W => { n with failedAt := offset }) h.shell }

theorem sites_noteFailure (m : Machine W) (offset : Nat) (e : Error) : (m.noteFailure offset e).sites = m.sites := by
  cases e <;> rfl

/-- The frame of the caller brings its receiver back. -/
theorem AtRest.leaveHost (h : m.AtRest p m') {before : List (Option Nat)} {site : Option Nat}
    (hsites : m.sites = before ++ [site]) : Paired p m.leaveHost m'.leaveHost ∧ m.leaveHost.sites = before := by
  have hback : Option.Rel p.Frames m.frames.back? m'.frames.back? := Rows.back? h.frames
  have hlast : m.sites.getLast? = m.frames.back?.map Frame.callSite := by
    simp [sites, List.getLast?_map, Array.getLast?_toList]
  rw [hsites, List.getLast?_concat] at hlast
  unfold Machine.leaveHost
  generalize hframe : m.frames.back? = found, m'.frames.back? = found' at hback hlast ⊢
  cases hback with
  | none => cases hlast
  | some hpair =>
    refine ⟨{ h with frames := Rows.pop h.frames, receiver := hpair.receiver, shell := h.shell }, ?_⟩
    show m.frames.pop.toList.map Frame.callSite = before
    rw [Array.toList_pop, List.map_dropLast]
    show m.sites.dropLast = before
    rw [hsites, List.dropLast_concat]

theorem Paired.putResult (H : Paired p m m') (slot : Nat) (hv : p.Values v v') :
    Paired p (m.putResult slot v) (m'.putResult slot v') :=
  H.withStack ((H.stack.shrink _).set slot hv)

theorem Paired.enterExecution (H : Paired p m m') {receiver receiver' : Value} {args args' : List Value}
    (hreceiver : p.Values receiver receiver') (hargs : List.Forall₂ p.Values args args') :
    Paired p (m.enterExecution receiver args) (m'.enterExecution receiver' args') := by
  have hdeeper : Paired p { m with depth := m.depth + 1 } { m' with depth := m'.depth + 1 } := by
    rw [H.depth]
    exact { H with shell := congrArg (fun n : Machine W => { n with depth := m.depth + 1 }) H.shell }
  have hentered := hdeeper.pushFrame none m.stack.size hreceiver
  have hstack := (H.stack.push .undefined).append (.ofList hargs)
  unfold Machine.enterExecution
  simp only [H.stack.size_eq]
  exact hentered.withStack hstack

theorem sites_enterExecution (m : Machine W) (receiver : Value) (args : List Value) :
    (m.enterExecution receiver args).sites = m.sites ++ [none] := by
  simp [Machine.enterExecution, pushFrame, sites]

theorem Paired.enterHostCall (H : Paired p m m') {callee callee' receiver receiver' : Value} {args args' : List Value}
    (hcallee : p.Values callee callee') (hreceiver : p.Values receiver receiver')
    (hargs : List.Forall₂ p.Values args args') :
    Paired p (m.enterHostCall callee receiver args) (m'.enterHostCall callee' receiver' args') :=
  { H with stack := (H.stack.push hcallee).append (.ofList hargs), receiver := hreceiver, shell := H.shell }

theorem AtRest.leaveHostCall (h : m.AtRest p m') (size : Nat) (receiver receiver' : Value) :
    (m.leaveHostCall size receiver).AtRest p (m'.leaveHostCall size receiver') :=
  { h with stack := Rows.take h.stack size, shell := h.shell }

theorem Paired.depths (H : Paired p m m') : m'.depths = m.depths := by
  simp only [Machine.depths, H.stack.size_eq, H.frames.size_eq, H.pending.size_eq, H.scopes.size_eq, H.loops]

theorem AtRest.restore (h : m.AtRest p m') (start : Depths) (receiver receiver' : Value) :
    (m.restore start receiver).AtRest p (m'.restore start receiver') := by
  have hloops : m'.loops = m.loops := h.shared Machine.loops fun _ => rfl
  unfold Machine.restore cutBack
  rw [hloops]
  exact { h with
    stack := Rows.shrink h.stack _
    frames := Rows.shrink h.frames _
    pending := Rows.shrink h.pending _
    scopes := Rows.shrink h.scopes _
    shell := congrArg (fun n : Machine W => { n with loops := m.loops.shrink start.loops }) h.shell }

/-- The lines on the way to a failure are the same. -/
theorem AtRest.traceAbove (h : m.AtRest p m') (calls : Nat) : m'.traceAbove calls = m.traceAbove calls := by
  have hentry (offset : Nat) : m'.traceEntry? offset = m.traceEntry? offset := by
    unfold Machine.traceEntry?
    rw [h.program]
  have hsites := callSites_eq (Rows.drop h.frames calls)
  have hfailed : m'.failedAt = m.failedAt := h.shared Machine.failedAt fun _ => rfl
  have hcalls (frames : List Frame) :
      frames.reverse.filterMap Frame.callSite = (frames.map Frame.callSite).reverse.filterMap id := by
    rw [← List.map_reverse, List.filterMap_map]
    rfl
  unfold Machine.traceAbove
  rw [hcalls, hcalls, hfailed]
  rw [show (m'.frames.drop calls).toList.map Frame.callSite = (m.frames.drop calls).toList.map Frame.callSite from hsites]
  exact List.filterMap_congr fun offset _ => hentry offset

theorem AtRest.stopped (h : m.AtRest p m') :
    m.stopped.1.AtRest p m'.stopped.1 ∧ ResultLike p.Values m.stopped.2 m'.stopped.2 := by
  have hdepth : m'.depth = m.depth := h.shared Machine.depth fun _ => rfl
  unfold Machine.stopped
  by_cases houter : m.depth = 0
  · rw [if_pos houter, if_pos (hdepth.trans houter)]
    exact ⟨{ h with shell := congrArg (fun n : Machine W => { n with interrupted := false }) h.shell }, .ok .undefined⟩
  · rw [if_neg houter, if_neg fun hzero => houter (hdepth.symm.trans hzero)]
    exact ⟨h, .error .exit⟩

theorem AtRest.leaveExecution (h : m.AtRest p m') (start : Depths) (receiver receiver' : Value)
    {r r' : Except Error Value} (hresult : ResultLike p.Values r r') :
    (m.leaveExecution start receiver r).1.AtRest p (m'.leaveExecution start receiver' r').1
      ∧ ResultLike p.Values (m.leaveExecution start receiver r).2 (m'.leaveExecution start receiver' r').2 := by
  have hdepth : m'.depth = m.depth := h.shared Machine.depth fun _ => rfl
  have hless : AtRest p { m with depth := m.depth - 1 } { m' with depth := m'.depth - 1 } := by
    rw [hdepth]
    exact { h with shell := congrArg (fun n : Machine W => { n with depth := m.depth - 1 }) h.shell }
  cases hresult with
  | ok hv => exact ⟨hless.restore start _ _, .ok hv⟩
  | error e =>
    cases e with
    | exit =>
      rw [leaveExecution_exit, leaveExecution_exit]
      exact (hless.restore start receiver receiver').stopped
    | failure kind message =>
      refine ⟨?_, .error _⟩
      have htrace : m'.trace = m.trace := h.shared Machine.trace fun _ => rfl
      have hlines := hless.traceAbove start.calls
      have htraced : AtRest p
          { m with
            depth := m.depth - 1
            trace := m.trace ++ ({ m with depth := m.depth - 1 } : Machine W).traceAbove start.calls }
          { m' with
            depth := m'.depth - 1
            trace := m'.trace ++ ({ m' with depth := m'.depth - 1 } : Machine W).traceAbove start.calls } := by
        rw [hlines, htrace]
        exact { hless with shell := congrArg (fun n : Machine W => { n with
          trace := m.trace ++ ({ m with depth := m.depth - 1 } : Machine W).traceAbove start.calls }) hless.shell }
      exact htraced.restore start receiver receiver'

theorem sites_leaveExecution {n : Machine W} (hbase : m.sites <+: n.sites) (receiver : Value) (r : Except Error Value) :
    (n.leaveExecution m.depths receiver r).1.sites = m.sites := by
  obtain ⟨trace, interrupted, hend, -⟩ := leaveExecution_eq n m.depths receiver r
  have hsize : m.sites.length = m.frames.size := by simp [sites]
  rw [hend]
  show (n.frames.shrink m.frames.size).toList.map Frame.callSite = m.sites
  rw [Array.toList_shrink, List.map_take, ← hsize]
  exact (List.prefix_iff_eq_take.mp hbase).symm

/-! ## Runs -/

/-- Everything that takes `budget` at most does the same on machines that hold the same. -/
structure RunsPaired (env : Embedding W) (budget : Nat) : Prop where
  run : ∀ {p : Pairing} {m m' : Machine W} {c : Cursor} {base : List (Option Nat)} {entries entries' : List Depths},
    Paired p m m' → InExecution base m.sites →
    (Activity.running m c entries).roomy env budget → (Activity.running m' c entries').roomy env budget →
    Outcome.Paired (base <+: ·) (Machine.run env m c budget) (Machine.run env m' c budget)
  execute : ∀ {p : Pairing} {m m' : Machine W} {start : Nat} {receiver receiver' : Value} {args args' : List Value},
    Paired p m m' → p.Values receiver receiver' → List.Forall₂ p.Values args args' →
    (Activity.execution m start receiver args).roomy env budget →
    (Activity.execution m' start receiver' args').roomy env budget →
    Outcome.Paired (· = m.sites) (Machine.execute env m start receiver args budget)
      (Machine.execute env m' start receiver' args' budget)
  callValue : ∀ {p : Pairing} {m m' : Machine W} {callee callee' receiver receiver' : Value} {args args' : List Value},
    Paired p m m' → p.Values callee callee' → p.Values receiver receiver' → List.Forall₂ p.Values args args' →
    (Activity.call m callee receiver args).roomy env budget →
    (Activity.call m' callee' receiver' args').roomy env budget →
    Outcome.Paired (· = m.sites) (Machine.callValue env m callee receiver args budget)
      (Machine.callValue env m' callee' receiver' args' budget)
  perform : ∀ {a a' : Action W Value} {base : List (Option Nat)} {l l' : Machine W},
    Action.Paired Pairing.Values base a a' → (Activity.action l a).roomy env budget →
    (Activity.action l' a').roomy env budget →
    Outcome.Paired (· = base) (Machine.perform env a budget) (Machine.perform env a' budget)

section Steps

variable {budget : Nat} (ih : RunsPaired env budget) (hbare : env.Bare)
include ih

/-- How a run goes on when a function outside of the code is done. -/
theorem RunsPaired.resume {before : List (Option Nat)} {site : Option Nat} (h : m.AtRest p m') (hin : InExecution base before)
    (hsites : m.sites = before ++ [site]) {r r' : Except Error Value} (hresult : ResultLike p.Values r r') (offset slot : Nat)
    {c : Cursor} (entries entries' : List Depths)
    (hroomy : ∀ v, r = .ok v → (Activity.running (m.leaveHost.putResult slot v) c entries).roomy env budget)
    (hroomy' : ∀ v, r' = .ok v → (Activity.running (m'.leaveHost.putResult slot v) c entries').roomy env budget) :
    Outcome.Paired (base <+: ·) (Machine.resume env offset slot c budget m r)
      (Machine.resume env offset slot c budget m' r') := by
  obtain ⟨hleft, hbefore⟩ := h.leaveHost hsites
  cases hresult with
  | ok hv => exact ih.run (hleft.putResult slot hv) (hbefore.symm ▸ hin) (hroomy _ rfl) (hroomy' _ rfl)
  | error e =>
    refine .done (hleft.atRest.noteFailure offset e) ?_ (.error e)
    rw [sites_noteFailure, hbefore]
    exact hin.base_isPrefix

include hbare

theorem RunsPaired.run_succ {c : Cursor} {entries entries' : List Depths} (H : Paired p m m')
    (hin : InExecution base m.sites) (hroomy : (Activity.running m c entries).roomy env (budget + 1))
    (hroomy' : (Activity.running m' c entries').roomy env (budget + 1)) :
    Outcome.Paired (base <+: ·) (Machine.run env m c (budget + 1)) (Machine.run env m' c (budget + 1)) := by
  have hinterrupted : m'.interrupted = m.interrupted := H.shared Machine.interrupted fun _ => rfl
  simp only [Activity.roomy, hinterrupted] at hroomy hroomy'
  rw [Machine.run_succ, Machine.run_succ, hinterrupted]
  generalize m.interrupted = interrupted at hroomy hroomy' ⊢
  cases interrupted with
  | true => exact .done H.atRest hin.base_isPrefix (.error .exit)
  | false =>
    simp only [Bool.false_or, Bool.false_eq_true, if_false] at hroomy hroomy' ⊢
    obtain ⟨q, hq⟩ := H.collectIfNeeded
    have hmeets := (alike_advance hbare c).meets (.refl q) hq
    have hkeeps := keepsSites_advance env c ((sites_collectIfNeeded m).symm ▸ hin)
    generalize advance env c m.collectIfNeeded = r, advance env c m'.collectIfNeeded = r' at hmeets hkeeps hroomy hroomy' ⊢
    have hfits : (leftBy r).heap.Fits := by
      rcases r with ⟨_ | _ | _, n⟩ | ⟨e, n⟩ <;> simp only [Bool.and_eq_true, decide_eq_true_eq] at hroomy
      · exact hroomy.1
      · exact hroomy
      · exact hroomy.1.1.1
      · exact hroomy
    have hfits' : (leftBy r').heap.Fits := by
      rcases r' with ⟨_ | _ | _, n⟩ | ⟨e, n⟩ <;> simp only [Bool.and_eq_true, decide_eq_true_eq] at hroomy'
      · exact hroomy'.1
      · exact hroomy'
      · exact hroomy'.1.1.1
      · exact hroomy'
    obtain ⟨s, -, hpaired, hends⟩ := hmeets hfits hfits'
    cases hends with
    | error e =>
      refine .done (hpaired.atRest.noteFailure _ e) ?_ (.error e)
      rw [sites_noteFailure]
      exact hkeeps
    | @ok step step' n n' hstep =>
      replace hpaired : Paired s n n' := hpaired
      cases hstep with
      | finish hv => exact .done hpaired.atRest hkeeps (.ok hv)
      | goOn c' =>
        simp only [Bool.and_eq_true] at hroomy hroomy'
        exact ih.run hpaired hkeeps hroomy.2 hroomy'.2
      | host hcallee hreceiver hargs slot c' =>
        simp only [Bool.and_eq_true, decide_eq_true_eq] at hroomy hroomy'
        obtain ⟨⟨⟨-, hcallFits⟩, hcallRoomy⟩, hnextRoomy⟩ := hroomy
        obtain ⟨⟨⟨-, hcallFits'⟩, hcallRoomy'⟩, hnextRoomy'⟩ := hroomy'
        obtain ⟨before, site, hbefore, hsites⟩ := hkeeps
        have hcall := hpaired.callHost hbare hcallee hreceiver hargs hcallFits hcallFits'
        refine (ih.perform hcall hcallRoomy hcallRoomy').andThen fun hdone hdone' hsettled hsame hresult => ?_
        rw [hdone] at hnextRoomy
        rw [hdone'] at hnextRoomy'
        refine ih.resume hsettled hbefore (hsame.trans hsites) hresult _ slot entries entries' (fun v hr => ?_) fun v hr => ?_
        · rw [hr] at hnextRoomy
          exact hnextRoomy
        · rw [hr] at hnextRoomy'
          exact hnextRoomy'

omit hbare in
theorem RunsPaired.execute_succ {start : Nat} {receiver receiver' : Value} {args args' : List Value} (H : Paired p m m')
    (hreceiver : p.Values receiver receiver') (hargs : List.Forall₂ p.Values args args')
    (hroomy : (Activity.execution m start receiver args).roomy env (budget + 1))
    (hroomy' : (Activity.execution m' start receiver' args').roomy env (budget + 1)) :
    Outcome.Paired (· = m.sites) (Machine.execute env m start receiver args (budget + 1))
      (Machine.execute env m' start receiver' args' (budget + 1)) := by
  have hentered := H.enterExecution hreceiver hargs
  have hin : InExecution m.sites (m.enterExecution receiver args).sites := ⟨[], sites_enterExecution m receiver args⟩
  have hend {q : Pairing} {n n' : Machine W} {r r' : Except Error Value} (hn : n.AtRest q n')
      (hbase : m.sites <+: n.sites) (hresult : ResultLike q.Values r r') :
      Outcome.Paired (· = m.sites) (endExecution m.depths m.receiver n r) (endExecution m.depths m'.receiver n' r') := by
    obtain ⟨hleft, hvalue⟩ := hn.leaveExecution m.depths m.receiver m'.receiver hresult
    exact .done hleft (sites_leaveExecution hbase _ _) hvalue
  simp only [Activity.roomy, H.program] at hroomy hroomy'
  simp only [Machine.execute_succ, H.program, H.depths]
  cases hload : Cursor.load m.program start .nop with
  | error e => exact hend hentered.atRest hin.base_isPrefix (.error e)
  | ok c =>
    rw [hload] at hroomy hroomy'
    exact (ih.run hentered hin hroomy hroomy').andThen fun _ _ hn hbase hresult => hend hn hbase hresult

theorem RunsPaired.hostCall {callee callee' receiver receiver' : Value} {args args' : List Value} (H : Paired p m m')
    (hcallee : p.Values callee callee') (hreceiver : p.Values receiver receiver')
    (hargs : List.Forall₂ p.Values args args')
    (hroomy : (callHost env (m.enterHostCall callee receiver args) callee receiver args).Fits
      ∧ (Activity.action (m.enterHostCall callee receiver args)
        (callHost env (m.enterHostCall callee receiver args) callee receiver args)).roomy env budget)
    (hroomy' : (callHost env (m'.enterHostCall callee' receiver' args') callee' receiver' args').Fits
      ∧ (Activity.action (m'.enterHostCall callee' receiver' args')
        (callHost env (m'.enterHostCall callee' receiver' args') callee' receiver' args')).roomy env budget) :
    Outcome.Paired (· = m.sites) (Machine.hostCall env m callee receiver args budget)
      (Machine.hostCall env m' callee' receiver' args' budget) := by
  have hcall := (H.enterHostCall hcallee hreceiver hargs).callHost hbare hcallee hreceiver hargs hroomy.1 hroomy'.1
  refine (ih.perform hcall hroomy.2 hroomy'.2).andThen fun _ _ hn hsame hresult => ?_
  rw [H.stack.size_eq]
  exact .done (hn.leaveHostCall _ _ _) hsame hresult

theorem RunsPaired.callValue_succ {callee callee' receiver receiver' : Value} {args args' : List Value} (H : Paired p m m')
    (hcallee : p.Values callee callee') (hreceiver : p.Values receiver receiver')
    (hargs : List.Forall₂ p.Values args args') (hroomy : (Activity.call m callee receiver args).roomy env (budget + 1))
    (hroomy' : (Activity.call m' callee' receiver' args').roomy env (budget + 1)) :
    Outcome.Paired (· = m.sites) (Machine.callValue env m callee receiver args (budget + 1))
      (Machine.callValue env m' callee' receiver' args' (budget + 1)) := by
  rw [Machine.callValue_succ, Machine.callValue_succ]
  cases hcallee with
  | function start => exact ih.execute H hreceiver hargs hroomy hroomy'
  | native id =>
    simp only [Activity.roomy, Bool.and_eq_true, decide_eq_true_eq] at hroomy hroomy'
    exact ih.hostCall hbare H (.native id) hreceiver hargs hroomy hroomy'
  | _ => exact .done H.atRest rfl (.error _)

omit hbare in
theorem RunsPaired.perform_succ {a a' : Action W Value} {l l' : Machine W} (h : Action.Paired Pairing.Values base a a')
    (hroomy : (Activity.action l a).roomy env (budget + 1)) (hroomy' : (Activity.action l' a').roomy env (budget + 1)) :
    Outcome.Paired (· = base) (Machine.perform env a (budget + 1)) (Machine.perform env a' (budget + 1)) := by
  cases h with
  | done h hsites hresult => exact .done h hsites hresult
  | needsFile path => exact .needsFile path
  | @call p m m' callee callee' receiver receiver' args args' next next' H hsites hcallee hreceiver hargs hnext =>
    simp only [Activity.roomy, Bool.and_eq_true] at hroomy hroomy'
    rw [perform_call, perform_call]
    have hcall : Outcome.Paired (· = m.sites) (callCallee env m callee receiver args budget)
        (callCallee env m' callee' receiver' args' budget) := by
      cases hcallee with
      | code start => exact ih.execute H hreceiver hargs hroomy.1 hroomy'.1
      | value hv => exact ih.callValue H hv hreceiver hargs hroomy.1 hroomy'.1
    refine hcall.andThen fun hdone hdone' hn hsame hresult => ?_
    have hrest := hroomy.2
    have hrest' := hroomy'.2
    rw [hdone] at hrest
    rw [hdone'] at hrest'
    exact ih.perform (hnext hn (hsame.trans hsites) hresult) hrest hrest'

end Steps

/-- Machines that hold the same stay so, whatever runs on them and whenever they collect. -/
theorem runsPaired (hbare : env.Bare) (budget : Nat) : RunsPaired env budget := by
  induction budget with
  | zero => exact ⟨fun _ _ _ _ => .outOfBudget, fun _ _ _ _ _ => .outOfBudget, fun _ _ _ _ _ _ => .outOfBudget, fun _ _ _ => .outOfBudget⟩
  | succ budget ih => exact ⟨ih.run_succ hbare, ih.execute_succ, ih.callValue_succ hbare, ih.perform_succ⟩

end Machine

end ScriptEngine
