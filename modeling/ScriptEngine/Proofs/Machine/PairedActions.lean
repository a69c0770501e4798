import ScriptEngine.Machine.Run
import ScriptEngine.Proofs.Machine.PairedFunctions
/-!
Actions on machines that hold the same.

While a call from outside of the code is under way, collections do not reach the receiver that its caller
keeps, so that machines are `AtRest` after it: paired but for that receiver, which the frame of the caller
brings back. Actions are `Paired` when they make the same calls and end the same, on machines that hold the
same; what follows a call is said of whatever machines the call leaves.
-/

namespace ScriptEngine

open Machine (Alike sites)

variable {W : Type}

/-- Machines that hold the same but for their receivers. -/
def Machine.AtRest (p : Pairing) (m m' : Machine W) : Prop :=
  Machine.Paired p { m with receiver := .undefined } { m' with receiver := .undefined }

/-- What is called stands for the other. -/
inductive Pairing.Callees (p : Pairing) : Callee → Callee → Prop
  | code (start : Nat) : Callees p (.code start) (.code start)
  | value {v v' : Value} (h : p.Values v v') : Callees p (.value v) (.value v')

/-- The machine that an action has come to fits what handles can name. -/
def Action.Fits {α : Type} : Action W α → Prop
  | done m _ | call m _ _ _ _ => m.heap.Fits
  | needsFile _ => True

/-- Actions that make the same calls and end the same, with calls that go back to the same places as before. -/
inductive Action.Paired {α β : Type} (R : Pairing → α → β → Prop) (base : List (Option Nat)) :
    Action W α → Action W β → Prop
  | done {p : Pairing} {m m' : Machine W} {r : Except Error α} {r' : Except Error β} (h : m.AtRest p m')
    (hsites : m.sites = base) (hresult : ResultLike (R p) r r') : Action.Paired R base (.done m r) (.done m' r')
  | call {p : Pairing} {m m' : Machine W} {callee callee' : Callee} {receiver receiver' : Value}
    {args args' : List Value} {next : Machine W → Except Error Value → Action W α}
    {next' : Machine W → Except Error Value → Action W β} (h : Machine.Paired p m m') (hsites : m.sites = base)
    (hcallee : p.Callees callee callee') (hreceiver : p.Values receiver receiver')
    (hargs : List.Forall₂ p.Values args args')
    (hnext : ∀ {q : Pairing} {n n' : Machine W} {r r' : Except Error Value}, n.AtRest q n' → n.sites = base →
      ResultLike q.Values r r' → Action.Paired R base (next n r) (next' n' r')) :
    Action.Paired R base (.call m callee receiver args next) (.call m' callee' receiver' args' next')
  | needsFile (path : String) : Action.Paired R base (.needsFile path) (.needsFile path)

namespace Machine

variable {α β γ δ : Type} {env : Embedding W} {p q : Pairing} {m m' : Machine W} {v v' : Value} {args args' : List Value}
  {base : List (Option Nat)}

theorem Paired.atRest (H : Paired p m m') : m.AtRest p m' :=
  { H with receiver := .undefined, shell := H.shell }

end Machine

namespace Action

variable {α β γ δ : Type} {R : Pairing → α → β → Prop} {S : Pairing → γ → δ → Prop} {base : List (Option Nat)}

theorem Paired.bind {a : Action W α} {a' : Action W β} {next : Machine W → Except Error α → Action W γ}
    {next' : Machine W → Except Error β → Action W δ} (h : Paired R base a a')
    (hnext : ∀ {p : Pairing} {m m' : Machine W} {r : Except Error α} {r' : Except Error β}, m.AtRest p m' →
      m.sites = base → ResultLike (R p) r r' → Paired S base (next m r) (next' m' r')) :
    Paired S base (a.bind next) (a'.bind next') := by
  induction h with
  | done h hsites hresult => exact hnext h hsites hresult
  | call h hsites hcallee hreceiver hargs _ ih =>
    exact .call h hsites hcallee hreceiver hargs fun hn hsame hresult => ih hn hsame hresult
  | needsFile path => exact .needsFile path

theorem paired_ofWork {p : Pairing} {m m' : Machine W} {work : Machine.Work W α} {work' : Machine.Work W β}
    (h : Alike p R work work') (H : Machine.Paired p m m') (hsites : (leftBy (work m)).sites = m.sites)
    (hfits : (ofWork work m).Fits) (hfits' : (ofWork work' m').Fits) :
    Paired R m.sites (ofWork work m) (ofWork work' m') := by
  have hmeets := h.meets (.refl p) H
  unfold ofWork at hfits hfits' ⊢
  generalize work m = r, work' m' = r' at hmeets hsites hfits hfits' ⊢
  have hleft : (leftBy r).heap.Fits := by cases r <;> exact hfits
  have hleft' : (leftBy r').heap.Fits := by cases r' <;> exact hfits'
  obtain ⟨q, -, hpaired, hends⟩ := hmeets hleft hleft'
  cases hends with
  | ok hab => exact .done hpaired.atRest hsites (.ok hab)
  | error e => exact .done hpaired.atRest hsites (.error e)

end Action

namespace Machine

open Heap (Same)

variable {α β : Type} {env : Embedding W} {p q : Pairing} {m m' : Machine W} {v v' : Value} {args args' : List Value}

/-! ## Entries -/

theorem Paired.depth (H : Paired p m m') : m'.depth = m.depth := H.shared Machine.depth fun _ => rfl

theorem Paired.entry {R : Pairing → α → β → Prop} (H : Paired p m m') {body : Machine W → Action W α}
    {body' : Machine W → Action W β} (hbody : ∀ {n n' : Machine W}, Paired p n n' →
      Action.Paired R n.sites (body n) (body' n')) :
    Action.Paired R m.sites (m.entry body) (m'.entry body') := by
  unfold Machine.entry
  by_cases houter : m.depth = 0
  · rw [if_pos houter, if_pos (H.depth.trans houter)]
    have hcleared : Paired p { m with lastError := none, trace := [] } { m' with lastError := none, trace := [] } :=
      { H with shell := congrArg (fun n : Machine W => { n with lastError := none, trace := [] }) H.shell }
    refine (hbody hcleared).bind fun {q n n' r r'} hn hsites hresult => ?_
    cases hresult with
    | ok hab => exact .done hn hsites (.ok hab)
    | error e =>
      refine .done (p := q) ?_ hsites (.error e)
      exact { hn with shell := congrArg (fun n : Machine W => { n with lastError := some e }) hn.shell }
  · rw [if_neg houter, if_neg fun hzero => houter (H.depth.symm.trans hzero)]
    exact hbody H

/-- A script is compiled and committed without a look at values. -/
theorem Paired.compileScript (H : Paired p m m') (filename source : String) :
    (∃ e, compileScript filename source m = .error e m ∧ compileScript filename source m' = .error e m')
      ∨ ∃ start index program, compileScript filename source m = .ok (start, index) { m with program := program }
        ∧ compileScript filename source m' = .ok (start, index) { m' with program := program } := by
  simp only [Machine.compileScript, bind_eq, inspect, H.width]
  cases Code.compile filename source m.options.placeholderWidth with
  | error e => exact .inl ⟨e, rfl, rfl⟩
  | ok unit =>
    simp only [commit, H.program]
    cases m.program.commit unit with
    | error e => exact .inl ⟨e, rfl, rfl⟩
    | ok committed => exact .inr ⟨_, committed.2, committed.1, rfl, rfl⟩

theorem Paired.withProgram (H : Paired p m m') (program : Code.Program) :
    Paired p { m with program := program } { m' with program := program } :=
  { H with shell := congrArg (fun n : Machine W => { n with program := program }) H.shell }

theorem AtRest.program (H : m.AtRest p m') : m'.program = m.program :=
  H.shared Machine.program fun _ => rfl

theorem Paired.runScript (H : Paired p m m') (filename source : String) :
    Action.Paired Pairing.Values m.sites (m.runScript filename source) (m'.runScript filename source) := by
  unfold Machine.runScript Action.ofWork
  rcases H.compileScript filename source with ⟨e, hfails, hfails'⟩ | ⟨start, index, program, hcommits, hcommits'⟩
  · rw [hfails, hfails']
    exact .done H.atRest rfl (.error e)
  · rw [hcommits, hcommits']
    refine .call (H.withProgram program) rfl (.code start) H.receiver .nil fun {q n n' r r'} hn hsites hresult => ?_
    rw [hresult.isOk, hn.program]
    refine .done (p := q) ?_ hsites hresult
    exact Paired.withProgram hn (n.program.recordRun index r.isOk)

theorem Paired.exec (H : Paired p m m') (filename source : String) :
    Action.Paired Pairing.Values m.sites (m.exec filename source) (m'.exec filename source) :=
  H.entry fun hn => hn.runScript filename source

theorem Paired.runFile (env : Embedding W) (H : Paired p m m') (path : String) :
    Action.Paired Pairing.Values m.sites (runFile env m path) (runFile env m' path) := by
  unfold Machine.runFile
  rw [H.world]
  cases env.readFile m.world path with
  | text source => exact H.runScript path source
  | failed reason => exact .done H.atRest rfl (.error _)
  | unknown => exact .needsFile path

theorem Paired.loadFile (env : Embedding W) (H : Paired p m m') (path : String) :
    Action.Paired Pairing.Values m.sites (loadFile env m path) (loadFile env m' path) := by
  refine H.entry fun {n n'} hn => ?_
  have hloaded : n'.isLoaded path = n.isLoaded path := by
    unfold Machine.isLoaded
    rw [hn.program]
  rw [hloaded]
  split
  · exact .done hn.atRest rfl (.ok Pairing.Values.undefined)
  · exact hn.runFile env path

/-! ## Functions -/

instance calm_printValues (env : Embedding W) (args : List Value) : Calm (printValues env args) := by
  unfold printValues
  infer_instance

instance calm_die (args : List Value) : Calm (die args : Work W Value) := by
  unfold die
  infer_instance

theorem calm_ffi (hbare : env.Bare) (args : List Value) : Calm (ffi env args) := by
  unfold ffi
  simp only [resolveForeign_eq hbare]
  infer_instance

instance calm_freeCallback (args : List Value) : Calm (freeCallback args : Work W Value) :=
  calm_stacks (fun _ => rfl) fun _ => rfl

instance calm_newBuffer (args : List Value) : Calm (newBuffer args : Work W Value) := by
  unfold newBuffer
  infer_instance

instance calm_newView (args : List Value) : Calm (newView args : Work W Value) := by
  unfold newView
  split <;> infer_instance

instance calm_pushItems (receiver : Value) (args : List Value) : Calm (pushItems receiver args : Work W Value) := by
  unfold pushItems
  split <;> infer_instance

instance calm_slice (receiver : Value) (args : List Value) : Calm (slice receiver args : Work W Value) := by
  unfold slice
  infer_instance

instance calm_toText (receiver : Value) : Calm (toText receiver : Work W Value) := by
  unfold toText
  infer_instance

theorem Paired.applyReceiver (H : Paired p m m') (hv : p.Values v v') (hargs : List.Forall₂ p.Values args args') :
    Action.Paired Pairing.Values m.sites (m.applyReceiver v args) (m'.applyReceiver v' args') := by
  have hitems := rel_argumentsOf H (rel_arg hargs 1)
  unfold Machine.applyReceiver
  generalize m.argumentsOf (arg args 1) = x, m'.argumentsOf (arg args' 1) = x' at hitems ⊢
  cases hitems with
  | error e => exact .done H.atRest rfl (.error e)
  | ok hitems => exact .call H rfl (.value hv) (rel_arg hargs 0) hitems fun hn hsites hresult => .done hn hsites hresult

theorem Paired.load (env : Embedding W) (H : Paired p m m') (hargs : List.Forall₂ p.Values args args') :
    Action.Paired Pairing.Values m.sites (load env m args) (load env m' args') := by
  unfold Machine.load
  rw [textArg_eq H.heap hargs]
  cases textArg m.heap args 0 "load" with
  | ok path => exact H.loadFile env path
  | error e => exact .done H.atRest rfl (.error e)

/-- The functions of every machine do the same on machines that hold the same. -/
theorem Paired.builtin (hbare : env.Bare) (H : Paired p m m') (b : Builtin) (hv : p.Values v v')
    (hargs : List.Forall₂ p.Values args args') (hfits : (builtin env m b v args).Fits)
    (hfits' : (builtin env m' b v' args').Fits) :
    Action.Paired Pairing.Values m.sites (builtin env m b v args) (builtin env m' b v' args') := by
  have hwork {work work' : Work W Value} [Calm work] (h : Alike p Pairing.Values work work')
      (hfits : (Action.ofWork work m).Fits) (hfits' : (Action.ofWork work' m').Fits) :
      Action.Paired Pairing.Values m.sites (Action.ofWork work m) (Action.ofWork work' m') :=
    Action.paired_ofWork h H (sites_calm _ m) hfits hfits'
  cases b with
  | print => exact hwork (alike_printValues hargs) hfits hfits'
  | die => exact hwork (alike_die hargs) hfits hfits'
  | gc =>
    obtain ⟨q, hq⟩ := H.collect (m.heap.truthy (arg args 0)) (m'.heap.truthy (arg args' 0))
    exact .done hq.atRest (sites_collect m _) (.ok .undefined)
  | ffi =>
    have := calm_ffi hbare args
    exact hwork (alike_ffi hbare hargs) hfits hfits'
  | freeCallback => exact hwork (alike_freeCallback args args') hfits hfits'
  | arrayBuffer => exact hwork (alike_newBuffer hargs) hfits hfits'
  | dataView => exact hwork (alike_newView hargs) hfits hfits'
  | load => exact H.load env hargs
  | apply => exact H.applyReceiver hv hargs
  | push => exact hwork (alike_pushItems hv hargs) hfits hfits'
  | charCodeAt => exact .done H.atRest rfl (rel_charCodeAt H.heap hv hargs)
  | indexOf => exact .done H.atRest rfl (rel_indexOf H.heap hv hargs)
  | slice => exact hwork (alike_slice hv hargs) hfits hfits'
  | toText => exact hwork (alike_toText hv) hfits hfits'

theorem Paired.callHost (hbare : env.Bare) (H : Paired p m m') {callee callee' : Value} (hcallee : p.Values callee callee')
    (hv : p.Values v v') (hargs : List.Forall₂ p.Values args args') (hfits : (callHost env m callee v args).Fits)
    (hfits' : (callHost env m' callee' v' args').Fits) :
    Action.Paired Pairing.Values m.sites (callHost env m callee v args) (callHost env m' callee' v' args') := by
  cases hcallee with
  | native id =>
    have hnone : env.native? id = none := by
      unfold Embedding.native?
      rw [hbare.natives]
      simp
    unfold Machine.callHost at hfits hfits' ⊢
    simp only [hnone] at hfits hfits' ⊢
    generalize Builtin.ofId? id = known at hfits hfits' ⊢
    cases known with
    | some b => exact H.builtin hbare b hv hargs hfits hfits'
    | none => exact .done H.atRest rfl (.error _)
  | _ => exact .done H.atRest rfl (.error _)

end Machine

end ScriptEngine
