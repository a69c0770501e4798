import ScriptEngine.Proofs.Ffi.Registrations
import ScriptEngine.Proofs.Machine.Activities
/-!
Relations that everything a machine does keeps to.

Runs change a machine by strokes, by collections, by what they note about themselves, and by registering and
freeing callbacks; native calls are counted while they are under way. A relation that allows each of these is a
`Course`, and whatever comes to an end keeps to it (`Course.outcome`): runs, executions, calls and actions, at
any depth. Embedders are asked only for what their own functions do between their calls
(`Embedding.Keeps`).
-/

namespace ScriptEngine

namespace Action

variable {W α β : Type} {R : Machine W → Machine W → Prop} {P Q : Machine W → Prop} {m : Machine W}

/-- An action ends on a machine of a kind, if its calls keep to a relation. -/
def Ends (R : Machine W → Machine W → Prop) (P : Machine W → Prop) : Action W α → Prop
  | done m _ => P m
  | call m _ _ _ next => ∀ n result, R m n → (next n result).Ends R P
  | needsFile _ => True

theorem Ends.bind {a : Action W α} {next : Machine W → Except Error α → Action W β} (h : a.Ends R P)
    (hnext : ∀ n result, P n → (next n result).Ends R Q) : (a.bind next).Ends R Q := by
  induction a with
  | done n result => exact hnext n result h
  | call n callee receiver args rest ih => exact fun l result hl => ih l result (h l result hl)
  | needsFile path => trivial

theorem Ends.mono {a : Action W α} (h : a.Ends R P) (hPQ : ∀ n, P n → Q n) : a.Ends R Q := by
  induction a with
  | done n result => exact hPQ n h
  | call n callee receiver args rest ih => exact fun l result hl => ih l result (h l result hl)
  | needsFile path => trivial

theorem ends_ofWork {work : Machine.Work W α} (h : P (leftBy (work m))) : (ofWork work m).Ends R P := by
  unfold ofWork
  split
  · rename_i a n hwork
    rw [hwork] at h
    exact h
  · rename_i e n hwork
    rw [hwork] at h
    exact h

end Action

/-- What the functions of an embedder do besides their calls keeps to a relation. -/
structure Embedding.Keeps {W : Type} (env : Embedding W) (R : Machine W → Machine W → Prop) : Prop where
  natives : ∀ f ∈ env.natives, ∀ m receiver args, (f.call m receiver args).Ends R (R m)
  host : ∀ host, env.host = some host → ∀ m f args, (host.call m f args).Ends R (R m)

namespace Machine

variable {W α : Type} {env : Embedding W} {R : Machine W → Machine W → Prop} {collects : Prop}
  {m m' : Machine W}

/-- What a machine keeps besides its stacks and its accounts. -/
structure Store where
  heap : Heap
  roots : Roots
  callbacks : Ffi.Callbacks
  nativeCalls : Nat

/-- What a machine keeps besides its stacks and its accounts. -/
def store (m : Machine W) : Store :=
  ⟨m.heap, m.roots, m.callbacks, m.nativeCalls⟩

/-- A relation that allows what machines do by themselves. `collects` says that the function that collects
may be called. -/
structure Course (R : Machine W → Machine W → Prop) (collects : Prop) : Prop where
  trans : ∀ {m m' m''}, R m m' → R m' m'' → R m m''
  /-- Stacks and accounts may change. -/
  apart : ∀ {m m'}, m'.store = m.store → R m m'
  change : ∀ {m h}, m.heap.Change h → R m { m with heap := h }
  /-- A collection between instructions. -/
  poll : ∀ m, R m m.collectIfNeeded
  collect : collects → ∀ m full, R m (m.collect full).1
  register : ∀ m r, R m { m with callbacks := (m.callbacks.register r).1 }
  free : ∀ m func userdata, R m { m with callbacks := (m.callbacks.remove func userdata).1 }
  /-- What comes to an end while a native call is under way. -/
  native : ∀ {m n}, R { m with nativeCalls := m.nativeCalls + 1 } n → R m { n with nativeCalls := n.nativeCalls - 1 }

/-! ## Work -/

theorem Course.refl (h : Course R collects) (m : Machine W) : R m m :=
  h.apart rfl

theorem Course.strokes (h : Course R collects) (hm : m.Strokes m') : R m m' := by
  induction hm with
  | refl => exact h.refl m
  | tail _ hstroke ih =>
    refine h.trans ih ?_
    cases hstroke with
    | heap hchange => exact h.change hchange
    | besides hheap hbackground =>
      refine h.apart ?_
      simp only [background, Background.mk.injEq] at hbackground
      obtain ⟨-, -, hroots, hcallbacks, hcalls, -⟩ := hbackground
      simp only [store, hheap, hroots, hcallbacks, hcalls]

theorem Course.made (h : Course R collects) {work : Work W α} (hwork : Made work) (m : Machine W) :
    R m (leftBy (work m)) :=
  h.strokes (hwork m)

/-! ## Accounts -/

@[simp] theorem store_noteFailure (m : Machine W) (offset : Nat) (e : Error) :
    (m.noteFailure offset e).store = m.store := by
  cases e <;> rfl

@[simp] theorem store_leaveHost (m : Machine W) : m.leaveHost.store = m.store := by
  unfold leaveHost
  split <;> rfl

theorem store_leaveExecution (m : Machine W) (start : Depths) (receiver : Value) (result : Except Error Value) :
    (m.leaveExecution start receiver result).1.store = m.store := by
  unfold leaveExecution
  split
  · rfl
  · simp only
    split <;> rfl
  · rfl

theorem store_compileScript (filename source : String) (m : Machine W) :
    (leftBy (compileScript filename source m)).store = m.store := by
  simp only [compileScript, bind_eq, inspect]
  cases Code.compile filename source m.options.placeholderWidth with
  | error e => rfl
  | ok unit =>
    simp only [commit]
    cases m.program.commit unit <;> rfl

theorem store_printValues (args : List Value) (m : Machine W) :
    (leftBy (printValues env args m)).store = m.store := by
  simp only [printValues, bind_eq, inspect, writeLine]
  cases m.output.broken <;> rfl

/-! ## Actions -/

/-- Where an entry starts counts as where its body does. -/
theorem Course.entry (h : Course R collects) {body : Machine W → Action W α} (hbody : ∀ n, (body n).Ends R (R n))
    (m : Machine W) : (m.entry body).Ends R (R m) := by
  have hreset : R m { m with lastError := none, trace := [] } := h.apart rfl
  unfold Machine.entry
  split
  · refine (hbody _).bind fun n result hn => ?_
    cases result with
    | ok a => exact h.trans hreset hn
    | error e => exact h.trans hreset (h.trans hn (h.apart rfl))
  · exact hbody m

theorem Course.runScript (h : Course R collects) (filename source : String) (m : Machine W) :
    (m.runScript filename source).Ends R (R m) := by
  have hcompile : R m (leftBy (compileScript filename source m)) := h.apart (store_compileScript filename source m)
  refine (Action.ends_ofWork hcompile).bind fun n committed hn => ?_
  cases committed with
  | error e => exact hn
  | ok part => exact fun l result hl => h.trans (h.trans hn hl) (h.apart rfl)

theorem Course.loadFile (h : Course R collects) (path : String) (m : Machine W) :
    (loadFile env m path).Ends R (R m) := by
  refine h.entry (fun n => ?_) m
  split
  · exact h.refl n
  · unfold runFile
    split
    · exact h.runScript _ _ n
    · exact h.refl n
    · trivial

/-- The function that collects is called only where the relation allows it. -/
theorem Course.builtin (h : Course R collects) {b : Builtin} (hb : b = .gc → collects) (m : Machine W)
    (receiver : Value) (args : List Value) : (builtin env m b receiver args).Ends R (R m) := by
  have hmade {work : Work W Value} (hwork : Made work) : (Action.ofWork work m).Ends R (R m) :=
    Action.ends_ofWork (h.made hwork m)
  cases b with
  | print => exact Action.ends_ofWork (h.apart (store_printValues args m))
  | die => exact hmade (made_die args)
  | gc =>
    show (Action.ofWork (collectNow args) m).Ends R (R m)
    refine Action.ends_ofWork ?_
    rw [collectNow_eq]
    exact h.collect (hb rfl) m _
  | ffi => exact hmade (made_ffi env args)
  | freeCallback =>
    show (Action.ofWork (freeCallback args) m).Ends R (R m)
    exact Action.ends_ofWork (h.free m (arg args 0) (arg args 1))
  | arrayBuffer => exact hmade (made_newBuffer args)
  | dataView => exact hmade (made_newView args)
  | load =>
    show (load env m args).Ends R (R m)
    unfold load
    split
    · exact h.loadFile _ m
    · exact h.refl m
  | apply =>
    show (applyReceiver m receiver args).Ends R (R m)
    unfold applyReceiver
    split
    · exact fun n result hn => hn
    · exact h.refl m
  | push => exact hmade (made_pushItems receiver args)
  | charCodeAt | indexOf => exact h.refl m
  | slice => exact hmade (made_slice receiver args)
  | toText => exact hmade (made_toText receiver)

/-! ## Native code -/

theorem Course.registerFrom (h : Course R collects) (func : Value) (callback : Ffi.Signature) (types : List Ffi.CType)
    (vs : List Value) (args : List Ffi.Arg) (m : Machine W) :
    R m { m with callbacks := (registerFrom m.callbacks func callback types vs args).1 } := by
  induction types generalizing vs args m with
  | nil => exact h.apart rfl
  | cons type types ih =>
    match vs, args with
    | [], _ => exact h.apart rfl
    | _ :: _, [] => exact h.apart rfl
    | v :: vs, arg :: args =>
      unfold Machine.registerFrom
      by_cases htype : type = .userdata
      · simp only [htype, if_true]
        exact h.trans (h.register m ⟨func, v, callback⟩)
          (ih vs args { m with callbacks := (m.callbacks.register ⟨func, v, callback⟩).1 })
      · simp only [htype, if_false]
        exact ih vs args m

theorem Course.registerCall (h : Course R collects) (signature : Ffi.Signature) (args : List Value)
    (marshaled : List Ffi.Arg) (m : Machine W) :
    R m { m with callbacks := (Machine.register m.callbacks signature args marshaled).1 } := by
  unfold Machine.register
  split
  · exact h.refl m
  · exact h.registerFrom _ _ _ _ _ m

/-- A call that is refused leaves the machine as it was; one that is accepted changes its callbacks. -/
theorem acceptCall_cases (env : Embedding W) (id : SignatureId) (args : List Value) (m : Machine W) :
    (∃ e, acceptCall env id args m = .error e m)
      ∨ ∃ call signature marshaled, acceptCall env id args m
          = .ok call { m with callbacks := (register m.callbacks signature args marshaled).1 } := by
  simp only [acceptCall, bind_eq, inspect]
  cases m.heap.foreignFunction id with
  | error e => exact .inl ⟨e, rfl⟩
  | ok f =>
    dsimp only
    cases (marshal m.heap f args).mapError (Error.within "failed to call FFIed function") with
    | error e => exact .inl ⟨e, rfl⟩
    | ok marshaled =>
      cases env.requireHost with
      | error e => exact .inl ⟨e, rfl⟩
      | ok host => exact .inr ⟨_, f.signature, marshaled, rfl⟩

/-- A call of native code ends where it began, or some strokes behind the end of the native call. -/
theorem Course.ends_callForeign (h : Course R collects) (henv : env.Keeps R) (m : Machine W) (id : SignatureId)
    (args : List Value) :
    (callForeign env m id args).Ends R fun n => n = m ∨ ∃ c l, R m { m with callbacks := c }
      ∧ R { m with callbacks := c, nativeCalls := m.nativeCalls + 1 } l
      ∧ Strokes { l with nativeCalls := l.nativeCalls - 1 } n := by
  unfold Machine.callForeign Action.ofWork
  rcases acceptCall_cases env id args m with ⟨e, haccept⟩ | ⟨call, signature, marshaled, haccept⟩
  · rw [haccept]
    exact .inl rfl
  · rw [haccept]
    refine (henv.host call.host (host_of_acceptCall haccept) _ call.func call.args).bind fun l result hl => ?_
    have hcall := h.registerCall signature args marshaled m
    cases result with
    | error e => exact .inr ⟨_, l, hcall, hl, .refl⟩
    | ok a =>
      have hvalue := made_toValue call.func.signature.ret a { l with nativeCalls := l.nativeCalls - 1 }
      exact Action.ends_ofWork (.inr ⟨_, l, hcall, hl, hvalue⟩)

theorem Course.callForeign (h : Course R collects) (henv : env.Keeps R) (m : Machine W) (id : SignatureId)
    (args : List Value) : (callForeign env m id args).Ends R (R m) := by
  refine (h.ends_callForeign henv m id args).mono fun n hn => ?_
  rcases hn with rfl | ⟨c, l, hc, hl, hn⟩
  · exact h.refl n
  · exact h.trans hc (h.trans (h.native hl) (h.strokes hn))

/-- The callee is the function that collects. -/
def IsCollector (callee : Value) : Prop :=
  ∃ id, callee = .native id ∧ Builtin.ofId? id = some .gc

theorem Course.callHost (h : Course R collects) (henv : env.Keeps R) (m : Machine W) {callee : Value}
    (hcallee : IsCollector callee → collects) (receiver : Value) (args : List Value) :
    (callHost env m callee receiver args).Ends R (R m) := by
  unfold Machine.callHost
  split
  · rename_i id
    split
    · rename_i b hb
      exact h.builtin (fun hgc => hcallee ⟨id, rfl, hgc ▸ hb⟩) m receiver args
    · split
      · rename_i f hnative
        exact henv.natives f (mem_of_native? hnative) m receiver args
      · exact h.refl m
  · exact h.callForeign henv m _ args
  · exact h.refl m

end Machine

/-! ## Whatever comes to an end -/

namespace Activity

open Machine (advance callCallee IsCollector Course)

variable {W : Type} {env : Embedding W} {R : Machine W → Machine W → Prop} {collects : Prop}
  {t t' : Activity W} {m n : Machine W}

/-- An activity calls the function that collects. -/
inductive Collects (env : Embedding W) : Activity W → Prop where
  | run {m m' : Machine W} {c c' : Cursor} {entries : List Depths} {callee receiver : Value} {args : List Value}
    {slot : Nat} (hgo : m.interrupted = false)
    (h : advance env c m.collectIfNeeded = .ok (.host callee receiver args slot c') m') (hcallee : IsCollector callee) :
    Collects env (running m c entries)
  | call {m : Machine W} {callee receiver : Value} {args : List Value} (hcallee : IsCollector callee) :
    Collects env (call m callee receiver args)

/-- Wherever an activity leads, the function that collects is not called unless it may be. -/
def Calls (env : Embedding W) (collects : Prop) (t : Activity W) : Prop :=
  ∀ t', Leads env t t' → t'.Collects env → collects

theorem Calls.next (h : t.Calls env collects) (hnext : Next env t t') : t'.Calls env collects :=
  fun t'' hleads => h t'' (.head hnext hleads)

theorem Calls.now (h : t.Calls env collects) (ht : t.Collects env) : collects :=
  h t .refl ht

/-- An end keeps to a relation; that of an action is of whatever kind the action ends on. -/
def Reaches (R : Machine W → Machine W → Prop) (n : Machine W) : Activity W → Prop
  | action _ a => ∀ P : Machine W → Prop, a.Ends R P → P n
  | t => R t.machine n

/-- What holds of all that comes to an end within a budget. -/
def Keeps (env : Embedding W) (R : Machine W → Machine W → Prop) (collects : Prop) (budget : Nat) : Prop :=
  ∀ {t : Activity W} {n : Machine W} {result : Except Error Value}, t.Calls env collects →
    t.outcome env budget = .done n result → t.Reaches R n

section Steps

variable {budget : Nat} {result : Except Error Value} (h : Course R collects) (henv : env.Keeps R)
  (ih : Keeps env R collects budget)

include h henv ih

theorem Keeps.running {c : Cursor} {entries : List Depths} (hcalls : (running m c entries).Calls env collects)
    (hdone : Machine.run env m c (budget + 1) = .done n result) : R m n := by
  rw [Machine.run_succ] at hdone
  split at hdone
  · cases hdone
    exact h.refl m
  · rename_i hgo
    have hgo' : m.interrupted = false := Bool.eq_false_iff.mpr hgo
    refine h.trans (h.poll m) ?_
    have hstep := h.made (Machine.made_advance env c) m.collectIfNeeded
    cases hadvance : advance env c m.collectIfNeeded with
    | error e l =>
      rw [hadvance] at hstep hdone
      cases hdone
      exact h.trans hstep (h.apart (Machine.store_noteFailure _ _ _))
    | ok step l =>
      rw [hadvance] at hstep hdone
      refine h.trans hstep ?_
      cases step with
      | finish v =>
        cases hdone
        exact h.refl n
      | goOn c' => exact ih (hcalls.next (.step hgo' hadvance)) hdone
      | host callee receiver args slot c' =>
        obtain ⟨l', r, hperform, hresume⟩ := Outcome.andThen_eq_done hdone
        have hends := h.callHost henv l (fun hcallee => hcalls.now (.run hgo' hadvance hcallee)) receiver args
        refine h.trans (ih (hcalls.next (.host hgo' hadvance)) hperform _ hends) ?_
        cases r with
        | error e =>
          cases hresume
          exact h.apart ((Machine.store_noteFailure _ _ _).trans (Machine.store_leaveHost l'))
        | ok v =>
          have hleave : R l' (l'.leaveHost.putResult slot v) := h.apart (Machine.store_leaveHost l')
          exact h.trans hleave (ih (hcalls.next (.resume hgo' hadvance hperform)) hresume)

omit henv in
theorem Keeps.execution {start : Nat} {receiver : Value} {args : List Value}
    (hcalls : (execution m start receiver args).Calls env collects)
    (hdone : Machine.execute env m start receiver args (budget + 1) = .done n result) : R m n := by
  rw [Machine.execute_succ] at hdone
  have hleave {l : Machine W} {r : Except Error Value}
      (hl : Machine.endExecution m.depths m.receiver l r = .done n result) : R l n := by
    cases hl
    exact h.apart (Machine.store_leaveExecution _ _ _ _)
  have henter : R m (m.enterExecution receiver args) := h.apart rfl
  split at hdone
  · exact h.trans henter (hleave hdone)
  · rename_i c hload
    obtain ⟨l, r, hrun, hend⟩ := Outcome.andThen_eq_done hdone
    exact h.trans henter (h.trans (ih (hcalls.next (.enter hload)) hrun) (hleave hend))

theorem Keeps.call {callee receiver : Value} {args : List Value}
    (hcalls : (call m callee receiver args).Calls env collects)
    (hdone : Machine.callValue env m callee receiver args (budget + 1) = .done n result) : R m n := by
  have houtside (hcallee : (∃ id, callee = .native id) ∨ ∃ id, callee = .signature id)
      (hhost : Machine.hostCall env m callee receiver args budget = .done n result) : R m n := by
    obtain ⟨l, r, hperform, hleave⟩ := Outcome.andThen_eq_done hhost
    cases hleave
    have henter : R m (m.enterHostCall callee receiver args) := h.apart rfl
    have hends := h.callHost henv (m.enterHostCall callee receiver args) (fun hc => hcalls.now (.call hc)) receiver args
    exact h.trans henter (h.trans (ih (hcalls.next (.outside hcallee)) hperform _ hends) (h.apart rfl))
  rw [Machine.callValue_succ] at hdone
  split at hdone
  · exact ih (hcalls.next .function) hdone
  · exact houtside (.inl ⟨_, rfl⟩) hdone
  · exact houtside (.inr ⟨_, rfl⟩) hdone
  · cases hdone
    exact h.refl m

omit h henv in
theorem Keeps.action {a : Action W Value} {start : Machine W} (hcalls : (action start a).Calls env collects)
    (hdone : Machine.perform env a (budget + 1) = .done n result) {P : Machine W → Prop} (hends : a.Ends R P) : P n := by
  cases a with
  | done l r =>
    cases hdone
    exact hends
  | needsFile path => cases hdone
  | call l callee receiver args next =>
    rw [Machine.perform_call] at hdone
    obtain ⟨l', r, hcall, hrest⟩ := Outcome.andThen_eq_done hdone
    have hl : R l l' := by
      cases callee with
      | code start => exact ih (hcalls.next .code) hcall
      | value v => exact ih (hcalls.next .value) hcall
    exact ih (hcalls.next (.result hcall)) hrest P (hends l' r hl)

end Steps

/-- Whatever comes to an end keeps to the relation. -/
theorem keeps (h : Course R collects) (henv : env.Keeps R) (budget : Nat) : Keeps env R collects budget := by
  induction budget with
  | zero =>
    intro t n result _ hdone
    cases t <;> cases hdone
  | succ budget ih =>
    intro t n result hcalls hdone
    cases t with
    | running m c entries => exact ih.running h henv hcalls hdone
    | execution m start receiver args => exact ih.execution h hcalls hdone
    | call m callee receiver args => exact ih.call h henv hcalls hdone
    | action start a => exact fun P hends => ih.action hcalls hdone hends

end Activity

namespace Machine

variable {W : Type} {env : Embedding W} {R : Machine W → Machine W → Prop} {collects : Prop} {m n : Machine W}

/-- What an action comes to, with all the calls that it makes, is of the kind that it ends on. -/
theorem Course.perform (h : Course R collects) (henv : env.Keeps R) {a : Action W Value} {budget : Nat}
    {result : Except Error Value} {P : Machine W → Prop} (hcalls : (Activity.action m a).Calls env collects)
    (hends : a.Ends R P) (hdone : perform env a budget = .done n result) : P n :=
  Activity.keeps h henv budget hcalls hdone P hends

end Machine

end ScriptEngine
