import ScriptEngine.Proofs.Machine.Courses
import ScriptEngine.Proofs.Machine.Sessions
/-!
Which error is recorded.

An entry takes itself for the outermost one when no execution is under way. Executions are counted, so whatever
goes on within one leaves the recorded error alone, and the count is the same when it ends (`runsSettle`). The
outermost entry records the error that it ends with, and none if it ends with a value (`outermost_records`). Two
kinds of requests are apart. A function outside of the code is called without an execution around it, so
the entries that it makes itself count as outermost ones, and a failure that it survives stays recorded. Arguments
that are not in an array are refused before there is an entry.
-/

namespace ScriptEngine

namespace Machine

variable {W α : Type} {env : Embedding W} {m n l : Machine W}

/-! ## The account of errors -/

/-- How deep executions are nested, and the recorded error. -/
def account (m : Machine W) : Nat × Option Error :=
  (m.depth, m.lastError)

/-- Executions are nested as deep as before, and if there is one, the recorded error is the same. -/
structure Settled (m n : Machine W) : Prop where
  depth : n.depth = m.depth
  lastError : 0 < m.depth → n.lastError = m.lastError

theorem Settled.of_account (h : n.account = m.account) : Settled m n :=
  ⟨congrArg Prod.fst h, fun _ => congrArg Prod.snd h⟩

theorem Settled.refl (m : Machine W) : Settled m m :=
  .of_account rfl

theorem Settled.trans (h : Settled m l) (h' : Settled l n) : Settled m n :=
  ⟨h'.depth.trans h.depth, fun hm => (h'.lastError (h.depth ▸ hm)).trans (h.lastError hm)⟩

theorem account_of_background (h : n.background = m.background) : n.account = m.account := by
  simp only [background, Background.mk.injEq] at h
  obtain ⟨-, -, -, -, -, hdepth, -, -, -, -, hlast⟩ := h
  exact Prod.ext hdepth hlast

theorem account_made {work : Work W α} (h : Made work) (m : Machine W) :
    (leftBy (work m)).account = m.account :=
  account_of_background (h m).background

theorem account_collect (m : Machine W) (full : Bool) : (m.collect full).1.account = m.account := by
  unfold collect
  dsimp only
  split <;> rfl

theorem account_collectIfNeeded (m : Machine W) : m.collectIfNeeded.account = m.account := by
  unfold collectIfNeeded
  split
  · exact account_collect m false
  · rfl

theorem account_noteFailure (m : Machine W) (offset : Nat) (e : Error) :
    (m.noteFailure offset e).account = m.account := by
  cases e <;> rfl

theorem account_leaveHost (m : Machine W) : m.leaveHost.account = m.account := by
  unfold leaveHost
  split <;> rfl

/-- Ending an execution takes it off the count and leaves the recorded error alone. -/
theorem account_leaveExecution (m : Machine W) (start : Depths) (receiver : Value) (result : Except Error Value) :
    (m.leaveExecution start receiver result).1.account = (m.depth - 1, m.lastError) := by
  unfold leaveExecution
  split
  · rfl
  · dsimp only
    split <;> rfl
  · rfl

theorem account_compileScript (filename source : String) (m : Machine W) :
    (leftBy (compileScript filename source m)).account = m.account := by
  simp only [compileScript, bind_eq, inspect]
  cases Code.compile filename source m.options.placeholderWidth with
  | error e => rfl
  | ok unit =>
    simp only [commit]
    cases m.program.commit unit <;> rfl

theorem account_printValues (args : List Value) (m : Machine W) :
    (leftBy (printValues env args m)).account = m.account := by
  simp only [printValues, bind_eq, inspect, writeLine]
  cases m.output.broken <;> rfl

/-! ## Actions -/

/-- What an action does by itself settles what it starts with. -/
abbrev Settles (a : Action W α) (m : Machine W) : Prop :=
  a.Ends Settled (Settled m)

theorem settles_ofWork {work : Work W α} (h : (leftBy (work m)).account = m.account) :
    Settles (.ofWork work m) m :=
  Action.ends_ofWork (.of_account h)

/-- Within an execution an entry is its body; the outermost entry may record what it likes. -/
theorem settles_entry {body : Machine W → Action W α} (hbody : ∀ n, Settles (body n) n) (m : Machine W) :
    Settles (m.entry body) m := by
  unfold entry
  split
  · rename_i hdepth
    have hreset : Settled m { m with lastError := none, trace := [] } :=
      ⟨rfl, fun hpos => absurd hdepth hpos.ne'⟩
    refine (hbody _).bind fun n result hn => ?_
    cases result with
    | ok a => exact hreset.trans hn
    | error e => exact ⟨hn.depth, fun hpos => absurd hdepth hpos.ne'⟩
  · exact hbody m

theorem settles_runScript (filename source : String) (m : Machine W) : Settles (m.runScript filename source) m := by
  refine (settles_ofWork (account_compileScript filename source m)).bind fun n committed hn => ?_
  cases committed with
  | error e => exact hn
  | ok part => exact fun l result hl => hn.trans (hl.trans (.of_account rfl))

theorem settles_runFile (path : String) (m : Machine W) : Settles (runFile env m path) m := by
  unfold runFile
  split
  · exact settles_runScript _ _ m
  · exact .refl m
  · trivial

theorem settles_loadFile (path : String) (m : Machine W) : Settles (loadFile env m path) m := by
  refine settles_entry (fun n => ?_) m
  split
  · exact .refl n
  · exact settles_runFile path n

theorem settles_builtin (b : Builtin) (m : Machine W) (receiver : Value) (args : List Value) :
    Settles (builtin env m b receiver args) m := by
  have hmade {work : Work W Value} (hwork : Made work) : Settles (.ofWork work m) m :=
    settles_ofWork (account_made hwork m)
  cases b with
  | print => exact settles_ofWork (account_printValues args m)
  | die => exact hmade (made_die args)
  | gc =>
    show Settles (.ofWork (collectNow args) m) m
    refine settles_ofWork ?_
    rw [collectNow_eq]
    exact account_collect m _
  | ffi => exact hmade (made_ffi env args)
  | freeCallback =>
    show Settles (.ofWork (freeCallback args) m) m
    exact settles_ofWork rfl
  | arrayBuffer => exact hmade (made_newBuffer args)
  | dataView => exact hmade (made_newView args)
  | load =>
    show Settles (load env m args) m
    unfold load
    split
    · exact settles_loadFile _ m
    · exact .refl m
  | apply =>
    show Settles (applyReceiver m receiver args) m
    unfold applyReceiver
    split
    · exact fun n result hn => hn
    · exact .refl m
  | push => exact hmade (made_pushItems receiver args)
  | charCodeAt | indexOf => exact .refl m
  | slice => exact hmade (made_slice receiver args)
  | toText => exact hmade (made_toText receiver)

theorem settles_callForeign (henv : env.Keeps Settled) (m : Machine W) (id : SignatureId) (args : List Value) :
    Settles (callForeign env m id args) m := by
  unfold callForeign Action.ofWork
  rcases acceptCall_cases env id args m with ⟨e, haccept⟩ | ⟨call, signature, marshaled, haccept⟩
  · rw [haccept]
    exact .refl m
  · rw [haccept]
    refine (henv.host call.host (host_of_acceptCall haccept) _ call.func call.args).bind fun l result hl => ?_
    have hcall : Settled m { l with nativeCalls := l.nativeCalls - 1 } := ⟨hl.depth, hl.lastError⟩
    cases result with
    | error e => exact hcall
    | ok a => exact Action.ends_ofWork (hcall.trans (.of_account (account_made (made_toValue _ a) _)))

theorem settles_callHost (henv : env.Keeps Settled) (m : Machine W) (callee receiver : Value) (args : List Value) :
    Settles (callHost env m callee receiver args) m := by
  unfold callHost
  split
  · rename_i id
    split
    · exact settles_builtin _ m receiver args
    · split
      · rename_i f hnative
        exact henv.natives f (mem_of_native? hnative) m receiver args
      · exact .refl m
  · exact settles_callForeign henv m _ args
  · exact .refl m

/-! ## Runs -/

/-- What holds of runs that take `budget` at most. An execution does not touch the account at all. -/
structure RunsSettle (env : Embedding W) (budget : Nat) : Prop where
  run : ∀ {m n : Machine W} {c : Cursor} {result : Except Error Value},
    Machine.run env m c budget = .done n result → Settled m n
  execute : ∀ {m n : Machine W} {start : Nat} {receiver : Value} {args : List Value} {result : Except Error Value},
    Machine.execute env m start receiver args budget = .done n result → n.account = m.account
  callValue : ∀ {m n : Machine W} {callee receiver : Value} {args : List Value} {result : Except Error Value},
    Machine.callValue env m callee receiver args budget = .done n result → Settled m n
  perform : ∀ {n : Machine W} {a : Action W Value} {P : Machine W → Prop} {result : Except Error Value},
    a.Ends Settled P → Machine.perform env a budget = .done n result → P n

section Steps

variable {budget : Nat} {result : Except Error Value} (ih : RunsSettle env budget)

include ih

theorem RunsSettle.callCallee {callee : Callee} {receiver : Value} {args : List Value}
    (h : Machine.callCallee env m callee receiver args budget = .done n result) : Settled m n := by
  cases callee with
  | code start => exact .of_account (ih.execute h)
  | value v => exact ih.callValue h

theorem RunsSettle.run_succ (henv : env.Keeps Settled) {c : Cursor}
    (h : Machine.run env m c (budget + 1) = .done n result) : Settled m n := by
  rw [Machine.run_succ] at h
  split at h
  · cases h
    exact .refl m
  · have hstep : (leftBy (advance env c m.collectIfNeeded)).account = m.account :=
      (account_made (made_advance env c) _).trans (account_collectIfNeeded m)
    cases hadvance : advance env c m.collectIfNeeded with
    | error e l =>
      rw [hadvance] at h hstep
      cases h
      exact .of_account ((account_noteFailure _ _ _).trans hstep)
    | ok step l =>
      rw [hadvance] at h hstep
      refine Settled.trans (.of_account hstep) ?_
      cases step with
      | finish v =>
        cases h
        exact .refl n
      | goOn next => exact ih.run h
      | host callee receiver args slot next =>
        obtain ⟨l', r, hperform, hresume⟩ := Outcome.andThen_eq_done h
        refine (ih.perform (settles_callHost henv l callee receiver args) hperform).trans ?_
        have hleave : Settled l' l'.leaveHost := .of_account (account_leaveHost l')
        cases r with
        | error e =>
          cases hresume
          exact hleave.trans (.of_account (account_noteFailure _ _ _))
        | ok v =>
          have hput : Settled l'.leaveHost (l'.leaveHost.putResult slot v) := .of_account rfl
          exact hleave.trans (hput.trans (ih.run hresume))

/-- The code of an execution runs within it, so the recorded error is safe whatever the depth was before. -/
theorem RunsSettle.execute_succ {start : Nat} {receiver : Value} {args : List Value}
    (h : Machine.execute env m start receiver args (budget + 1) = .done n result) : n.account = m.account := by
  have hend {l : Machine W} {r : Except Error Value} (hl : Settled (m.enterExecution receiver args) l)
      (hdone : endExecution m.depths m.receiver l r = .done n result) : n.account = m.account := by
    cases hdone
    rw [account_leaveExecution, hl.depth, hl.lastError (Nat.succ_pos _)]
    rfl
  rw [Machine.execute_succ] at h
  split at h
  · exact hend (.refl _) h
  · obtain ⟨l, r, hrun, hdone⟩ := Outcome.andThen_eq_done h
    exact hend (ih.run hrun) hdone

theorem RunsSettle.hostCall (henv : env.Keeps Settled) {callee receiver : Value} {args : List Value}
    (h : Machine.hostCall env m callee receiver args budget = .done n result) : Settled m n := by
  obtain ⟨l, r, hperform, hdone⟩ := Outcome.andThen_eq_done h
  cases hdone
  have hends := ih.perform (settles_callHost henv (m.enterHostCall callee receiver args) callee receiver args) hperform
  exact ⟨hends.depth, hends.lastError⟩

theorem RunsSettle.callValue_succ (henv : env.Keeps Settled) {callee receiver : Value} {args : List Value}
    (h : Machine.callValue env m callee receiver args (budget + 1) = .done n result) : Settled m n := by
  rw [Machine.callValue_succ] at h
  split at h
  · exact .of_account (ih.execute h)
  · exact ih.hostCall henv h
  · exact ih.hostCall henv h
  · cases h
    exact .refl m

theorem RunsSettle.perform_succ {a : Action W Value} {P : Machine W → Prop} (hends : a.Ends Settled P)
    (h : Machine.perform env a (budget + 1) = .done n result) : P n := by
  cases a with
  | done l r =>
    cases h
    exact hends
  | needsFile path => cases h
  | call l callee receiver args next =>
    rw [perform_call] at h
    obtain ⟨l', r, hcall, hrest⟩ := Outcome.andThen_eq_done h
    exact ih.perform (hends l' r (ih.callCallee hcall)) hrest

end Steps

theorem runsSettle (henv : env.Keeps Settled) (budget : Nat) : RunsSettle env budget := by
  induction budget with
  | zero =>
    exact ⟨(fun h => by cases h), (fun h => by cases h), (fun h => by cases h), fun _ h => by cases h⟩
  | succ budget ih =>
    exact ⟨ih.run_succ henv, ih.execute_succ, ih.callValue_succ henv, ih.perform_succ⟩

/-! ## Entries -/

/-- An action that is followed by a mere result. -/
theorem perform_bind {a : Action W Value} {next : Machine W → Except Error Value → Action W Value} {budget : Nat}
    {result : Except Error Value} (hnext : ∀ l r, ∃ n result, next l r = .done n result)
    (hdone : perform env (a.bind next) budget = .done n result) :
    ∃ l r, perform env a budget = .done l r ∧ next l r = .done n result := by
  induction a generalizing budget with
  | done l r =>
    obtain ⟨n', result', hlast⟩ := hnext l r
    rw [show (Action.done l r).bind next = next l r from rfl, hlast] at hdone
    cases budget with
    | zero => cases hdone
    | succ budget =>
      cases hdone
      exact ⟨l, r, rfl, hlast⟩
  | needsFile path => cases budget <;> cases hdone
  | call l callee receiver args rest ih =>
    cases budget with
    | zero => cases hdone
    | succ budget =>
      rw [show (Action.call l callee receiver args rest).bind next
        = .call l callee receiver args fun n r => (rest n r).bind next from rfl, perform_call] at hdone
      obtain ⟨l', r, hcall, hrest⟩ := Outcome.andThen_eq_done hdone
      obtain ⟨l'', r', hperform, hlast⟩ := ih l' r hrest
      refine ⟨l'', r', ?_, hlast⟩
      rw [perform_call, hcall]
      exact hperform

/-- Whatever comes of an action, the account is what it was. -/
def Unaccounted (env : Embedding W) (m : Machine W) (a : Action W Value) : Prop :=
  ∀ (budget : Nat) (n : Machine W) (result : Except Error Value),
    perform env a budget = .done n result → n.account = m.account

theorem unaccounted_done (h : n.account = m.account) (result : Except Error Value) :
    Unaccounted env m (.done n result) := by
  intro budget l r hdone
  cases budget with
  | zero => cases hdone
  | succ budget =>
    cases hdone
    exact h

/-- A call of code, followed by a mere result. -/
theorem unaccounted_code (henv : env.Keeps Settled) (hl : l.account = m.account) (start : Nat) (receiver : Value)
    (args : List Value) {next : Machine W → Except Error Value → Action W Value}
    (hnext : ∀ l' r, Unaccounted env l' (next l' r)) :
    Unaccounted env m (.call l (.code start) receiver args next) := by
  intro budget n r hdone
  cases budget with
  | zero => cases hdone
  | succ budget =>
    rw [perform_call] at hdone
    obtain ⟨l', r', hcall, hrest⟩ := Outcome.andThen_eq_done hdone
    exact (hnext l' r' budget n r hrest).trans (((runsSettle henv budget).execute hcall).trans hl)

theorem unaccounted_runScript (henv : env.Keeps Settled) (filename source : String) (m : Machine W) :
    Unaccounted env m (m.runScript filename source) := by
  have hcompile := account_compileScript filename source m
  unfold runScript Action.ofWork
  split
  · rename_i committed l heq
    have hl : l.account = m.account := by rwa [heq] at hcompile
    exact unaccounted_code henv hl _ _ _ fun l' r => unaccounted_done rfl r
  · rename_i e l heq
    have hl : l.account = m.account := by rwa [heq] at hcompile
    exact unaccounted_done hl _

theorem unaccounted_runFile (henv : env.Keeps Settled) (path : String) (m : Machine W) :
    Unaccounted env m (runFile env m path) := by
  unfold runFile
  split
  · exact unaccounted_runScript henv _ _ m
  · exact unaccounted_done rfl _
  · intro budget n r hdone
    cases budget <;> cases hdone

/-- The callee is a function outside of the code. -/
def IsOutside (callee : Value) : Prop :=
  (∃ id, callee = .native id) ∨ ∃ id, callee = .signature id

/-- What is not a function outside of the code runs as an execution or not at all. -/
theorem unaccounted_call (henv : env.Keeps Settled) {callee : Value} (hcallee : ¬ IsOutside callee)
    (receiver : Value) (args : List Value) (m : Machine W) :
    Unaccounted env m (.call m (.value callee) receiver args .done) := by
  intro budget n result hdone
  cases budget with
  | zero => cases hdone
  | succ budget =>
    rw [perform_call] at hdone
    obtain ⟨l, r, hcall, hlast⟩ := Outcome.andThen_eq_done hdone
    refine (unaccounted_done rfl r budget n result hlast).trans ?_
    replace hcall : callValue env m callee receiver args budget = .done l r := hcall
    cases budget with
    | zero => cases hcall
    | succ budget =>
      rw [callValue_succ] at hcall
      split at hcall
      · exact (runsSettle henv budget).execute hcall
      · exact absurd (.inl ⟨_, rfl⟩) hcallee
      · exact absurd (.inr ⟨_, rfl⟩) hcallee
      · cases hcall
        rfl

/-- The recorded error tells how an entry ended. -/
structure Records (n : Machine W) (result : Except Error Value) (silent : Prop) : Prop where
  error : ∀ e, result = .error e → n.lastError = some e
  value : silent → ∀ v, result = .ok v → n.lastError = none

/-- The outermost entry records the error that it ends with; and none if it ends with a value, unless its
body records errors itself. -/
theorem records_entry {body : Machine W → Action W Value} (hdepth : m.depth = 0) {silent : Prop}
    (hbody : silent → ∀ l, Unaccounted env l (body l)) {budget : Nat} {result : Except Error Value}
    (hdone : perform env (m.entry body) budget = .done n result) : Records n result silent := by
  unfold entry at hdone
  rw [if_pos hdepth] at hdone
  obtain ⟨l, r, hperform, hlast⟩ := perform_bind (fun l r => by cases r; exacts [⟨_, _, rfl⟩, ⟨_, _, rfl⟩]) hdone
  cases r with
  | ok v =>
    cases hlast
    refine ⟨fun e he => ?_, fun hsilent _ _ => congrArg Prod.snd (hbody hsilent _ _ _ _ hperform)⟩
    cases he
  | error e =>
    cases hlast
    refine ⟨fun e' he => ?_, fun _ v hv => ?_⟩
    · cases he
      rfl
    · cases hv

/-- What an embedder asks of a machine from outside. -/
inductive Request where
  | exec (filename source : String)
  | execFile (path : String)
  | loadFile (path : String)
  | call (callee receiver : Value) (args : List Value)
  | apply (callee receiver args : Value)

namespace Request

/-- What is done for a request. -/
def action (env : Embedding W) (m : Machine W) : Request → Action W Value
  | exec filename source => m.exec filename source
  | execFile path => Machine.execFile env m path
  | loadFile path => Machine.loadFile env m path
  | call callee receiver args => m.call callee receiver args
  | apply callee receiver args => m.apply callee receiver args

/-- A function outside of the code is called, with no execution around it. -/
def Outside : Request → Prop
  | call callee _ _ | apply callee _ _ => IsOutside callee
  | _ => False

/-- The error of arguments that are not in an array. They are refused before there is an entry. -/
def refusal? (m : Machine W) : Request → Option Error
  | apply _ _ args =>
    match m.argumentsOf args with
    | .ok _ => none
    | .error e => some e
  | _ => none

/-- Requests that are taken up are entries. -/
theorem action_eq (env : Embedding W) (m : Machine W) (q : Request) :
    (∃ e, q.refusal? m = some e ∧ q.action env m = .done m (.error e))
      ∨ q.refusal? m = none ∧ ∃ body : Machine W → Action W Value, q.action env m = m.entry body
        ∧ (env.Keeps Settled → ∀ l, Settles (body l) l)
        ∧ (env.Keeps Settled → ¬ q.Outside → ∀ l, Unaccounted env l (body l)) := by
  cases q with
  | exec filename source =>
    exact .inr ⟨rfl, _, rfl, fun _ => settles_runScript filename source,
      fun henv _ => unaccounted_runScript henv filename source⟩
  | execFile path =>
    exact .inr ⟨rfl, _, rfl, fun _ => settles_runFile path, fun henv _ => unaccounted_runFile henv path⟩
  | loadFile path =>
    refine .inr ⟨rfl, fun l => if l.isLoaded path then .done l (.ok .undefined) else runFile env l path, rfl,
      fun _ l => ?_, fun henv _ l => ?_⟩
    · dsimp only
      split
      · exact Settled.refl l
      · exact settles_runFile path l
    · dsimp only
      split
      · exact unaccounted_done rfl _
      · exact unaccounted_runFile henv path l
  | call callee receiver args =>
    exact .inr ⟨rfl, fun l => .call l (.value callee) receiver args .done, rfl, fun _ l n result hn => hn,
      fun henv hcallee => unaccounted_call henv hcallee receiver args⟩
  | apply callee receiver args =>
    simp only [refusal?, action, Machine.apply]
    cases m.argumentsOf args with
    | error e => exact .inl ⟨e, rfl, rfl⟩
    | ok items =>
      exact .inr ⟨rfl, fun l => .call l (.value callee) receiver items .done, rfl, fun _ l n result hn => hn,
        fun henv hcallee => unaccounted_call henv hcallee receiver items⟩

/-- A request that comes to an end with no execution around it. -/
theorem outermost (henv : env.Keeps Settled) (hdepth : m.depth = 0) (q : Request) {budget : Nat}
    {result : Except Error Value} (hdone : perform env (q.action env m) budget = .done n result) :
    n.depth = 0 ∧ (∀ e, q.refusal? m = some e → n = m ∧ result = .error e)
      ∧ (q.refusal? m = none → Records n result (¬ q.Outside)) := by
  rcases action_eq env m q with ⟨e, hrefusal, haction⟩ | ⟨hrefusal, body, haction, hsettles, hsilent⟩
  · rw [haction] at hdone
    cases budget with
    | zero => cases hdone
    | succ budget =>
      cases hdone
      refine ⟨hdepth, fun e' he => ⟨rfl, ?_⟩, fun hnone => ?_⟩
      · rw [hrefusal] at he
        cases he
        rfl
      · rw [hrefusal] at hnone
        cases hnone
  · rw [haction] at hdone
    refine ⟨?_, fun e he => ?_, fun _ => records_entry hdepth (hsilent henv) hdone⟩
    · rw [← hdepth]
      exact ((runsSettle henv budget).perform (settles_entry (hsettles henv) m) hdone).depth
    · rw [hrefusal] at he
      cases he

end Request

/-- Requests that a machine has answered, one after the other. -/
inductive Answered (env : Embedding W) (m : Machine W) : Machine W → Prop
  | nil : Answered env m m
  | snoc {l n : Machine W} {q : Request} {budget : Nat} {result : Except Error Value} (hbefore : Answered env m l)
    (hdone : perform env (q.action env l) budget = .done n result) : Answered env m n

theorem Answered.depth (h : Answered env m n) (henv : env.Keeps Settled) (hdepth : m.depth = 0) : n.depth = 0 := by
  induction h with
  | nil => exact hdepth
  | snoc _ hdone ih => exact (Request.outermost henv ih _ hdone).1

/-- After every row of requests, the next one records the error that it ends with, and no error if it ends
with a value; but a function outside of the code may leave the error of an entry of its own recorded when it gives
a value, and refused arguments leave the machine as it was. -/
theorem last_error_of_request (henv : env.Keeps Settled) (hdepth : m.depth = 0) (hbefore : Answered env m l)
    (q : Request) {budget : Nat} {result : Except Error Value}
    (hdone : perform env (q.action env l) budget = .done n result) :
    (∀ e, q.refusal? l = some e → n = l ∧ result = .error e)
      ∧ (q.refusal? l = none → ∀ e, result = .error e → n.lastError = some e)
      ∧ (q.refusal? l = none → ¬ q.Outside → ∀ e, n.lastError = some e ↔ result = .error e) := by
  obtain ⟨-, hrefused, hrecords⟩ := Request.outermost henv (hbefore.depth henv hdepth) q hdone
  refine ⟨hrefused, fun htaken => (hrecords htaken).error, fun htaken hinside e => ⟨fun hlast => ?_, ?_⟩⟩
  · cases result with
    | error e' => rw [← Option.some.inj (((hrecords htaken).error e' rfl).symm.trans hlast)]
    | ok v => cases ((hrecords htaken).value hinside v rfl).symm.trans hlast
  · exact (hrecords htaken).error e

/-- The function that calls another one settles what it is called with. -/
theorem guarding_keeps : guarding.Keeps Settled where
  natives f hf m receiver args := by
    obtain rfl : f = attempt := by simpa [guarding] using hf
    exact fun n result hn => hn
  host host hhost := by cases hhost

/-- A new machine with the functions of an embedder. -/
def furnished? (env : Embedding Unit) : Option (Machine Unit) :=
  match new {} ⟨"", none⟩ () with
  | .error _ => none
  | .ok m =>
    match registerNatives env m with
    | .ok _ m => some m
    | .error _ _ => none

/-- A script that survives one failure and not the next one. -/
def failing : Request :=
  .exec "t.js" "attempt(die); die(1)"

/-- The script is run to its failure on a machine that is not running anything. -/
def fails (m : Machine Unit) : Bool :=
  m.depth == 0 &&
    match perform guarding (failing.action guarding m) 60 with
    | .done _ (.error _) => true
    | _ => false

theorem last_error_of_request_failing : ∃ (m n : Machine Unit) (e : Error), m.depth = 0 ∧ guarding.Keeps Settled
    ∧ Answered guarding m m ∧ perform guarding (failing.action guarding m) 60 = .done n (.error e)
    ∧ n.lastError = some e := by
  have hcheck : (furnished? guarding).any fails = true := by decide +kernel
  cases hm : furnished? guarding with
  | none =>
    rw [hm] at hcheck
    cases hcheck
  | some m =>
    replace hcheck : fails m = true := by rwa [hm] at hcheck
    unfold fails at hcheck
    rw [Bool.and_eq_true, beq_iff_eq] at hcheck
    obtain ⟨hdepth, hends⟩ := hcheck
    split at hends
    · rename_i n e hdone
      exact ⟨m, n, e, hdepth, guarding_keeps, .nil, hdone,
        (last_error_of_request guarding_keeps hdepth .nil failing hdone).2.1 rfl e rfl⟩
    · cases hends

end Machine

end ScriptEngine
