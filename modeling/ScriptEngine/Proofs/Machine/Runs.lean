import ScriptEngine.Machine.Run
/-!
Runs, call by call.

An outcome can be followed by more work (`Outcome.andThen`). In these terms a run, an execution, a call and
an action are each one line: what they do themselves, and what they leave to a smaller budget.
-/

namespace ScriptEngine

namespace Outcome

variable {W α β : Type}

/-- Goes on from a result. -/
def andThen (o : Outcome W α) (next : Machine W → Except Error α → Outcome W β) : Outcome W β :=
  match o with
  | done m result => next m result
  | outOfBudget => .outOfBudget
  | needsFile path => .needsFile path

theorem andThen_eq_done {o : Outcome W α} {next : Machine W → Except Error α → Outcome W β} {m : Machine W}
    {result : Except Error β} (h : o.andThen next = .done m result) :
    ∃ n r, o = .done n r ∧ next n r = .done m result := by
  cases o with
  | done n r => exact ⟨n, r, rfl, h⟩
  | outOfBudget => cases h
  | needsFile path => cases h

end Outcome

theorem Action.bind_done {W α : Type} (a : Action W α) : a.bind .done = a := by
  induction a with
  | done m r => rfl
  | needsFile path => rfl
  | call m callee receiver args next ih => simp only [Action.bind, ih]

namespace Machine

variable {W : Type} {env : Embedding W}

/-- How a run goes on when a function outside of the code is done. -/
def resume (env : Embedding W) (offset slot : Nat) (next : Cursor) (budget : Nat) (m : Machine W)
    (result : Except Error Value) : Outcome W Value :=
  match result with
  | .ok v => run env (m.leaveHost.putResult slot v) next budget
  | .error e => .done (m.leaveHost.noteFailure offset e) (.error e)

/-- What a run does with what came of its next instruction. -/
def proceed (env : Embedding W) (offset budget : Nat) : EStateM.Result Error (Machine W) Step → Outcome W Value
  | .error e m => .done (m.noteFailure offset e) (.error e)
  | .ok (.finish v) m => .done m (.ok v)
  | .ok (.goOn next) m => run env m next budget
  | .ok (.host callee receiver args slot next) m =>
    (perform env (callHost env m callee receiver args) budget).andThen (resume env offset slot next budget)

theorem run_succ (m : Machine W) (c : Cursor) (budget : Nat) :
    run env m c (budget + 1)
      = if m.interrupted then .done m (.error .exit)
        else proceed env c.offset budget (advance env c m.collectIfNeeded) := by
  rw [run]
  split
  · rfl
  · cases advance env c m.collectIfNeeded with
    | error e n => rfl
    | ok step n =>
      cases step with
      | goOn next => rfl
      | finish v => rfl
      | host callee receiver args slot next =>
        simp only [proceed]
        cases perform env (callHost env n callee receiver args) budget with
        | outOfBudget => rfl
        | needsFile path => rfl
        | done l result => cases result <;> rfl

/-- The end of an execution, as an outcome. -/
def endExecution (start : Depths) (receiver : Value) (m : Machine W) (result : Except Error Value) :
    Outcome W Value :=
  .done (m.leaveExecution start receiver result).1 (m.leaveExecution start receiver result).2

theorem execute_succ (m : Machine W) (start : Nat) (receiver : Value) (args : List Value) (budget : Nat) :
    execute env m start receiver args (budget + 1)
      = match Cursor.load m.program start .nop with
        | .error e => endExecution m.depths m.receiver (m.enterExecution receiver args) (.error e)
        | .ok c =>
          (run env (m.enterExecution receiver args) c budget).andThen (endExecution m.depths m.receiver) := by
  rw [execute]
  show (match Cursor.load m.program start .nop with | .error e => _ | .ok c => _) = _
  cases Cursor.load m.program start .nop with
  | error e => rfl
  | ok c =>
    dsimp only
    cases run env (m.enterExecution receiver args) c budget <;> rfl

/-- The call of a function outside of the code. -/
def hostCall (env : Embedding W) (m : Machine W) (callee receiver : Value) (args : List Value) (budget : Nat) :
    Outcome W Value :=
  (perform env (callHost env (m.enterHostCall callee receiver args) callee receiver args) budget).andThen
    fun n result => .done (n.leaveHostCall m.stack.size m.receiver) result

theorem callValue_succ (m : Machine W) (callee receiver : Value) (args : List Value) (budget : Nat) :
    callValue env m callee receiver args (budget + 1)
      = match callee with
        | .function start => execute env m start.val receiver args budget
        | .native _ | .signature _ => hostCall env m callee receiver args budget
        | _ => .done m (.error (.type "calling non-callable")) := by
  cases callee with
  | native id | signature id =>
    simp only [callValue, hostCall]
    generalize perform env _ budget = outcome
    cases outcome <;> rfl
  | _ => rfl

/-- What an action calls. -/
def callCallee (env : Embedding W) (m : Machine W) (callee : Callee) (receiver : Value) (args : List Value)
    (budget : Nat) : Outcome W Value :=
  match callee with
  | .code start => execute env m start receiver args budget
  | .value v => callValue env m v receiver args budget

theorem perform_call (m : Machine W) (callee : Callee) (receiver : Value) (args : List Value)
    (next : Machine W → Except Error Value → Action W Value) (budget : Nat) :
    perform env (.call m callee receiver args next) (budget + 1)
      = (callCallee env m callee receiver args budget).andThen fun n result =>
          perform env (next n result) budget := by
  cases callee with
  | code start =>
    simp only [perform, callCallee]
    cases execute env m start receiver args budget <;> rfl
  | value v =>
    simp only [perform, callCallee]
    cases callValue env m v receiver args budget <;> rfl

end Machine

end ScriptEngine
