import ScriptEngine.Machine.Library
import ScriptEngine.Machine.Step
/-!
Runs.

Code runs instruction by instruction. A call between functions of scripts stays within one run; a
function outside of the code that calls back starts a run of its own, nested in the one that called it.
Whatever way a run ends, the stacks are cut back to their sizes at its start.

All of it takes a budget, which bounds the instructions and calls that follow. A run that ends does not
depend on it; "out of budget" is apart from every result.
-/

namespace ScriptEngine

/-- What comes of an action. -/
inductive Outcome (W α : Type) where
  | done (m : Machine W) (result : Except Error α)
  | outOfBudget
  /-- The file has to be looked at first. -/
  | needsFile (path : String)

namespace Machine

variable {W α : Type}

/-- Notes the instruction that failed. A request to stop is no failure. -/
def noteFailure (m : Machine W) (offset : Nat) (e : Error) : Machine W :=
  match e with
  | .failure _ _ => { m with failedAt := offset }
  | .exit => m

/-- The line of an offset. -/
def traceEntry? (m : Machine W) (offset : Nat) : Option TraceEntry :=
  match m.program.filenameFor? offset, m.program.lineFor? offset with
  | some filename, some line => some ⟨filename, line⟩
  | _, _ => none

/-- The lines on the way to a failure: that of the failed instruction, and those of the calls above the
first `calls`, innermost first. -/
def traceAbove (m : Machine W) (calls : Nat) : List TraceEntry :=
  (m.failedAt :: (m.frames.drop calls).toList.reverse.filterMap Frame.callSite).filterMap
    m.traceEntry?

/-- The state that an execution starts with. The arguments lie above the slot of the result. -/
def enterExecution (m : Machine W) (receiver : Value) (args : List Value) : Machine W :=
  let m := { m with depth := m.depth + 1 }
  let slot := m.stack.size
  { m.pushFrame none slot receiver with stack := m.stack.push .undefined ++ args.toArray }

/-- Cuts the stacks back to the sizes at the start of an execution. -/
def restore (m : Machine W) (start : Depths) (receiver : Value) : Machine W :=
  { m.cutBack start with receiver := receiver }

/-- Ends an execution: `start` and `receiver` are the sizes of the stacks and the receiver at its start.
A request to stop ends with the outermost execution. -/
def leaveExecution (m : Machine W) (start : Depths) (receiver : Value) (result : Except Error Value) :
    Machine W × Except Error Value :=
  let m := { m with depth := m.depth - 1 }
  match result with
  | .ok v => (m.restore start receiver, .ok v)
  | .error .exit =>
    let m := m.restore start receiver
    if m.depth = 0 then ({ m with interrupted := false }, .ok .undefined) else (m, .error .exit)
  | .error e =>
    (({ m with trace := m.trace ++ m.traceAbove start.calls }).restore start receiver, .error e)

/-- The state that a call of a function outside of the code starts with: the callee and the arguments
are kept alive on the stack. -/
def enterHostCall (m : Machine W) (callee receiver : Value) (args : List Value) : Machine W :=
  { m with stack := m.stack.push callee ++ args.toArray, receiver := receiver }

/-- Ends a call of a function outside of the code. -/
def leaveHostCall (m : Machine W) (size : Nat) (receiver : Value) : Machine W :=
  { m with stack := m.stack.take size, receiver := receiver }

mutual

/-- Runs code from a cursor to its end. -/
def run (env : Embedding W) (m : Machine W) (c : Cursor) : Nat → Outcome W Value
  | 0 => .outOfBudget
  | budget + 1 =>
    if m.interrupted then .done m (.error .exit)
    else
      match advance env c m.collectIfNeeded with
      | .error e m => .done (m.noteFailure c.offset e) (.error e)
      | .ok (.finish v) m => .done m (.ok v)
      | .ok (.goOn next) m => run env m next budget
      | .ok (.host callee receiver args slot next) m =>
        match perform env (callHost env m callee receiver args) budget with
        | .done m (.ok v) => run env (m.leaveHost.putResult slot v) next budget
        | .done m (.error e) => .done (m.leaveHost.noteFailure c.offset e) (.error e)
        | .outOfBudget => .outOfBudget
        | .needsFile path => .needsFile path
termination_by structural budget => budget

/-- Runs the code at an offset as an execution of its own. -/
def execute (env : Embedding W) (m : Machine W) (start : Nat) (receiver : Value)
    (args : List Value) : Nat → Outcome W Value
  | 0 => .outOfBudget
  | budget + 1 =>
    let sizes := m.depths
    let before := m.receiver
    let m := m.enterExecution receiver args
    match Cursor.load m.program start .nop with
    | .error e =>
      let (m, result) := m.leaveExecution sizes before (.error e)
      .done m result
    | .ok c =>
      match run env m c budget with
      | .done m result =>
        let (m, result) := m.leaveExecution sizes before result
        .done m result
      | .outOfBudget => .outOfBudget
      | .needsFile path => .needsFile path
termination_by structural budget => budget

/-- Calls a value. -/
def callValue (env : Embedding W) (m : Machine W) (callee receiver : Value) (args : List Value) :
    Nat → Outcome W Value
  | 0 => .outOfBudget
  | budget + 1 =>
    match callee with
    | .function start => execute env m start.val receiver args budget
    | .native _ | .signature _ =>
      let size := m.stack.size
      let before := m.receiver
      let m := m.enterHostCall callee receiver args
      match perform env (callHost env m callee receiver args) budget with
      | .done m result => .done (m.leaveHostCall size before) result
      | .outOfBudget => .outOfBudget
      | .needsFile path => .needsFile path
    | _ => .done m (.error (.type "calling non-callable"))
termination_by structural budget => budget

/-- Carries out an action with all the calls that it makes. -/
def perform (env : Embedding W) (a : Action W Value) : Nat → Outcome W Value
  | 0 => .outOfBudget
  | budget + 1 =>
    match a with
    | .done m result => .done m result
    | .needsFile path => .needsFile path
    | .call m (.code start) receiver args next =>
      match execute env m start receiver args budget with
      | .done m result => perform env (next m result) budget
      | .outOfBudget => .outOfBudget
      | .needsFile path => .needsFile path
    | .call m (.value callee) receiver args next =>
      match callValue env m callee receiver args budget with
      | .done m result => perform env (next m result) budget
      | .outOfBudget => .outOfBudget
      | .needsFile path => .needsFile path
termination_by structural budget => budget

end

end Machine

end ScriptEngine
