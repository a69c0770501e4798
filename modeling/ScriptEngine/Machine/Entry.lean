import ScriptEngine.Code.Compile
import ScriptEngine.Machine.Embedding
/-!
Entries into a machine.

An embedder, or one of its functions, enters a machine by running a script, loading a file or calling a
value. The outermost entry forgets the latest error and its trace, and notes the error it ends with;
entries from within leave both to it.
-/

namespace ScriptEngine.Machine

variable {W α : Type}

/-- An entry: if it is the outermost, it keeps the account of errors. -/
def entry (m : Machine W) (body : Machine W → Action W α) : Action W α :=
  if m.depth = 0 then
    (body { m with lastError := none, trace := [] }).bind fun m result =>
      match result with
      | .ok a => .done m (.ok a)
      | .error e => .done { m with lastError := some e } (.error e)
  else body m

/-- Calls a value, as an entry. -/
def call (m : Machine W) (callee receiver : Value) (args : List Value) : Action W Value :=
  m.entry fun m => .call m (.value callee) receiver args .done

/-- Commits a unit: the offset it starts at, and its index. -/
def commit (unit : Array UInt8) : Work W (Nat × Nat) := fun m =>
  match m.program.commit unit with
  | .ok (program, index) => .ok (m.program.size, index) { m with program := program }
  | .error e => .error e m

/-- Compiles a script and commits it. -/
def compileScript (filename source : String) : Work W (Nat × Nat) := do
  let unit ← inspect fun m => Code.compile filename source m.options.placeholderWidth
  commit unit

/-- Compiles a script and runs it with the receiver that is current, and notes how that went. -/
def runScript (m : Machine W) (filename source : String) : Action W Value :=
  (Action.ofWork (compileScript filename source) m).bind fun m committed =>
    match committed with
    | .error e => .done m (.error e)
    | .ok (start, index) =>
      .call m (.code start) m.receiver [] fun m result =>
        .done { m with program := m.program.recordRun index result.isOk } result

/-- Runs a script, as an entry. -/
def exec (m : Machine W) (filename source : String) : Action W Value :=
  m.entry fun m => m.runScript filename source

/-- Whether the latest code of a file ran to its end when it ran last. -/
def isLoaded (m : Machine W) (path : String) : Bool :=
  match m.program.findByFilename? path with
  | some i => ((m.program.parts[i]?).bind Code.Part.lastRun) == some true
  | none => false

/-- Runs a file. -/
def runFile (env : Embedding W) (m : Machine W) (path : String) : Action W Value :=
  match env.readFile m.world path with
  | .text source => m.runScript path source
  | .failed reason =>
    .done m (.error (.file ("failed to read file \"" ++ path ++ "\": " ++ reason)))
  | .unknown => .needsFile path

/-- Runs a file, as an entry. -/
def execFile (env : Embedding W) (m : Machine W) (path : String) : Action W Value :=
  m.entry fun m => runFile env m path

/-- Runs a file that is not loaded yet, as an entry. -/
def loadFile (env : Embedding W) (m : Machine W) (path : String) : Action W Value :=
  m.entry fun m => if m.isLoaded path then .done m (.ok .undefined) else runFile env m path

/-- The arguments that an array holds; undefined holds none. -/
def argumentsOf (m : Machine W) (args : Value) : Except Error (List Value) :=
  match args with
  | .array id => (m.heap.items id).map Array.toList
  | .undefined => .ok []
  | _ => .error (.type "apply: arguments should be an array")

/-- Calls a value with the items of an array. -/
def apply (m : Machine W) (callee receiver args : Value) : Action W Value :=
  match m.argumentsOf args with
  | .ok args => m.call callee receiver args
  | .error e => .done m (.error e)

end ScriptEngine.Machine
