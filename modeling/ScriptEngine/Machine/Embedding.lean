import ScriptEngine.Ffi.Arg
import ScriptEngine.Heap.Conversion
import ScriptEngine.Machine.Builtin
import ScriptEngine.Machine.State
/-!
What surrounds a machine.

An embedder adds functions of its own, may give access to native code, and says what reading a file
gives. Its functions can call back into the machine, any number of times: an `Action` is a result, or a
call together with what to do with the result of that call. Running the calls is the business of
`Machine.perform`; everything outside of the code of scripts is an action.
-/

namespace ScriptEngine

/-- What reading a file as text gives. -/
inductive FileText where
  | text (s : String)
  | failed (reason : String)
  /-- The file has to be looked at first. -/
  | unknown
  deriving DecidableEq, Repr

/-- What a call runs. -/
inductive Callee where
  /-- Code, by the offset of its first instruction. -/
  | code (start : Nat)
  | value (v : Value)
  deriving DecidableEq

/-- What is done outside of the code of scripts, with the machine as it is then. -/
inductive Action (W α : Type) where
  | done (m : Machine W) (result : Except Error α)
  /-- A call, and what to do with its result. -/
  | call (m : Machine W) (callee : Callee) (receiver : Value) (args : List Value)
    (next : Machine W → Except Error Value → Action W α)
  /-- Nothing more can be done without the file. -/
  | needsFile (path : String)

namespace Action

variable {W α β : Type}

/-- An action, and what to do with its result. -/
def bind (a : Action W α) (next : Machine W → Except Error α → Action W β) : Action W β :=
  match a with
  | done m result => next m result
  | call m callee receiver args rest =>
    call m callee receiver args fun m result => bind (rest m result) next
  | needsFile path => needsFile path

/-- Work as an action. -/
def ofWork (work : Machine.Work W α) (m : Machine W) : Action W α :=
  match work m with
  | .ok a m => done m (.ok a)
  | .error e m => done m (.error e)

end Action

/-- A function of the embedder: it takes the receiver and the arguments. -/
structure Native (W : Type) where
  name : String
  call : Machine W → Value → List Value → Action W Value

/-- Access to native code. -/
structure Ffi.Host (W : Type) where
  /-- The address of a symbol. -/
  resolve : String → Option UInt64
  /-- The address that stands for script functions of a signature. -/
  trampoline : Ffi.Signature → Option UInt64
  /-- Calls a function; the arguments are in the categories of its signature. -/
  call : Machine W → Ffi.ForeignFunction → List Ffi.Arg → Action W Ffi.Arg
  readByte : W → UInt64 → Except Error UInt8
  writeByte : W → UInt64 → UInt8 → Except Error W

namespace Ffi.Host

/-- Reading where nothing can be read. -/
def refuseRead (address : UInt64) : Error :=
  .type ("cannot read foreign memory at 0x" ++ hexDigits address.toNat 1)

/-- Writing where nothing can be written. -/
def refuseWrite (address : UInt64) : Error :=
  .type ("cannot write foreign memory at 0x" ++ hexDigits address.toNat 1)

end Ffi.Host

/-- What surrounds a machine. -/
structure Embedding (W : Type) where
  /-- The functions of the embedder; their numbers follow those of the functions every machine has. -/
  natives : Array (Native W)
  host : Option (Ffi.Host W)
  readFile : W → String → FileText

namespace Embedding

variable {W : Type}

/-- The function of the embedder with a number. -/
def native? (env : Embedding W) (id : NativeId) : Option (Native W) :=
  if Builtin.all.size ≤ id.index.toNat then env.natives[id.index.toNat - Builtin.all.size]? else none

/-- The number of the `i`th function of the embedder. -/
def nativeId (i : Nat) : NativeId :=
  ⟨UInt32.ofNat (Builtin.all.size + i)⟩

/-- The name of the function with a number. -/
def nativeName (env : Embedding W) (id : NativeId) : Option String :=
  match Builtin.ofId? id with
  | some b => some b.name
  | none => (env.native? id).map Native.name

/-- Access to native code, or the error that there is none. -/
def requireHost (env : Embedding W) : Except Error (Ffi.Host W) :=
  match env.host with
  | some host => .ok host
  | none => .error (.type "resolver is not set")

end Embedding

/-- A value on one line. -/
def Machine.display {W : Type} (env : Embedding W) (m : Machine W) (v : Value) : String :=
  m.heap.display env.nativeName v

end ScriptEngine
