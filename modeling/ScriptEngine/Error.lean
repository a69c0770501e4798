/-!
What can go wrong, from rejected source text to a malformed call by the embedder.

An error has a kind and a message. Contexts are written in front of the message on the way out. The
request to stop early is not a failure: it has no message, takes no context and is never reported.
-/

namespace ScriptEngine

/-- The kinds of failure. -/
inductive ErrorKind where
  /-- Rejected source text. -/
  | source
  /-- An undeclared variable. -/
  | reference
  /-- A value of the wrong kind. -/
  | type
  | memory
  /-- A broken invariant of the engine. -/
  | internal
  /-- A file that cannot be read. -/
  | file
  /-- A malformed call by the embedder. -/
  | arguments
  /-- A construct that is recognised and refused. -/
  | unsupported
  deriving DecidableEq, Repr, Inhabited

/-- The name a kind is reported under. -/
def ErrorKind.code : ErrorKind → String
  | source => "SYNTAX_ERROR"
  | reference => "REFERENCE_ERROR"
  | type => "TYPE_ERROR"
  | memory => "OUT_OF_MEMORY"
  | internal => "INTERNAL_ERROR"
  | file => "FILE_READ_ERROR"
  | arguments => "BAD_ARGUMENTS"
  | unsupported => "NOT_IMPLEMENTED"

/-- A failure with its message, or the request to stop early. -/
inductive Error where
  | failure (kind : ErrorKind) (message : String)
  | exit
  deriving DecidableEq, Repr, Inhabited

namespace Error

/-- Rejected source text. -/
def source (message : String) : Error := .failure .source message

/-- An undeclared variable. -/
def reference (message : String) : Error := .failure .reference message

/-- A value of the wrong kind. -/
def type (message : String) : Error := .failure .type message

/-- A broken invariant of the engine. -/
def internal (message : String) : Error := .failure .internal message

/-- A file that cannot be read. -/
def file (message : String) : Error := .failure .file message

/-- A malformed call by the embedder. -/
def arguments (message : String) : Error := .failure .arguments message

/-- A construct that is recognised and refused. -/
def unsupported (message : String) : Error := .failure .unsupported message

/-- The name the error is reported under. -/
def code : Error → String
  | failure kind _ => kind.code
  | exit => "EXIT"

/-- The message, empty for a request to stop. -/
def message : Error → String
  | failure _ message => message
  | exit => ""

/-- The error as text. -/
def display : Error → String
  | failure _ message => message
  | exit => "execution terminated"

/-- Writes a context in front of the message; the kind stays. -/
def within (context : String) : Error → Error
  | failure kind message => failure kind (context ++ ": " ++ message)
  | exit => exit

/-- An arena handle whose cell is gone. -/
def invalidHandle : Error := internal "invalid handle"

end Error

end ScriptEngine
