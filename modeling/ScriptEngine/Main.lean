import ScriptEngine.Cli
/-!
The program: it reads what the command line needs, and writes what comes of it.
-/

namespace ScriptEngine

/-- Why the system could not read a file. -/
def systemFault (e : IO.Error) : String :=
  match e with
  | .noFileOrDirectory _ _ _ => FileFault.missing.message
  | .inappropriateType _ code _ =>
    if code = 20 then FileFault.notDirectory.message else FileFault.isDirectory.message
  | .permissionDenied _ _ _ => "Permission denied (os error 13)"
  | .invalidArgument _ _ _ => FileFault.nameTooLong.message
  | _ => toString e

/-- Reads a file. -/
def readSystemFile (path : String) : IO FileText := do
  match pathFault? path with
  | some fault => return .failed fault.message
  | none =>
    try
      let bytes ← IO.FS.readBinFile path
      return .ofBytes bytes.toList
    catch e => return .failed (systemFault e)

/-- Reads the standard input. -/
def readInput : IO FileText := do
  let bytes ← (← IO.getStdin).readBinToEnd
  return .ofBytes bytes.toList

/-- More instructions than any run comes to. -/
def largeBudget : Nat := 1 <<< 62

/-- Looks at files and at the input until what the command line asks for can be done. -/
partial def settle (arguments : List String) (known : List (String × FileText)) (input : FileText) :
    IO UInt32 := do
  match Cli.run (fun path => (known.lookup path).getD .unknown) input arguments largeBudget with
  | .needsFile path =>
    let text ← readSystemFile path
    settle arguments ((path, text) :: known) input
  | .needsInput =>
    let text ← readInput
    settle arguments known text
  | .outOfBudget =>
    IO.eprintln "out of budget"
    return 1
  | .report r =>
    IO.print r.stdout
    (← IO.getStdout).flush
    IO.eprint r.stderr
    return UInt32.ofNat r.status

end ScriptEngine

/-- Runs the command line. -/
def main (arguments : List String) : IO UInt32 :=
  ScriptEngine.settle arguments [] .unknown
