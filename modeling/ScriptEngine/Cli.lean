import ScriptEngine.Code.Listing
import ScriptEngine.Files
import ScriptEngine.Machine.Access
import ScriptEngine.Machine.Run
/-!
The command line.

It names a script, as a file, as text after `--eval`, or by default on the standard input, and runs it
or lists its code. What comes of it is text for the two outputs and an exit status; what files and the
standard input hold is asked for when it is not known yet.
-/

namespace ScriptEngine.Cli

/-! ## Arguments -/

/-- What the arguments ask for. -/
structure Request where
  file : Option String := none
  eval : Option String := none
  disasm : Bool := false
  /-- The file with the options of the machine. -/
  options : Option String := none
  trace : Bool := false

/-- Arguments that ask for nothing that can be done. -/
inductive UsageError where
  | unexpected (argument : String)
  | repeated (argument : String)
  | missingValue (argument : String)
  | conflict
  deriving DecidableEq, Repr

/-- The error in words. -/
def UsageError.message : UsageError → String
  | unexpected argument => "error: unexpected argument '" ++ argument ++ "' found"
  | repeated argument => "error: the argument '" ++ argument ++ "' cannot be used multiple times"
  | missingValue argument => "error: a value is required for '" ++ argument ++ "' but none was supplied"
  | conflict => "error: the argument '--eval <CODE>' cannot be used with '[FILE]'"

/-- One argument, with its value if it has one in itself. -/
inductive Word where
  | eval (value : Option String)
  | options (value : Option String)
  | disasm
  | trace
  /-- What follows are files. -/
  | filesFollow
  | file (path : String)
  | unknown (argument : String)
  deriving DecidableEq, Repr

/-- The text behind an equals sign, if there is one. -/
def afterEquals? : List Char → Option String
  | '=' :: rest => some (String.ofList rest)
  | _ => none

/-- Reads one argument. -/
def Word.ofArgument (argument : String) : Word :=
  match argument with
  | "--" => filesFollow
  | "--eval" | "-e" => eval none
  | "--options" => options none
  | "--disasm" => disasm
  | "--trace" => trace
  | "-" => file "-"
  | _ =>
    let cs := argument.toList
    if "--eval=".isPrefixOf argument then eval (afterEquals? (cs.drop 6))
    else if "--options=".isPrefixOf argument then options (afterEquals? (cs.drop 9))
    else if "-e".isPrefixOf argument then
      eval (some ((afterEquals? (cs.drop 2)).getD (String.ofList (cs.drop 2))))
    else if cs.head? == some '-' then unknown argument
    else file argument

/-- Whether an argument can be a value of the one before. -/
def isValue (argument : String) : Bool :=
  argument == "-" || argument.toList.head? != some '-'

/-- Sets the script text. -/
def Request.withEval (r : Request) (code : String) : Except UsageError Request :=
  if r.eval.isSome then .error (.repeated "--eval <CODE>") else .ok { r with eval := some code }

/-- Sets the options file, which needs a name. -/
def Request.withOptions (r : Request) (path : String) : Except UsageError Request :=
  if path == "" then .error (.missingValue "--options <JSON>")
  else if r.options.isSome then .error (.repeated "--options <JSON>")
  else .ok { r with options := some path }

/-- Sets the file, which needs a name. -/
def Request.withFile (r : Request) (path : String) : Except UsageError Request :=
  if path == "" then .error (.missingValue "[FILE]")
  else if r.file.isSome then .error (.unexpected path)
  else .ok { r with file := some path }

/-- Reads arguments, which are all files behind a double dash. -/
def readFrom (onlyFiles : Bool) (r : Request) : List String → Except UsageError Request
  | [] => if r.eval.isSome && r.file.isSome then .error .conflict else .ok r
  | argument :: rest =>
    match if onlyFiles then .file argument else Word.ofArgument argument with
    | .file path => do readFrom onlyFiles (← r.withFile path) rest
    | .filesFollow => readFrom true r rest
    | .disasm =>
      if r.disasm then .error (.repeated "--disasm")
      else readFrom onlyFiles { r with disasm := true } rest
    | .trace =>
      if r.trace then .error (.repeated "--trace")
      else readFrom onlyFiles { r with trace := true } rest
    | .eval (some code) => do readFrom onlyFiles (← r.withEval code) rest
    | .options (some path) => do readFrom onlyFiles (← r.withOptions path) rest
    | .eval none =>
      match rest with
      | code :: rest =>
        if isValue code then do readFrom onlyFiles (← r.withEval code) rest
        else .error (.missingValue "--eval <CODE>")
      | [] => .error (.missingValue "--eval <CODE>")
    | .options none =>
      match rest with
      | path :: rest =>
        if isValue path then do readFrom onlyFiles (← r.withOptions path) rest
        else .error (.missingValue "--options <JSON>")
      | [] => .error (.missingValue "--options <JSON>")
    | .unknown argument => .error (.unexpected argument)

/-- Reads the arguments of the command line. -/
def Request.ofArguments (arguments : List String) : Except UsageError Request :=
  readFrom false {} arguments

/-! ## Running -/

/-- What comes of a command line. -/
structure Report where
  status : Nat
  stdout : String
  stderr : String

/-- A report, or what has to be known first. -/
inductive Outcome where
  | report (r : Report)
  | needsFile (path : String)
  | needsInput
  | outOfBudget

/-- What the machine of a command line knows of the world: the files that it was told of. -/
abbrev Reader := String → FileText

/-- Nothing came of it, and why. -/
def failure (message : String) : Outcome :=
  .report ⟨1, "", message ++ "\n"⟩

/-- A failure of the engine, with what was printed before it and its trace. -/
def engineFailure (printed trace : String) (e : Error) : Outcome :=
  .report ⟨1, printed, e.code ++ ": " ++ e.display ++ "\n" ++ (if trace == "" then "" else trace ++ "\n")⟩

/-- Something that is read from a file, and what to do with it. -/
def withFile (read : Reader) (path context : String) (next : String → Outcome) : Outcome :=
  match read path with
  | .text s => next s
  | .failed reason => failure (context ++ reason)
  | .unknown => .needsFile path

/-- The options of a machine, and what to do with them. -/
def withOptions (read : Reader) (r : Request) (next : Options → Outcome) : Outcome :=
  match r.options with
  | none => next .default
  | some path =>
    withFile read path ("failed to read " ++ path ++ ": ") fun text =>
      match Options.parse? text with
      | some o => next o
      | none => failure ("invalid options in " ++ path ++ ": not a set of options")

/-- The name and the text of the script, and what to do with them. -/
def withScript (read : Reader) (input : FileText) (r : Request) (next : String → String → Outcome) :
    Outcome :=
  match r.eval, r.file with
  | some code, _ => next "<eval>" code
  | none, some path =>
    withFile read path ("failed to read file \"" ++ path ++ "\": ") (next path)
  | none, none =>
    match input with
    | .text s => next "<stdin>" s
    | .failed reason => failure ("failed to read input: " ++ reason)
    | .unknown => .needsInput

/-- Lists the code of a script. -/
def list (o : Options) (name source : String) : Outcome :=
  match Code.compile name source o.placeholderWidth with
  | .error e => engineFailure "" "" e
  | .ok unit => .report ⟨0, (Code.Listing.ofUnit? unit).getD "", ""⟩

/-- The surroundings of the machine: files, and no functions or native code. -/
def embedding (read : Reader) : Embedding Unit :=
  ⟨#[], none, fun _ path => read path⟩

/-- Runs a script and shows its result. -/
def runScript (read : Reader) (o : Options) (name source : String) (budget : Nat) : Outcome :=
  match Machine.new o ⟨"", none⟩ () with
  | .error e => engineFailure "" "" e
  | .ok m =>
    match Machine.perform (embedding read) (m.exec name source) budget with
    | .done m (.ok v) =>
      .report ⟨0, m.output.text ++ m.display (embedding read) v ++ "\n", ""⟩
    | .done m (.error e) => engineFailure m.output.text m.traceText e
    | .needsFile path => .needsFile path
    | .outOfBudget => .outOfBudget

/-- Does what a request asks for. -/
def serve (read : Reader) (input : FileText) (r : Request) (budget : Nat) : Outcome :=
  withOptions read r fun o =>
    withScript read input r fun name source =>
      if r.disasm then list o name source else runScript read o name source budget

/-- Does what the command line asks for. -/
def run (read : Reader) (input : FileText) (arguments : List String) (budget : Nat) : Outcome :=
  match Request.ofArguments arguments with
  | .ok r => serve read input r budget
  | .error e => .report ⟨2, "", e.message ++ "\n"⟩

end ScriptEngine.Cli
