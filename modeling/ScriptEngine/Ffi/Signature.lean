import ScriptEngine.Error
import ScriptEngine.Text.Ascii
import ScriptEngine.Text.Blank
/-!
Signatures of foreign functions, written like prototypes.

`int sum(int, double)` is a function; `void timer_set(int, void (*)(userdata, int), userdata)` takes
a callback. A callback comes with exactly one `userdata` argument, on both levels: the native side
keeps it as the token of the callback.

The parts of a prototype are found by searching the text, so what stands between the parts found is
not looked at.
-/

namespace ScriptEngine.Ffi

/-- The most arguments a function or a callback takes. -/
def maxArgs : Nat := 6

/-- Categories of values. -/
inductive CType where
  | void
  | userdata
  | int
  | bool
  | double
  | float
  | charPtr
  | voidPtr
  | textStruct
  | textStructPtr
  | callback
  deriving DecidableEq, Repr, Inhabited

namespace CType

/-- How a category is written. -/
def spelling : CType → String
  | void => "void"
  | userdata => "userdata"
  | int => "int"
  | bool => "bool"
  | double => "double"
  | float => "float"
  | charPtr => "char *"
  | voidPtr => "void *"
  | textStruct => "struct mg_str"
  | textStructPtr => "struct mg_str *"
  | callback => "callback"

/-- The words of a type, one space between them and none in front of a star. -/
def normalize (cs : List Char) : List Char :=
  (Text.words cs).foldl (fun done word =>
    if done.isEmpty || word.head? == some '*' then done ++ word else done ++ ' ' :: word) []

/-- The category that a text names. -/
def ofChars? (cs : List Char) : Option CType :=
  match String.ofList (normalize cs) with
  | "void" => some void
  | "userdata" => some userdata
  | "int" => some int
  | "bool" => some bool
  | "double" => some double
  | "float" => some float
  | "char*" => some charPtr
  | "void*" => some voidPtr
  | "struct mg_str" => some textStruct
  | "struct mg_str*" => some textStructPtr
  | _ => none

end CType

/-- A signature. That of a callback may have no name. -/
structure Signature where
  name : String
  ret : CType
  args : List CType
  /-- The signature of the callback argument, if there is one. -/
  callback : Option Signature

/-- Why a text is no signature. -/
inductive SignatureError where
  | missingArguments
  | unbalanced
  | missingName
  | unknownType (text : String)
  | secondCallback
  | tooMany (ofCallback : Bool)
  | badReturn
  | secondUserdata (first second : Nat)
  | nestedCallback
  | badArgument (type : CType)
  | missingUserdata
  | unpaired
  /-- The character in front of the name takes several bytes, and the name is cut one byte behind its
  start. -/
  | cutCharacter
  deriving DecidableEq, Repr

namespace SignatureError

/-- The error in words. -/
def message : SignatureError → String
  | missingArguments => "missing argument list"
  | unbalanced => "unbalanced parens"
  | missingName => "missing function name"
  | unknownType text => "failed to parse val type \"" ++ text ++ "\""
  | secondCallback => "only one callback is allowed"
  | tooMany ofCallback => if ofCallback then "too many callback args" else "too many args"
  | badReturn => "invalid return value type"
  | secondUserdata first second =>
    "more than one userdata arg: #" ++ toString first ++ " and #" ++ toString second
  | nestedCallback => "callback can't take another callback"
  | badArgument type => "invalid arg type \"" ++ type.spelling ++ "\""
  | missingUserdata => "no userdata arg"
  | unpaired => "callback and userdata should be either both present or both absent"
  | cutCharacter => "name starts inside a character"

/-- The same as an error of the engine: all but a cut character are errors of type. -/
def toError (e : SignatureError) : Error :=
  match e with
  | cutCharacter => .internal e.message
  | _ => .type e.message

end SignatureError

namespace Signature

/-- The place of the first `userdata` argument. -/
def userdataIndex? (s : Signature) : Option Nat :=
  s.args.findIdx? (· == .userdata)

/-- The place of the first callback argument. -/
def callbackIndex? (s : Signature) : Option Nat :=
  s.args.findIdx? (· == .callback)

/-! ## Validation -/

/-- Whether a function or a callback can return a category. -/
def returnable (isCallback : Bool) : CType → Bool
  | .void | .int | .bool | .double | .float | .voidPtr => true
  | .charPtr => !isCallback
  | _ => false

/-- Checks arguments from a place on; `userdata` is where one was seen. -/
def checkArgs (isCallback : Bool) (place : Nat) (userdata : Option Nat) :
    List CType → Except SignatureError (Option Nat)
  | [] => .ok userdata
  | arg :: rest =>
    match arg, userdata with
    | .userdata, some first => .error (.secondUserdata first place)
    | .userdata, none => checkArgs isCallback (place + 1) (some place) rest
    | .callback, _ =>
      if isCallback then .error .nestedCallback else checkArgs isCallback (place + 1) userdata rest
    | .void, _ | .textStruct, _ => .error (.badArgument arg)
    | _, _ => checkArgs isCallback (place + 1) userdata rest

/-- Checks a callback signature. -/
def validateCallback (s : Signature) : Except SignatureError Unit := do
  if !returnable true s.ret then throw .badReturn
  let userdata ← checkArgs true 0 none s.args
  if userdata.isNone then throw .missingUserdata

/-- Checks a function signature. -/
def validate (s : Signature) : Except SignatureError Unit := do
  if !returnable false s.ret then throw .badReturn
  let userdata ← checkArgs false 0 none s.args
  if s.callbackIndex?.isSome != userdata.isSome then throw .unpaired
  match s.callback with
  | some callback => callback.validateCallback
  | none => pure ()

/-! ## Writing -/

/-- Arguments between commas. -/
def writeArgs (args : List CType) (write : CType → String) : String :=
  String.intercalate ", " (args.map write)

/-- A signature as text. The name of a callback is left out. -/
def display (s : Signature) : String :=
  let write (arg : CType) : String :=
    match arg, s.callback with
    | .callback, some cb =>
      cb.ret.spelling ++ " (*)(" ++ writeArgs cb.args CType.spelling ++ ")"
    | _, _ => arg.spelling
  s.ret.spelling ++ " " ++ s.name ++ "(" ++ writeArgs s.args write ++ ")"

/-! ## Reading -/

/-- The text up to the first opening parenthesis and the text behind it. -/
def cutAtOpen? : List Char → Option (List Char × List Char)
  | [] => none
  | c :: rest =>
    if c == '(' then some ([], rest)
    else (cutAtOpen? rest).map fun (before, behind) => (c :: before, behind)

/-- The text up to the parenthesis that closes the `depth`th open one, and the text behind it. -/
def cutAtClose? : List Char → Nat → Option (List Char × List Char)
  | [], _ => none
  | c :: rest, depth =>
    if c == ')' && depth ≤ 1 then some ([], rest)
    else
      let depth := if c == '(' then depth + 1 else if c == ')' then depth - 1 else depth
      (cutAtClose? rest depth).map fun (inside, behind) => (c :: inside, behind)

/-- The pieces between the commas that no parenthesis encloses. A closing parenthesis too many
encloses nothing. -/
def pieces : List Char → Nat → List (List Char)
  | [], _ => [[]]
  | c :: rest, depth =>
    if c == ',' && depth == 0 then [] :: pieces rest depth
    else
      let depth := if c == '(' then depth + 1 else if c == ')' then depth - 1 else depth
      match pieces rest depth with
      | [] => [[c]]
      | piece :: more => (c :: piece) :: more

/-- A character of a name. -/
def isNameChar (c : Char) : Bool :=
  Text.isDigit c || Text.isLetter c || c == '_'

/-- The head of a prototype without its parentheses: what stands before the name, and the name. The
name starts one byte behind the start of the last character that is not part of it. -/
def cutName (head : List Char) : Except SignatureError (List Char × List Char) :=
  let name := (head.reverse.takeWhile isNameChar).reverse
  let before := head.take (head.length - name.length)
  match before.getLast? with
  | some c => if c.toNat < 0x80 then .ok (before, name) else .error .cutCharacter
  | none => .ok (before, name)

/-- The category that a text names, or an error that quotes the text. -/
def readType (cs : List Char) : Except SignatureError CType :=
  match CType.ofChars? cs with
  | some t => .ok t
  | none => .error (.unknownType (String.ofList (Text.trim cs)))

/-- Where the name, the return type and the arguments of a prototype are. -/
structure Layout where
  name : List Char
  ret : CType
  /-- The text behind the parenthesis that opens the arguments. -/
  argsOn : List Char

/-- Finds the parts of a prototype: `ret (*name)(args)`, or `ret name(args)` for a function. -/
def layout (cs : List Char) (isCallback : Bool) : Except SignatureError Layout :=
  match cutAtOpen? cs with
  | none => .error .missingArguments
  | some (head, behind) =>
    match cutAtClose? behind 1 with
    | none => .error .unbalanced
    | some (inside, after) =>
      match Text.trimStart behind with
      | '*' :: _ =>
        match cutAtOpen? after with
        | none => .error .missingArguments
        | some (_, argsOn) => do
          let ret ← readType head
          return ⟨Text.trim ((Text.trimStart inside).drop 1), ret, argsOn⟩
      | _ =>
        if isCallback then .error (.unknownType (String.ofList (Text.trim cs)))
        else do
          let (before, name) ← cutName (Text.trimEnd head)
          if name.isEmpty then throw .missingName
          let ret ← readType before
          return ⟨name, ret, behind⟩

/-- Reads the arguments among pieces, in order. `readCallback` reads a piece with parentheses. -/
def readArgs (isCallback : Bool) (readCallback : List Char → Except SignatureError Signature) :
    List (List Char) → List CType → Option Signature →
      Except SignatureError (List CType × Option Signature)
  | [], args, callback => .ok (args, callback)
  | piece :: rest, args, callback => do
    let (arg, callback) ←
      if piece.contains '(' then
        match callback with
        | some _ => throw .secondCallback
        | none => do
          let cb ← readCallback piece
          pure (CType.callback, some cb)
      else do
        let t ← readType piece
        pure (t, callback)
    let args := args ++ [arg]
    if maxArgs < args.length then throw (.tooMany isCallback)
    readArgs isCallback readCallback rest args callback

/-- Reads a prototype without surrounding blanks. The budget is at least its length; a callback is
shorter than the prototype around it, and a text of length zero has no argument list. -/
def read (isCallback : Bool) (cs : List Char) : Nat → Except SignatureError Signature
  | 0 => .error .missingArguments
  | budget + 1 => do
    let parts ← layout cs isCallback
    match cutAtClose? parts.argsOn 1 with
    | none => throw .unbalanced
    | some (inside, _) => do
      let all := pieces inside 0
      let none_ := all.length == 1
        && (CType.ofChars? inside == some .void || (Text.trim inside).isEmpty)
      let (args, callback) ←
        if none_ then pure ([], none)
        else readArgs isCallback (fun piece => read true (Text.trim piece) budget) all [] none
      return ⟨String.ofList parts.name, parts.ret, args, callback⟩

/-- Reads and checks a function signature. -/
def parse (text : String) : Except SignatureError Signature := do
  let cs := Text.trim text.toList
  let s ← read false cs cs.length
  s.validate
  return s

end Signature

/-- A function that the embedder has found, and the address that stands for script callbacks of its
callback signature, if the embedder has one. -/
structure ForeignFunction where
  signature : Signature
  target : UInt64
  trampoline : Option UInt64

end ScriptEngine.Ffi
