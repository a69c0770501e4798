import ScriptEngine.Machine.Embedding
/-!
Files that scripts are loaded from.

A `Directory` holds files by their paths, and the directories on the way to them. Reading follows a path
from there, step by step, and a script has to be well-formed text.
-/

namespace ScriptEngine

/-- Why a file could not be read. -/
inductive FileFault where
  | missing
  | notDirectory
  | isDirectory
  | nameTooLong
  /-- The path holds a zero byte. -/
  | zeroInPath
  | notText
  deriving DecidableEq, Repr

/-- The fault in words. -/
def FileFault.message : FileFault → String
  | missing => "No such file or directory (os error 2)"
  | notDirectory => "Not a directory (os error 20)"
  | isDirectory => "Is a directory (os error 21)"
  | nameTooLong => "File name too long (os error 36)"
  | zeroInPath => "file name contained an unexpected NUL byte"
  | notText => "stream did not contain valid UTF-8"

/-- Bytes as the text of a script. -/
def FileText.ofBytes (bytes : List UInt8) : FileText :=
  match Text.Utf8.decode? bytes with
  | some s => .text s
  | none => .failed FileFault.notText.message

/-- The steps of a path. -/
def pathSteps (path : String) : List String :=
  let (step, rest) := path.toList.foldr (fun c (step, rest) =>
    if c == '/' then ([], String.ofList step :: rest) else (c :: step, rest)) ([], [])
  String.ofList step :: rest

/-- Longest name of a file, in bytes. -/
def maxNameLength : Nat := 255

/-- Longest path, in bytes. -/
def maxPathLength : Nat := 4095

/-- What is wrong with a path, whatever files there are. -/
def pathFault? (path : String) : Option FileFault :=
  if path.toList.contains (Char.ofNat 0) then some .zeroInPath
  else if path == "" then some .missing
  else if maxPathLength < path.utf8ByteSize then some .nameTooLong
  else none

/-- Files by their paths. -/
structure Directory where
  files : List (List String × List UInt8)

namespace Directory

def empty : Directory := ⟨[]⟩

/-- Whether something lies below a place. -/
def isInside (d : Directory) (place : List String) : Bool :=
  place.isEmpty || d.files.any fun file => place.isPrefixOf file.1 && place.length < file.1.length

/-- The file at a place. -/
def fileAt? (d : Directory) (place : List String) : Option (List UInt8) :=
  d.files.lookup place

/-- Puts a file at a path. -/
def write (d : Directory) (path : String) (bytes : List UInt8) : Directory :=
  let place := (pathSteps path).filter fun step => step != "" && step != "."
  ⟨(place, bytes) :: d.files.filter fun file => file.1 != place⟩

/-- Where a path has led to. -/
inductive Place where
  /-- A place in the directory. -/
  | inside (steps : List String)
  /-- A directory that is not in this one, about which no more is known. -/
  | outside
  deriving DecidableEq, Repr

/-- The directory around a place. -/
def Place.parent : Place → Place
  | inside [] | outside => outside
  | inside steps => inside steps.dropLast

/-- Whether a place is a file. -/
def isFile (d : Directory) : Place → Bool
  | .inside steps => (d.fileAt? steps).isSome
  | .outside => false

/-- The place of a name in a directory. -/
def child (d : Directory) (place : Place) (name : String) : Except FileFault Place :=
  match place with
  | .inside steps =>
    let next := steps ++ [name]
    if (d.fileAt? next).isSome || d.isInside next then .ok (.inside next) else .error .missing
  | .outside => .error .missing

/-- Takes one step from a place. -/
def stepFrom (d : Directory) (place : Place) (step : String) : Except FileFault Place :=
  if d.isFile place then .error .notDirectory
  else if step == "" || step == "." then .ok place
  else if maxNameLength < step.utf8ByteSize then .error .nameTooLong
  else if step == ".." then .ok place.parent
  else d.child place step

/-- Takes the steps of a path. -/
def follow (d : Directory) (place : Place) : List String → Except FileFault Place
  | [] => .ok place
  | step :: rest =>
    match d.stepFrom place step with
    | .ok place => follow d place rest
    | .error e => .error e

/-- Where a path starts. -/
def start (path : String) : Place :=
  if path.toList.head? == some '/' then .outside else .inside []

/-- The bytes of a file. -/
def readBytes (d : Directory) (path : String) : Except FileFault (List UInt8) :=
  match pathFault? path with
  | some fault => .error fault
  | none =>
    match d.follow (start path) (pathSteps path) with
    | .error e => .error e
    | .ok .outside => .error .isDirectory
    | .ok (.inside steps) =>
      match d.fileAt? steps with
      | some bytes => .ok bytes
      | none => .error .isDirectory

/-- A file as text. -/
def read (d : Directory) (path : String) : FileText :=
  match d.readBytes path with
  | .ok bytes => .ofBytes bytes
  | .error e => .failed e.message

end Directory

end ScriptEngine
