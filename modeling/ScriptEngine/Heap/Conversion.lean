import ScriptEngine.Heap.Basic
/-!
What a value amounts to: its truth, its text, and whether it is the same as another.

Text comes in two forms. Conversion gives the bytes that a property key or a string made of the value
has, and refuses what has no such form. Display shows any value on one line.
-/

namespace ScriptEngine

/-- A byte of displayed text: itself if it is printable, else an escape. -/
def displayByte (b : UInt8) : List Char :=
  if 0x20 ≤ b && b < 0x7F then [Char.ofNat b.toNat]
  else '\\' :: 'x' :: (hexDigits b.toNat 2).toList

/-- Bytes as displayed text. -/
def displayBytes (bytes : List UInt8) : String :=
  String.ofList (bytes.flatMap displayByte)

/-- A truth value as text. -/
def boolText (b : Bool) : String :=
  if b then "true" else "false"

/-- An address as displayed text. -/
def displayAddress (address : Address) : String :=
  "<foreign_ptr@" ++ hexDigits address.word.toNat 1 ++ ">"

namespace Heap

/-- Whether a condition on the value holds. Zero, the NaN, empty text and address zero are false, and so
are the two values that stand for nothing. -/
def truthy (h : Heap) (v : Value) : Bool :=
  match v with
  | .boolean b => b
  | .number n => !n.isNaN && !n.equals (.ofNat 0)
  | .string s => h.strings.length s != 0
  | .foreign address => address.word != 0
  | .null | .undefined => false
  | _ => true

/-- The bytes of the text that a value converts to. -/
def textOf (h : Heap) (v : Value) : Except Error (List UInt8) :=
  match v with
  | .string s => .ok (h.strings.bytes s)
  | .number n => .ok (Text.bytesOf n.text)
  | .boolean b => .ok (Text.bytesOf (boolText b))
  | .null => .ok (Text.bytesOf "null")
  | .undefined => .ok (Text.bytesOf "undefined")
  | .foreign address => .ok (Text.bytesOf (displayAddress address))
  | _ => .error (.type ("cannot convert " ++ v.typeName ++ " to string"))

/-- A value on one line. `nativeName` names the functions of the embedder. -/
def display (h : Heap) (nativeName : NativeId → Option String) (v : Value) : String :=
  match v with
  | .number n => n.text
  | .boolean b => boolText b
  | .null => "null"
  | .undefined => "undefined"
  | .string s => displayBytes (h.strings.bytes s)
  | .array _ => "<array>"
  | .object _ => "<object>"
  | .arrayBuffer _ => "<array_buf>"
  | .dataView _ => "<data_view>"
  | .foreign address => displayAddress address
  | .function offset => "<function@" ++ toString offset.val ++ ">"
  | .native id => "<native " ++ (nativeName id).getD "?" ++ ">"
  | .signature id =>
    match h.foreignFunction id with
    | .ok f => "<ffi " ++ f.signature.display ++ ">"
    | .error _ => "<ffi>"

/-- Sameness in the language: numbers by value, strings by their bytes, address zero and null alike,
everything else by identity. -/
def strictEquals (h : Heap) (a b : Value) : Bool :=
  match a, b with
  | .number x, .number y => x.equals y
  | .string s, .string t => h.strings.bytes s == h.strings.bytes t
  | .foreign address, .null | .null, .foreign address => address.word == 0
  | _, _ => a == b

end Heap

end ScriptEngine
