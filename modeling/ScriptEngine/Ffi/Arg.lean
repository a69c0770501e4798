import ScriptEngine.Heap.Basic
/-!
What passes between the engine and native code.

An argument or result is tagged with its category. Values of the language are written into the
category that the signature declares, without conversions, and results are read back the same way.
-/

namespace ScriptEngine.Ffi

/-- An argument or a result. -/
inductive Arg where
  /-- An integer, or the token of a callback. -/
  | word (w : UInt64)
  | bool (b : Bool)
  | double (n : Number)
  /-- A number of 32 bits, by its pattern. -/
  | single (bits : UInt32)
  | pointer (address : UInt64)
  /-- The bytes of a text. -/
  | text (bytes : List UInt8)
  deriving DecidableEq

namespace Arg

/-- An argument as inspection shows it. -/
def inspect : Arg → String
  | word w => "Word(" ++ toString w.toNat ++ ")"
  | bool b => "Bool(" ++ (if b then "true" else "false") ++ ")"
  | double n => "Double(" ++ Decimal.Style.inspect.write n.reading ++ ")"
  | single bits =>
    "Float(" ++ Decimal.Style.inspect.write (Decimal.single.read bits.toNat) ++ ")"
  | pointer address => "Ptr(" ++ toString address.toNat ++ ")"
  | text bytes =>
    "Str([" ++ String.intercalate ", " (bytes.map fun b => toString b.toNat) ++ "])"

/-! ## Values as arguments -/

/-- The `i`th argument is not what its category needs. -/
def mismatch (i : Nat) (what : String) : Error :=
  .type ("actual arg #" ++ toString i ++ " is not " ++ what)

/-- A whole number or a truth value as a word. -/
def ofInteger (i : Nat) (v : Value) : Except Error Arg :=
  match v with
  | .number n =>
    if n.integer?.isSome then .ok (.word (Int64.ofInt n.clampInt64).toUInt64)
    else .error (mismatch i "an int")
  | .boolean b => .ok (.word (if b then 1 else 0))
  | _ => .error (mismatch i "an int")

/-- A number or a truth value as a truth value. -/
def ofTruth (i : Nat) (v : Value) : Except Error Arg :=
  match v with
  | .number n => .ok (.bool (!n.equals (.ofNat 0)))
  | .boolean b => .ok (.bool b)
  | _ => .error (mismatch i "a bool")

/-- A number. -/
def numberAt (i : Nat) (v : Value) : Except Error Number :=
  match v with
  | .number n => .ok n
  | _ => .error (mismatch i "a number")

/-- Text, or null as an address. -/
def ofTextOrNull (h : Heap) (i : Nat) (v : Value) : Except Error Arg :=
  match v with
  | .string s => .ok (.text (h.strings.bytes s))
  | .null => .ok (.pointer 0)
  | _ => .error (mismatch i "a string")

/-- Text, an address, or null as one. -/
def ofPointer (h : Heap) (i : Nat) (v : Value) : Except Error Arg :=
  match v with
  | .string s => .ok (.text (h.strings.bytes s))
  | .foreign address => .ok (.pointer address.word)
  | .null => .ok (.pointer 0)
  | _ => .error (mismatch i "a pointer")

/-- Text. -/
def ofText (h : Heap) (i : Nat) (v : Value) : Except Error Arg :=
  match v with
  | .string s => .ok (.text (h.strings.bytes s))
  | _ => .error (mismatch i "a string")

/-- The address that stands for a script function. -/
def ofFunction (trampoline : Option UInt64) (i : Nat) (v : Value) : Except Error Arg :=
  match v with
  | .function _ =>
    match trampoline with
    | some address => .ok (.pointer address)
    | none => .error (.type "no trampoline for callback")
  | _ => .error (mismatch i "a function")

/-- A value as the `i`th argument in a category. `trampoline` is the address that stands for script
functions, and `withCallback` says whether the signature has a callback. A token is filled in when the
call is accepted. -/
def ofValue (h : Heap) (trampoline : Option UInt64) (withCallback : Bool) (i : Nat) (type : CType)
    (v : Value) : Except Error Arg :=
  match type with
  | .int => ofInteger i v
  | .bool => ofTruth i v
  | .double => (numberAt i v).map double
  | .float => (numberAt i v).map fun n => single (UInt32.ofNat n.toSingle)
  | .charPtr => ofTextOrNull h i v
  | .voidPtr => ofPointer h i v
  | .textStructPtr => ofText h i v
  | .callback => ofFunction trampoline i v
  | .userdata =>
    if withCallback then .ok (.word 0) else .error (.internal "userdata without a callback")
  | .void | .textStruct => .error (.internal ("invalid arg type \"" ++ type.spelling ++ "\""))

/-! ## Arguments as values -/

/-- A result that is not what its category needs. -/
def unexpected (type : CType) (arg : Arg) : Error :=
  .type (type.spelling ++ " expected, " ++ arg.inspect ++ " given")

/-- The value of a result in a category. Text becomes a new string. -/
def toValue (h : Heap) (type : CType) (arg : Arg) : EStateM.Result Error Heap Value :=
  match type, arg with
  | .void, _ => .ok .undefined h
  | .int, word w => .ok (.number (.ofInt w.toInt64.toInt)) h
  | .bool, bool b => .ok (.boolean b) h
  | .bool, word w => .ok (.boolean (w != 0)) h
  | .double, double n => .ok (.number n) h
  | .float, single bits => .ok (.number (.ofSingle bits.toNat)) h
  | .charPtr, text bytes | .textStructPtr, text bytes => h.newString bytes
  | .charPtr, pointer address =>
    if address = 0 then .ok .null h else .error (unexpected type arg) h
  | .voidPtr, pointer address =>
    if address = 0 then .ok .null h
    else
      match Value.ofAddress? address with
      | .ok v => .ok v h
      | .error e => .error e.toError h
  | _, _ => .error (unexpected type arg) h

end Arg

end ScriptEngine.Ffi
