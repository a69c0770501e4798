import ScriptEngine.Error
import ScriptEngine.Handle
import ScriptEngine.Number.Text
import ScriptEngine.Text.Utf8
/-!
Values of the language.

A value fits a 64-bit word (see `ScriptEngine.Boxed`), which bounds what it can carry: a payload of
48 bits, an address that sign-extends from bit 47, or at most five bytes of text. The bounds are
part of the types here, and two values are equal exactly when their words are.
-/

namespace ScriptEngine

/-- What does not fit a value. -/
inductive ValueError where
  | nonCanonicalPointer (address : UInt64)
  | payloadOverflow (payload : UInt64)
  | unknownTag (bits : UInt64)
  deriving DecidableEq, Repr

/-- Lower-case hexadecimal digits, no fewer than `width`. -/
def hexDigits (n width : Nat) : String :=
  let digits := Nat.toDigits 16 n
  String.ofList (List.replicate (width - digits.length) '0' ++ digits)

namespace ValueError

/-- The name the case is reported under. -/
def code : ValueError → String
  | nonCanonicalPointer _ => "NonCanonicalPointer"
  | payloadOverflow _ => "PayloadOverflow"
  | unknownTag _ => "UnknownTag"

/-- The error in words. -/
def message : ValueError → String
  | nonCanonicalPointer address =>
    "pointer 0x" ++ hexDigits address.toNat 1 ++ " is not a canonical 48-bit address"
  | payloadOverflow payload => "payload 0x" ++ hexDigits payload.toNat 1 ++ " does not fit in 48 bits"
  | unknownTag bits => "bit pattern 0x" ++ hexDigits bits.toNat 16 ++ " carries an unknown tag"

/-- The same as an error of the engine. -/
def toError (e : ValueError) : Error :=
  .internal e.message

end ValueError

/-- How many payloads there are: a payload has 48 bits. -/
abbrev payloadSize : Nat := 0x1000000000000

/-- What a tagged word carries besides its tag. -/
abbrev Payload := Fin payloadSize

/-- A payload, if the word fits. -/
def Payload.ofWord? (word : UInt64) : Except ValueError Payload :=
  if h : word.toNat < payloadSize then .ok ⟨word.toNat, h⟩ else .error (.payloadOverflow word)

/-- Whether the bits of an address from bit 47 up are all alike. -/
def isCanonicalAddress (address : UInt64) : Bool :=
  address >>> 47 == 0 || address >>> 47 == 0x1FFFF

/-- An address that sign-extends from bit 47. -/
structure Address where
  word : UInt64
  canonical : isCanonicalAddress word = true
  deriving DecidableEq

/-- An address, if the word is one. -/
def Address.ofWord? (word : UInt64) : Except ValueError Address :=
  if h : isCanonicalAddress word = true then .ok ⟨word, h⟩ else .error (.nonCanonicalPointer word)

/-- Longest text stored inside a value. -/
def maxInlineLength : Nat := 5

/-- Text short enough to be stored inside a value. -/
structure InlineText where
  bytes : List UInt8
  short : bytes.length ≤ maxInlineLength
  deriving DecidableEq

/-- Text stored inside a value, if it is short enough. -/
def InlineText.ofBytes? (bytes : List UInt8) : Option InlineText :=
  if h : bytes.length ≤ maxInlineLength then some ⟨bytes, h⟩ else none

/-- Where the bytes of a string are. -/
inductive StringRef where
  | inline (text : InlineText)
  /-- A record of the string heap, by its offset. -/
  | owned (offset : Payload)
  /-- An entry of the table of borrowed strings. -/
  | foreign (index : Payload)
  deriving DecidableEq

/-- The representations of strings. -/
inductive StringKind where
  | inline
  /-- Five bytes, which leave no room for a length. -/
  | inline5
  | owned
  | foreign
  deriving DecidableEq, Repr

/-- The name of a representation. -/
def StringKind.name : StringKind → String
  | inline => "Inline"
  | inline5 => "Inline5"
  | owned => "Owned"
  | foreign => "Foreign"

/-- The representation of a string. -/
def StringRef.kind : StringRef → StringKind
  | inline text => if text.bytes.length < maxInlineLength then .inline else .inline5
  | owned _ => .owned
  | foreign _ => .foreign

/-- A value of the language. -/
inductive Value where
  | number (n : Number)
  | boolean (b : Bool)
  | null
  | undefined
  | string (s : StringRef)
  | object (id : ObjectId)
  | array (id : ObjectId)
  | arrayBuffer (id : ObjectId)
  | dataView (id : ObjectId)
  /-- A function of a script, by the offset of its first instruction. -/
  | function (offset : Payload)
  | native (id : NativeId)
  | signature (id : SignatureId)
  /-- An address of the embedder. -/
  | foreign (address : Address)
  deriving DecidableEq

namespace Value

instance : Inhabited Value := ⟨undefined⟩

/-- The NaN. -/
def nan : Value := number .nan

/-- A number made of a natural number. -/
def ofNat (n : Nat) : Value := number (.ofNat n)

/-- A string of at most five bytes. -/
def ofInline? (bytes : List UInt8) : Option Value :=
  (InlineText.ofBytes? bytes).map fun text => string (.inline text)

/-- A function that starts at an offset. -/
def ofFunction? (offset : UInt64) : Except ValueError Value :=
  (Payload.ofWord? offset).map function

/-- A record of the string heap. -/
def ofOwned? (offset : UInt64) : Except ValueError Value :=
  (Payload.ofWord? offset).map fun p => string (.owned p)

/-- An entry of the table of borrowed strings. -/
def ofForeignText? (index : UInt64) : Except ValueError Value :=
  (Payload.ofWord? index).map fun p => string (.foreign p)

/-- An address of the embedder. -/
def ofAddress? (word : UInt64) : Except ValueError Value :=
  (Address.ofWord? word).map foreign

def isString : Value → Bool
  | string _ => true
  | _ => false

def isForeign : Value → Bool
  | foreign _ => true
  | _ => false

def isUndefined : Value → Bool
  | undefined => true
  | _ => false

/-- Whether a call of the value can succeed. -/
def isCallable : Value → Bool
  | function _ | native _ | signature _ => true
  | _ => false

def asNumber? : Value → Option Number
  | number n => some n
  | _ => none

def asBoolean? : Value → Option Bool
  | boolean b => some b
  | _ => none

def asAddress? : Value → Option Address
  | foreign address => some address
  | _ => none

/-- The number that arithmetic sees: NaN in place of everything else. -/
def toNumber (v : Value) : Number :=
  v.asNumber?.getD .nan

/-- The object whose properties the value carries. -/
def propertyHolder? : Value → Option ObjectId
  | object id | array id => some id
  | _ => none

/-- The name that the operator for types gives. -/
def typeName : Value → String
  | number _ => "number"
  | boolean _ => "boolean"
  | null => "null"
  | undefined => "undefined"
  | string _ => "string"
  | object _ => "object"
  | arrayBuffer _ => "array_buf"
  | dataView _ => "data_view"
  | array _ => "array"
  | function _ | native _ | signature _ => "function"
  | foreign _ => "foreign_ptr"

end Value

end ScriptEngine
