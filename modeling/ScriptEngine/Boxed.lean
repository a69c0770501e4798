import ScriptEngine.Value
/-!
Values as 64-bit words.

A word is a double unless all exponent bits are set and the four bits below them are not all zero.
In that space the sign and the four bits are the tag, and the low 48 bits are the payload: a handle,
an offset, an address, or up to five bytes of text. `pack` writes a value and `unpack?` reads any
word; a reader has to expect words that no value packs to, among them an inline string that declares
more bytes than a payload holds.
-/

namespace ScriptEngine

/-- The kinds of tagged words. -/
inductive Tag where
  | object
  | foreign
  | undefined
  | boolean
  | nan
  | stringInline
  | string5
  | stringOwned
  | stringForeign
  | native
  | array
  | function
  | signature
  | null
  | arrayBuffer
  | dataView
  deriving DecidableEq, Repr

namespace Tag

/-- Every tag. -/
def all : List Tag :=
  [object, foreign, undefined, boolean, nan, stringInline, string5, stringOwned, stringForeign,
    native, array, function, signature, null, arrayBuffer, dataView]

/-- The upper sixteen bits of a word with the tag. Eleven under a set sign is not in use. -/
def code : Tag → UInt64
  | object => 0xFFF1
  | foreign => 0xFFF2
  | undefined => 0xFFF3
  | boolean => 0xFFF4
  | nan => 0xFFF5
  | stringInline => 0xFFF6
  | string5 => 0xFFF7
  | stringOwned => 0xFFF8
  | stringForeign => 0xFFF9
  | native => 0xFFFA
  | array => 0xFFFC
  | function => 0xFFFD
  | signature => 0xFFFE
  | null => 0xFFFF
  | arrayBuffer => 0x7FF1
  | dataView => 0x7FF2

/-- The tag with given upper bits. -/
def ofCode? (upper : UInt64) : Option Tag :=
  all.find? fun t => t.code == upper

theorem ofCode?_code (t : Tag) : ofCode? t.code = some t := by
  cases t <;> decide

end Tag

/-- A value in one word. -/
structure Boxed where
  bits : UInt64
  deriving DecidableEq, Repr

/-- What a word holds. -/
inductive Unpacked where
  | value (v : Value)
  /-- An inline string whose declared length is beyond the bytes that are there. -/
  | overlong (declared : Nat) (stored : List UInt8)
  deriving DecidableEq

namespace Boxed

def tagBits : UInt64 := 0x000F000000000000

def payloadMask : UInt64 := 0x0000FFFFFFFFFFFF

/-- Whether the word lies in the tagged space. -/
def isTagged (b : Boxed) : Bool :=
  b.bits &&& exponentMask == exponentMask && b.bits &&& tagBits != 0

/-- The tag of a tagged word, if it is one in use. -/
def tag? (b : Boxed) : Option Tag :=
  if b.isTagged then Tag.ofCode? (b.bits >>> 48) else none

/-- The low 48 bits. -/
def payload (b : Boxed) : Payload :=
  Fin.ofNat payloadSize b.bits.toNat

/-- Five bytes of a payload, `skip` bytes from its low end. -/
def storedBytes (payload : Payload) (skip : Nat) : List UInt8 :=
  (List.range (6 - skip)).map fun i => UInt8.ofNat (payload.val >>> (8 * (i + skip)))

/-- Bytes laid out from the low end of a payload. -/
def bytesWord : List UInt8 → Nat
  | [] => 0
  | b :: rest => b.toNat + 256 * bytesWord rest

/-- A word from its tag and its payload. -/
def tagged (t : Tag) (payload : Nat) : Boxed :=
  ⟨t.code <<< 48 ||| UInt64.ofNat payload⟩

/-- The payload of a handle: the slot below, the generation above it. -/
def cellWord (id : CellId) : Nat :=
  id.index.toNat + UInt32.size * id.generation.toNat

/-- The handle that a payload spells. -/
def cellOf (payload : Payload) : CellId :=
  ⟨UInt32.ofNat payload.val, UInt16.ofNat (payload.val / UInt32.size)⟩

/-- The word of a value. -/
def pack : Value → Boxed
  | .number n => if n.isNaN then tagged .nan 0 else ⟨n.bits⟩
  | .boolean b => tagged .boolean (if b then 1 else 0)
  | .null => tagged .null 0
  | .undefined => tagged .undefined 0
  | .string (.inline text) =>
    if text.bytes.length < maxInlineLength then
      tagged .stringInline (text.bytes.length + 256 * bytesWord text.bytes)
    else tagged .string5 (bytesWord text.bytes)
  | .string (.owned offset) => tagged .stringOwned offset.val
  | .string (.foreign index) => tagged .stringForeign index.val
  | .object id => tagged .object (cellWord id.cell)
  | .array id => tagged .array (cellWord id.cell)
  | .arrayBuffer id => tagged .arrayBuffer (cellWord id.cell)
  | .dataView id => tagged .dataView (cellWord id.cell)
  | .function offset => tagged .function offset.val
  | .native id => tagged .native id.index.toNat
  | .signature id => tagged .signature (cellWord id.cell)
  | .foreign address => tagged .foreign (address.word.toNat % payloadSize)

/-- An address from its low 48 bits. -/
def extendAddress (payload : Payload) : UInt64 :=
  if 2 * payload.val < payloadSize then UInt64.ofNat payload.val
  else UInt64.ofNat (payload.val + (UInt64.size - payloadSize))

theorem isCanonicalAddress_extendAddress (payload : Payload) :
    isCanonicalAddress (extendAddress payload) = true := by
  have := payload.isLt
  unfold isCanonicalAddress extendAddress
  simp only [Bool.or_eq_true, beq_iff_eq]
  unfold payloadSize UInt64.size at *
  split
  · left
    apply UInt64.toNat_inj.mp
    rw [UInt64.toNat_shiftRight, UInt64.toNat_ofNat', Nat.shiftRight_eq_div_pow]
    rw [show (47 : UInt64).toNat % 64 = 47 from rfl, show (0 : UInt64).toNat = 0 from rfl]
    omega
  · right
    apply UInt64.toNat_inj.mp
    rw [UInt64.toNat_shiftRight, UInt64.toNat_ofNat', Nat.shiftRight_eq_div_pow]
    rw [show (47 : UInt64).toNat % 64 = 47 from rfl, show (0x1FFFF : UInt64).toNat = 0x1FFFF from rfl]
    omega

/-- The address value of a payload. -/
def foreignOf (payload : Payload) : Value :=
  .foreign ⟨extendAddress payload, isCanonicalAddress_extendAddress payload⟩

theorem length_storedBytes (payload : Payload) (skip : Nat) :
    (storedBytes payload skip).length = 6 - skip := by
  simp [storedBytes]

/-- The inline string that a payload declares. -/
def inlineOf (payload : Payload) : Unpacked :=
  let declared := payload.val % 256
  if declared ≤ maxInlineLength then
    .value (.string (.inline ⟨(storedBytes payload 1).take declared, by
      rw [List.length_take, length_storedBytes]
      exact Nat.min_le_right _ _⟩))
  else .overlong declared (storedBytes payload 1)

/-- The five-byte string of a payload. -/
def string5Of (payload : Payload) : Value :=
  .string (.inline ⟨(storedBytes payload 0).take maxInlineLength, by
    rw [List.length_take, length_storedBytes]
    exact Nat.min_le_left _ _⟩)

/-- What a word with the tag holds. -/
def unpackTag (payload : Payload) : Tag → Unpacked
  | .nan => .value .nan
  | .undefined => .value .undefined
  | .null => .value .null
  | .boolean => .value (.boolean (payload.val % 2 == 1))
  | .object => .value (.object ⟨cellOf payload⟩)
  | .array => .value (.array ⟨cellOf payload⟩)
  | .arrayBuffer => .value (.arrayBuffer ⟨cellOf payload⟩)
  | .dataView => .value (.dataView ⟨cellOf payload⟩)
  | .signature => .value (.signature ⟨cellOf payload⟩)
  | .native => .value (.native ⟨UInt32.ofNat payload.val⟩)
  | .function => .value (.function payload)
  | .foreign => .value (foreignOf payload)
  | .stringInline => inlineOf payload
  | .string5 => .value (string5Of payload)
  | .stringOwned => .value (.string (.owned payload))
  | .stringForeign => .value (.string (.foreign payload))

/-- What the word holds; `none` for a tag that is not in use. -/
def unpack? (b : Boxed) : Option Unpacked :=
  if b.isTagged then b.tag?.map (unpackTag b.payload) else some (.value (.number (.ofBits b.bits)))

/-- A word as a value, if its tag is in use. -/
def ofBits? (bits : UInt64) : Except ValueError Boxed :=
  if (unpack? ⟨bits⟩).isSome then .ok ⟨bits⟩ else .error (.unknownTag bits)

/-- What the word holds, with undefined for a tag that is not in use. -/
def unpack (b : Boxed) : Unpacked :=
  b.unpack?.getD (.value .undefined)

def isNumber (b : Boxed) : Bool :=
  !b.isTagged || b.tag? == some .nan

def isNaN (b : Boxed) : Bool :=
  b == tagged .nan 0

def isUndefined (b : Boxed) : Bool :=
  b == tagged .undefined 0

def isNull (b : Boxed) : Bool :=
  b == tagged .null 0

def isBoolean (b : Boxed) : Bool :=
  b.tag? == some .boolean

/-- The representation that the tag declares. -/
def stringKind? (b : Boxed) : Option StringKind :=
  match b.tag? with
  | some .stringInline => some .inline
  | some .string5 => some .inline5
  | some .stringOwned => some .owned
  | some .stringForeign => some .foreign
  | _ => none

def isString (b : Boxed) : Bool :=
  b.stringKind?.isSome

def isObject (b : Boxed) : Bool :=
  b.tag? == some .object

def isArray (b : Boxed) : Bool :=
  b.tag? == some .array

def isForeign (b : Boxed) : Bool :=
  b.tag? == some .foreign

def isFunction (b : Boxed) : Bool :=
  b.tag? == some .function

def isCallable (b : Boxed) : Bool :=
  b.isFunction || b.tag? == some .native || b.tag? == some .signature

def asNumber? (b : Boxed) : Option Number :=
  match b.unpack with
  | .value v => v.asNumber?
  | .overlong _ _ => none

def asBoolean? (b : Boxed) : Option Bool :=
  match b.unpack with
  | .value v => v.asBoolean?
  | .overlong _ _ => none

def asAddress? (b : Boxed) : Option Address :=
  match b.unpack with
  | .value v => v.asAddress?
  | .overlong _ _ => none

def typeName (b : Boxed) : String :=
  match b.unpack with
  | .value v => v.typeName
  | .overlong _ _ => "string"

end Boxed

namespace Unpacked

/-- The bytes of an inline string, `none` when it declares more than it has. -/
def inlineBytes? : Unpacked → Option (List UInt8)
  | value (.string (.inline text)) => some text.bytes
  | _ => none

/-- Text between quotes, as inspection shows it; the bytes are printable ASCII. -/
def inspectText (bytes : List UInt8) : String :=
  let escaped := (Text.ofAscii bytes).toList.flatMap fun c =>
    if c == '"' || c == '\\' then ['\\', c] else [c]
  String.ofList ('"' :: escaped ++ ['"'])

/-- A value as inspection shows it. Text is shown only when it is printable ASCII. -/
def inspect? : Unpacked → Option String
  | overlong _ _ => none
  | value v => match v with
    | .number n => some ("Number(" ++ n.plainText ++ ")")
    | .boolean b => some ("Boolean(" ++ (if b then "true" else "false") ++ ")")
    | .null => some "Null"
    | .undefined => some "Undefined"
    | .string (.inline text) =>
      if text.bytes.all fun b => 0x20 ≤ b && b ≤ 0x7E then
        some ("Str(Inline(" ++ inspectText text.bytes ++ "))")
      else none
    | .string (.owned offset) => some ("Str(Owned(" ++ toString offset.val ++ "))")
    | .string (.foreign index) => some ("Str(Foreign(" ++ toString index.val ++ "))")
    | .object id => some ("Object(" ++ id.inspect ++ ")")
    | .array id => some ("Array(" ++ id.inspect ++ ")")
    | .arrayBuffer id => some ("ArrayBuffer(" ++ id.inspect ++ ")")
    | .dataView id => some ("DataView(" ++ id.inspect ++ ")")
    | .function offset => some ("Function(" ++ toString offset.val ++ ")")
    | .native id => some ("Native(" ++ id.inspect ++ ")")
    | .signature id => some ("FfiSig(" ++ id.inspect ++ ")")
    | .foreign address => some ("Foreign(" ++ toString address.word.toNat ++ ")")

end Unpacked

end ScriptEngine
