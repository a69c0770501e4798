import ScriptEngine.Boxed
/-!
Words give back what they were made of.

A tagged word is its tag's code above 48 bits of payload (`toNat_bits_tagged`), and a double that is
not NaN never lies in the tagged space (`isTagged_number`), so the word of a value reads as that
value (`unpack_pack`) and its tag is the one of the value's kind (`tag?_pack`). The constructors of
values take raw words and bytes: `Content` is what they are given, `Content.Fits` says in numbers
which of it fits a word, and `boxing_lossless` says that just that is taken, that all of it is read
back, and that two words are alike only when they were made of the same.
-/

namespace ScriptEngine

namespace Boxed

/-! ## Tagged words -/

/-- Masking the upper bits of a word is masking what is left when the lower ones are gone. -/
theorem and_shiftLeft (x mask : UInt64) : x &&& (mask <<< 48) = ((x >>> 48) &&& mask) <<< 48 := by
  apply UInt64.toBitVec_inj.mp
  apply BitVec.eq_of_getLsbD_eq
  intro i hi
  by_cases h : i < 48
  · simp [h]
  · have hup : 48 + (i - 48) = i := by omega
    simp [h, hup, hi]

theorem toNat_bits_tagged (t : Tag) {p : Nat} (h : p < payloadSize) :
    (tagged t p).bits.toNat = t.code.toNat * payloadSize + p := by
  have hp : (UInt64.ofNat p).toNat = p := by
    rw [UInt64.toNat_ofNat']
    exact Nat.mod_eq_of_lt (Nat.lt_trans h (by decide))
  have hcode : (t.code <<< 48).toNat = t.code.toNat <<< 48 := by cases t <;> decide
  unfold tagged
  rw [UInt64.toNat_or, hp, hcode, ← Nat.shiftLeft_add_eq_or_of_lt h, Nat.shiftLeft_eq]

theorem bits_tagged_shiftRight (t : Tag) {p : Nat} (h : p < payloadSize) :
    (tagged t p).bits >>> 48 = t.code := by
  apply UInt64.toNat_inj.mp
  rw [UInt64.toNat_shiftRight, toNat_bits_tagged t h, Nat.shiftRight_eq_div_pow]
  rw [show (48 : UInt64).toNat % 64 = 48 from rfl]
  unfold payloadSize at *
  omega

@[simp] theorem payload_tagged (t : Tag) {p : Nat} (h : p < payloadSize) :
    (tagged t p).payload = ⟨p, h⟩ := by
  apply Fin.ext
  change (tagged t p).bits.toNat % payloadSize = p
  rw [toNat_bits_tagged t h]
  unfold payloadSize at *
  omega

theorem isTagged_tagged (t : Tag) {p : Nat} (h : p < payloadSize) :
    (tagged t p).isTagged = true := by
  have hexponent : exponentMask = (0x7FF0 : UInt64) <<< 48 := by decide
  have htag : tagBits = (0xF : UInt64) <<< 48 := by decide
  unfold isTagged
  rw [hexponent, htag, and_shiftLeft, and_shiftLeft, bits_tagged_shiftRight t h]
  cases t <;> decide

@[simp] theorem tag?_tagged (t : Tag) {p : Nat} (h : p < payloadSize) :
    (tagged t p).tag? = some t := by
  unfold tag?
  rw [if_pos (isTagged_tagged t h), bits_tagged_shiftRight t h, Tag.ofCode?_code]

theorem unpack_tagged (t : Tag) {p : Nat} (h : p < payloadSize) :
    (tagged t p).unpack = unpackTag ⟨p, h⟩ t := by
  unfold unpack unpack?
  rw [if_pos (isTagged_tagged t h), tag?_tagged t h, payload_tagged t h]
  rfl

/-- All exponent bits are set in a tagged word and the fraction is not zero: it is a NaN. -/
theorem isTagged_number {n : Number} (h : n.isNaN = false) : isTagged ⟨n.bits⟩ = false := by
  have hpattern : isNaNPattern n.bits = false := by
    cases hp : isNaNPattern n.bits with
    | false => rfl
    | true =>
      rw [Number.isNaN, n.canonical hp] at h
      exact absurd h (by decide)
  have hmask : fractionMask &&& tagBits = tagBits := by decide
  cases hexponent : n.bits &&& exponentMask == exponentMask with
  | false => simp only [isTagged, hexponent, Bool.false_and]
  | true =>
    have hfraction : n.bits &&& fractionMask = 0 := by
      simpa [isNaNPattern, hexponent] using hpattern
    have hzero : n.bits &&& tagBits = 0 := by
      calc n.bits &&& tagBits = n.bits &&& (fractionMask &&& tagBits) := by rw [hmask]
        _ = (n.bits &&& fractionMask) &&& tagBits := (UInt64.and_assoc ..).symm
        _ = 0 := by rw [hfraction, UInt64.zero_and]
    simp [isTagged, hzero]

/-! ## Payloads -/

theorem cellWord_lt (id : CellId) : cellWord id < payloadSize := by
  have hindex := id.index.toNat_lt
  have hgeneration := id.generation.toNat_lt
  unfold cellWord payloadSize UInt32.size
  omega

theorem cellOf_cellWord (id : CellId) : cellOf ⟨cellWord id, cellWord_lt id⟩ = id := by
  obtain ⟨index, generation⟩ := id
  have hindex := index.toNat_lt
  have hgeneration := generation.toNat_lt
  unfold cellOf cellWord UInt32.size
  congr 1
  · apply UInt32.toNat_inj.mp
    rw [UInt32.toNat_ofNat']
    simp only
    omega
  · apply UInt16.toNat_inj.mp
    rw [UInt16.toNat_ofNat']
    simp only
    omega

theorem nativeWord_lt (id : NativeId) : id.index.toNat < payloadSize :=
  Nat.lt_trans id.index.toNat_lt (by decide)

/-- The addresses that sign-extend from bit 47 are the lowest and the highest ones. -/
theorem isCanonicalAddress_iff (w : UInt64) :
    isCanonicalAddress w = true ↔
      w.toNat < payloadSize / 2 ∨ UInt64.size - payloadSize / 2 ≤ w.toNat := by
  have hw := w.toNat_lt
  have hshift : (w >>> 47).toNat = w.toNat / (payloadSize / 2) := by
    rw [UInt64.toNat_shiftRight, Nat.shiftRight_eq_div_pow]
    rfl
  unfold isCanonicalAddress
  rw [Bool.or_eq_true, beq_iff_eq, beq_iff_eq, ← UInt64.toNat_inj, ← UInt64.toNat_inj, hshift]
  rw [show (0 : UInt64).toNat = 0 from rfl, show (0x1FFFF : UInt64).toNat = 0x1FFFF from rfl]
  unfold payloadSize UInt64.size
  omega

theorem extendAddress_word (a : Address) (h : a.word.toNat % payloadSize < payloadSize) :
    extendAddress ⟨a.word.toNat % payloadSize, h⟩ = a.word := by
  have hword := a.word.toNat_lt
  have hcanonical := (isCanonicalAddress_iff a.word).mp a.canonical
  apply UInt64.toNat_inj.mp
  unfold extendAddress
  unfold payloadSize UInt64.size at *
  split
  all_goals
    rename_i hhalf
    rw [UInt64.toNat_ofNat']
    simp only at *
    omega

/-! ## Bytes laid out in a payload -/

theorem bytesWord_lt (bytes : List UInt8) : bytesWord bytes < Nat.pow 256 bytes.length := by
  induction bytes with
  | nil => exact Nat.one_pos
  | cons b rest ih =>
    have hb := b.toNat_lt
    have hpow : Nat.pow 256 (b :: rest).length = Nat.pow 256 rest.length * 256 := rfl
    rw [bytesWord, hpow]
    omega

/-- The bytes of a word, from its low end, one by one. -/
theorem range_bytesWord (bytes : List UInt8) :
    ((List.range bytes.length).map fun i => UInt8.ofNat (bytesWord bytes >>> (8 * i))) = bytes := by
  induction bytes with
  | nil => rfl
  | cons b rest ih =>
    have hb := b.toNat_lt
    rw [List.length_cons, List.range_succ_eq_map, List.map_cons, List.map_map]
    congr 1
    · apply UInt8.toNat_inj.mp
      rw [Nat.mul_zero, Nat.shiftRight_zero, UInt8.toNat_ofNat', bytesWord]
      omega
    · refine Eq.trans (List.map_congr_left fun i _ => ?_) ih
      have hdiv : bytesWord (b :: rest) >>> 8 = bytesWord rest := by
        rw [Nat.shiftRight_eq_div_pow, bytesWord]
        omega
      change UInt8.ofNat (bytesWord (b :: rest) >>> (8 * (i + 1))) = _
      rw [Nat.mul_add, Nat.add_comm, Nat.shiftRight_add, hdiv]

theorem take_storedBytes (payload : Payload) (skip : Nat) {bytes : List UInt8}
    (hroom : bytes.length ≤ 6 - skip) (h : payload.val >>> (8 * skip) = bytesWord bytes) :
    (storedBytes payload skip).take bytes.length = bytes := by
  unfold storedBytes
  rw [← List.map_take, List.take_range, Nat.min_eq_left hroom]
  refine Eq.trans (List.map_congr_left fun i _ => ?_) (range_bytesWord bytes)
  rw [Nat.mul_add, Nat.add_comm, Nat.shiftRight_add, h]

theorem inlineWord_lt {bytes : List UInt8} (h : bytes.length < maxInlineLength) :
    bytes.length + 256 * bytesWord bytes < payloadSize := by
  have hword := bytesWord_lt bytes
  have hpow : Nat.pow 256 bytes.length ≤ Nat.pow 256 4 :=
    Nat.pow_le_pow_right (by decide) (Nat.le_of_lt_succ h)
  have hfour : Nat.pow 256 4 = 4294967296 := by decide
  unfold payloadSize
  unfold maxInlineLength at h
  omega

theorem string5Word_lt {bytes : List UInt8} (h : bytes.length ≤ maxInlineLength) :
    bytesWord bytes < payloadSize := by
  have hpow : Nat.pow 256 bytes.length ≤ Nat.pow 256 5 :=
    Nat.pow_le_pow_right (by decide) h
  exact Nat.lt_of_lt_of_le (bytesWord_lt bytes) (Nat.le_trans hpow (by decide))

theorem inlineOf_inlineWord (text : InlineText) (h : text.bytes.length < maxInlineLength) :
    inlineOf ⟨text.bytes.length + 256 * bytesWord text.bytes, inlineWord_lt h⟩
      = .value (.string (.inline text)) := by
  obtain ⟨bytes, short⟩ := text
  have hdeclared : (bytes.length + 256 * bytesWord bytes) % 256 = bytes.length := by
    unfold maxInlineLength at short
    omega
  have hstored : (bytes.length + 256 * bytesWord bytes) >>> 8 = bytesWord bytes := by
    rw [Nat.shiftRight_eq_div_pow]
    unfold maxInlineLength at short
    omega
  have hbytes := take_storedBytes ⟨_, inlineWord_lt h⟩ 1 short hstored
  unfold inlineOf
  simp only [hdeclared, if_pos short, hbytes]

theorem string5Of_bytesWord (text : InlineText) (h : ¬ text.bytes.length < maxInlineLength) :
    string5Of ⟨bytesWord text.bytes, string5Word_lt text.short⟩ = .string (.inline text) := by
  obtain ⟨bytes, short⟩ := text
  have hlength : maxInlineLength = bytes.length := Nat.le_antisymm (Nat.le_of_not_lt h) short
  have hbytes := take_storedBytes ⟨bytesWord bytes, string5Word_lt short⟩ 0
    (Nat.le_trans short (by decide)) Nat.shiftRight_zero
  unfold string5Of
  simp only [hlength, hbytes]

/-! ## Values -/

/-- The tag that the word of a value carries. -/
def kindTag? : Value → Option Tag
  | .number n => if n.isNaN then some .nan else none
  | .boolean _ => some .boolean
  | .null => some .null
  | .undefined => some .undefined
  | .string (.inline text) =>
    some (if text.bytes.length < maxInlineLength then .stringInline else .string5)
  | .string (.owned _) => some .stringOwned
  | .string (.foreign _) => some .stringForeign
  | .object _ => some .object
  | .array _ => some .array
  | .arrayBuffer _ => some .arrayBuffer
  | .dataView _ => some .dataView
  | .function _ => some .function
  | .native _ => some .native
  | .signature _ => some .signature
  | .foreign _ => some .foreign

theorem isNaN_number {n : Number} (h : n.isNaN = true) : n = .nan := by
  apply Number.bits_inj
  exact beq_iff_eq.mp h

theorem addressWord_lt (a : Address) : a.word.toNat % payloadSize < payloadSize :=
  Nat.mod_lt _ (by decide)

/-- The values whose words carry the tag. -/
def OfKind (v : Value) : Tag → Prop
  | .nan => v = .nan
  | .boolean => ∃ b, v = .boolean b
  | .null => v = .null
  | .undefined => v = .undefined
  | .stringInline => ∃ text : InlineText, v = .string (.inline text) ∧
      text.bytes.length < maxInlineLength
  | .string5 => ∃ text : InlineText, v = .string (.inline text) ∧
      text.bytes.length = maxInlineLength
  | .stringOwned => ∃ offset, v = .string (.owned offset)
  | .stringForeign => ∃ index, v = .string (.foreign index)
  | .object => ∃ id, v = .object id
  | .array => ∃ id, v = .array id
  | .arrayBuffer => ∃ id, v = .arrayBuffer id
  | .dataView => ∃ id, v = .dataView id
  | .function => ∃ offset, v = .function offset
  | .native => ∃ id, v = .native id
  | .signature => ∃ id, v = .signature id
  | .foreign => ∃ address, v = .foreign address

theorem ofKind_of_kindTag? {v : Value} {t : Tag} (h : kindTag? v = some t) : OfKind v t := by
  cases v with
  | number n =>
    by_cases hnan : n.isNaN = true
    · rw [kindTag?, if_pos hnan] at h
      cases h
      exact congrArg Value.number (isNaN_number hnan)
    · rw [kindTag?, if_neg hnan] at h
      cases h
  | string s =>
    cases s with
    | inline text =>
      by_cases hlength : text.bytes.length < maxInlineLength
      · rw [kindTag?, if_pos hlength] at h
        cases h
        exact ⟨text, rfl, hlength⟩
      · rw [kindTag?, if_neg hlength] at h
        cases h
        exact ⟨text, rfl, Nat.le_antisymm text.short (Nat.le_of_not_lt hlength)⟩
    | owned offset => cases h; exact ⟨offset, rfl⟩
    | foreign index => cases h; exact ⟨index, rfl⟩
  | null | undefined => cases h; rfl
  | _ => cases h; exact ⟨_, rfl⟩

theorem kindTag?_eq_some_iff (v : Value) (t : Tag) : kindTag? v = some t ↔ OfKind v t := by
  refine ⟨ofKind_of_kindTag?, fun h => ?_⟩
  cases t with
  | nan | null | undefined => cases h; rfl
  | stringInline =>
    obtain ⟨text, rfl, hlength⟩ := h
    rw [kindTag?, if_pos hlength]
  | string5 =>
    obtain ⟨text, rfl, hlength⟩ := h
    rw [kindTag?, if_neg (Nat.not_lt_of_ge (Nat.le_of_eq hlength.symm))]
  | _ => obtain ⟨_, rfl⟩ := h; rfl

/-- The word has the tag of the value's kind and reads as just the value. -/
structure Holds (b : Boxed) (v : Value) : Prop where
  tagged : b.isTagged = (kindTag? v).isSome
  tag : b.tag? = kindTag? v
  value : b.unpack = .value v

theorem holds_tagged {t : Tag} {p : Nat} {v : Value} (h : p < payloadSize)
    (hkind : kindTag? v = some t) (hread : unpackTag ⟨p, h⟩ t = .value v) :
    Holds (Boxed.tagged t p) v where
  tagged := by rw [hkind, isTagged_tagged t h, Option.isSome_some]
  tag := (tag?_tagged t h).trans hkind.symm
  value := (unpack_tagged t h).trans hread

theorem holds_number (n : Number) : Holds (pack (.number n)) (.number n) := by
  by_cases hnan : n.isNaN = true
  · rw [pack, if_pos hnan, isNaN_number hnan]
    exact holds_tagged (by decide) rfl rfl
  · have huntagged := isTagged_number (Bool.eq_false_iff.mpr hnan)
    rw [pack, if_neg hnan]
    refine ⟨?_, ?_, ?_⟩
    · simp [huntagged, kindTag?, hnan]
    · simp [tag?, huntagged, kindTag?, hnan]
    · simp [unpack, unpack?, huntagged, Number.ofBits_bits]

theorem holds_inline (text : InlineText) :
    Holds (pack (.string (.inline text))) (.string (.inline text)) := by
  by_cases hlength : text.bytes.length < maxInlineLength
  · rw [pack, if_pos hlength]
    refine holds_tagged (inlineWord_lt hlength) ?_ (inlineOf_inlineWord text hlength)
    simp only [kindTag?, if_pos hlength]
  · rw [pack, if_neg hlength]
    refine holds_tagged (string5Word_lt text.short) ?_
      (congrArg Unpacked.value (string5Of_bytesWord text hlength))
    simp only [kindTag?, if_neg hlength]

/-- Every value is held by its word. -/
theorem holds_pack (v : Value) : Holds (pack v) v := by
  -- one case per kind: its payload has 48 bits, and the reader of its tag inverts the payload
  cases v with
  | number n => exact holds_number n
  | boolean b => cases b <;> exact holds_tagged (by decide) rfl rfl
  | null => exact holds_tagged (by decide) rfl rfl
  | undefined => exact holds_tagged (by decide) rfl rfl
  | string s =>
    cases s with
    | inline text => exact holds_inline text
    | owned offset => exact holds_tagged offset.isLt rfl rfl
    | foreign index => exact holds_tagged index.isLt rfl rfl
  | object id =>
    refine holds_tagged (cellWord_lt id.cell) rfl ?_
    rw [unpackTag, cellOf_cellWord]
  | array id =>
    refine holds_tagged (cellWord_lt id.cell) rfl ?_
    rw [unpackTag, cellOf_cellWord]
  | arrayBuffer id =>
    refine holds_tagged (cellWord_lt id.cell) rfl ?_
    rw [unpackTag, cellOf_cellWord]
  | dataView id =>
    refine holds_tagged (cellWord_lt id.cell) rfl ?_
    rw [unpackTag, cellOf_cellWord]
  | function offset => exact holds_tagged offset.isLt rfl rfl
  | native id =>
    refine holds_tagged (nativeWord_lt id) rfl ?_
    rw [unpackTag, UInt32.ofNat_toNat]
  | signature id =>
    refine holds_tagged (cellWord_lt id.cell) rfl ?_
    rw [unpackTag, cellOf_cellWord]
  | foreign address =>
    refine holds_tagged (addressWord_lt address) rfl ?_
    obtain ⟨word, canonical⟩ := address
    simp only [unpackTag, foreignOf, extendAddress_word ⟨word, canonical⟩]

@[simp] theorem tag?_pack (v : Value) : (pack v).tag? = kindTag? v := (holds_pack v).tag

@[simp] theorem unpack_pack (v : Value) : (pack v).unpack = .value v := (holds_pack v).value

theorem pack_injective {v w : Value} (h : pack v = pack w) : v = w := by
  have hunpack := congrArg unpack h
  rw [unpack_pack, unpack_pack] at hunpack
  exact Unpacked.value.inj hunpack

/-! ## Predicates -/

/-- What the predicates and accessors of words say is what one sees in the unpacked word. -/
structure Agrees (b : Boxed) : Prop where
  number : b.isNumber = true ↔ ∃ n, b.unpack = .value (.number n)
  nan : b.isNaN = true ↔ b.unpack = .value .nan
  undefined : b.isUndefined = true ↔ b.unpack = .value .undefined
  null : b.isNull = true ↔ b.unpack = .value .null
  boolean : b.isBoolean = true ↔ ∃ x, b.unpack = .value (.boolean x)
  string : b.isString = true ↔ ∃ s, b.unpack = .value (.string s)
  object : b.isObject = true ↔ ∃ id, b.unpack = .value (.object id)
  array : b.isArray = true ↔ ∃ id, b.unpack = .value (.array id)
  foreign : b.isForeign = true ↔ ∃ address, b.unpack = .value (.foreign address)
  function : b.isFunction = true ↔ ∃ offset, b.unpack = .value (.function offset)
  callable : b.isCallable = true ↔ (∃ offset, b.unpack = .value (.function offset)) ∨
    (∃ id, b.unpack = .value (.native id)) ∨ ∃ id, b.unpack = .value (.signature id)
  stringKind : ∀ kind, b.stringKind? = some kind ↔
    ∃ s, b.unpack = .value (.string s) ∧ s.kind = kind
  asNumber : ∀ n, b.asNumber? = some n ↔ b.unpack = .value (.number n)
  asBoolean : ∀ x, b.asBoolean? = some x ↔ b.unpack = .value (.boolean x)
  asAddress : ∀ address, b.asAddress? = some address ↔ b.unpack = .value (.foreign address)
  typeName : ∃ v, b.unpack = .value v ∧ b.typeName = v.typeName

theorem pack_beq_pack (v w : Value) : (pack v == pack w) = true ↔ v = w := by
  rw [beq_iff_eq]
  exact ⟨pack_injective, congrArg pack⟩

/-- Comparing the tag of a word is asking for the kind of its value. -/
theorem tag?_pack_beq (v : Value) (t : Tag) :
    ((pack v).tag? == some t) = true ↔ OfKind v t := by
  rw [beq_iff_eq, tag?_pack, kindTag?_eq_some_iff]

theorem isNumber_pack (v : Value) : (pack v).isNumber = true ↔ ∃ n, v = .number n := by
  rw [isNumber, Bool.or_eq_true, tag?_pack_beq, (holds_pack v).tagged]
  cases v with
  | number n =>
    refine iff_of_true ?_ ⟨n, rfl⟩
    by_cases hnan : n.isNaN = true
    · exact .inr (congrArg Value.number (isNaN_number hnan))
    · simp [kindTag?, hnan]
  | string s => cases s <;> simp [kindTag?, OfKind, Value.nan]
  | _ => simp [kindTag?, OfKind, Value.nan]

/-- The declared representation of a string is the one it has. -/
theorem stringKind?_pack (v : Value) (kind : StringKind) :
    (pack v).stringKind? = some kind ↔ ∃ s, v = .string s ∧ s.kind = kind := by
  rw [stringKind?, tag?_pack]
  cases v with
  | number n => cases hnan : n.isNaN <;> simp [kindTag?, hnan]
  | string s =>
    cases s with
    | inline text =>
      by_cases hlength : text.bytes.length < maxInlineLength <;>
        simp [kindTag?, StringRef.kind, hlength]
    | owned offset => simp [kindTag?, StringRef.kind]
    | foreign index => simp [kindTag?, StringRef.kind]
  | _ => simp [kindTag?]

theorem isString_pack (v : Value) : (pack v).isString = true ↔ ∃ s, v = .string s := by
  rw [isString, Option.isSome_iff_exists]
  constructor
  · rintro ⟨kind, h⟩
    obtain ⟨s, hs, -⟩ := (stringKind?_pack v kind).mp h
    exact ⟨s, hs⟩
  · rintro ⟨s, rfl⟩
    exact ⟨s.kind, (stringKind?_pack _ _).mpr ⟨s, rfl, rfl⟩⟩

theorem isCallable_pack (v : Value) : (pack v).isCallable = true ↔
    (∃ offset, v = .function offset) ∨ (∃ id, v = .native id) ∨ ∃ id, v = .signature id := by
  rw [isCallable, isFunction, Bool.or_eq_true, Bool.or_eq_true, or_assoc]
  exact or_congr (tag?_pack_beq v .function)
    (or_congr (tag?_pack_beq v .native) (tag?_pack_beq v .signature))

theorem agrees_pack (v : Value) : Agrees (pack v) := by
  constructor <;> simp only [unpack_pack, Unpacked.value.injEq]
  case number => exact isNumber_pack v
  case nan => exact pack_beq_pack v .nan
  case undefined => exact pack_beq_pack v .undefined
  case null => exact pack_beq_pack v .null
  case boolean => exact tag?_pack_beq v .boolean
  case string => exact isString_pack v
  case object => exact tag?_pack_beq v .object
  case array => exact tag?_pack_beq v .array
  case foreign => exact tag?_pack_beq v .foreign
  case function => exact tag?_pack_beq v .function
  case callable => exact isCallable_pack v
  case stringKind => exact stringKind?_pack v
  case asNumber =>
    intro n
    rw [asNumber?, unpack_pack]
    cases v <;> simp [Value.asNumber?]
  case asBoolean =>
    intro x
    rw [asBoolean?, unpack_pack]
    cases v <;> simp [Value.asBoolean?]
  case asAddress =>
    intro address
    rw [asAddress?, unpack_pack]
    cases v <;> simp [Value.asAddress?]
  case typeName => exact ⟨v, rfl, by rw [typeName, unpack_pack]⟩

end Boxed

/-! ## Constructors -/

/-- What a constructor of values is given: the bits of a double, bytes, a raw word or a handle. -/
inductive Content where
  | number (bits : UInt64)
  | boolean (b : Bool)
  | null
  | undefined
  | text (bytes : List UInt8)
  | owned (offset : UInt64)
  | borrowed (index : UInt64)
  | object (id : ObjectId)
  | array (id : ObjectId)
  | arrayBuffer (id : ObjectId)
  | dataView (id : ObjectId)
  | function (offset : UInt64)
  | native (id : NativeId)
  | signature (id : SignatureId)
  | address (word : UInt64)
  deriving DecidableEq

namespace Content

/-- The value that the constructor makes. Text is refused without a reason. -/
def value? : Content → Except (Option ValueError) Value
  | number bits => .ok (.number (.ofBits bits))
  | boolean b => .ok (.boolean b)
  | null => .ok .null
  | undefined => .ok .undefined
  | text bytes =>
    match Value.ofInline? bytes with
    | some v => .ok v
    | none => .error none
  | owned offset => (Value.ofOwned? offset).mapError some
  | borrowed index => (Value.ofForeignText? index).mapError some
  | object id => .ok (.object id)
  | array id => .ok (.array id)
  | arrayBuffer id => .ok (.arrayBuffer id)
  | dataView id => .ok (.dataView id)
  | function offset => (Value.ofFunction? offset).mapError some
  | native id => .ok (.native id)
  | signature id => .ok (.signature id)
  | address word => (Value.ofAddress? word).mapError some

/-- The word of the value that the constructor makes. -/
def box? (c : Content) : Except (Option ValueError) Boxed :=
  c.value?.map Boxed.pack

/-- Whether a word has room: 48 bits of payload, an address whose upper bits repeat bit 47, five
bytes of text. -/
def Fits : Content → Prop
  | text bytes => bytes.length ≤ 5
  | owned word | borrowed word | function word => word.toNat < payloadSize
  | address word =>
    word.toNat < payloadSize / 2 ∨ UInt64.size - payloadSize / 2 ≤ word.toNat
  | _ => True

instance : DecidablePred Fits
  | text bytes => inferInstanceAs (Decidable (bytes.length ≤ 5))
  | owned word | borrowed word | function word =>
    inferInstanceAs (Decidable (word.toNat < payloadSize))
  | address word => inferInstanceAs (Decidable
      (word.toNat < payloadSize / 2 ∨ UInt64.size - payloadSize / 2 ≤ word.toNat))
  | number _ | boolean _ | null | undefined | object _ | array _ | arrayBuffer _ | dataView _
  | native _ | signature _ => isTrue trivial

/-- What the constructor says to content that does not fit. -/
def refusal : Content → Option ValueError
  | owned word | borrowed word | function word => some (.payloadOverflow word)
  | address word => some (.nonCanonicalPointer word)
  | _ => none

/-- The content with the engine's NaN for every NaN. -/
def normal : Content → Content
  | number bits => number (if isNaNPattern bits then nanPattern else bits)
  | c => c

/-- The content that one sees in a value. -/
def ofValue : Value → Content
  | .number n => number n.bits
  | .boolean b => boolean b
  | .null => null
  | .undefined => undefined
  | .string (.inline t) => text t.bytes
  | .string (.owned offset) => owned (UInt64.ofNat offset.val)
  | .string (.foreign index) => borrowed (UInt64.ofNat index.val)
  | .object id => object id
  | .array id => array id
  | .arrayBuffer id => arrayBuffer id
  | .dataView id => dataView id
  | .function offset => function (UInt64.ofNat offset.val)
  | .native id => native id
  | .signature id => signature id
  | .foreign a => address a.word

/-- The content that one sees in an unpacked word. -/
def ofUnpacked? : Unpacked → Option Content
  | .value v => some (ofValue v)
  | .overlong _ _ => none

end Content

namespace Content

/-- A payload is taken just when the word has 48 bits, and it is the word. -/
theorem ofWord?_cases (word : UInt64) (make : Payload → Value) :
    (word.toNat < payloadSize ∧ ∃ p : Payload, UInt64.ofNat p.val = word ∧
      ((Payload.ofWord? word).map make).mapError some = .ok (make p)) ∨
    (¬ word.toNat < payloadSize ∧
      ((Payload.ofWord? word).map make).mapError some = .error (some (.payloadOverflow word))) := by
  unfold Payload.ofWord?
  by_cases h : word.toNat < payloadSize
  · rw [dif_pos h]
    exact .inl ⟨h, ⟨word.toNat, h⟩, UInt64.ofNat_toNat, rfl⟩
  · rw [dif_neg h]
    exact .inr ⟨h, rfl⟩

theorem ofWord?_payload (p : Payload) : Payload.ofWord? (UInt64.ofNat p.val) = .ok p := by
  have hp : (UInt64.ofNat p.val).toNat = p.val := by
    rw [UInt64.toNat_ofNat']
    exact Nat.mod_eq_of_lt (Nat.lt_trans p.isLt (by decide))
  have hlt : (UInt64.ofNat p.val).toNat < payloadSize := by
    rw [hp]
    exact p.isLt
  unfold Payload.ofWord?
  rw [dif_pos hlt]
  exact congrArg Except.ok (Fin.ext hp)

/-- A constructor takes just what fits, and its value shows what it was given. -/
theorem value?_cases (c : Content) :
    (c.Fits ∧ ∃ v, c.value? = .ok v ∧ ofValue v = c.normal) ∨
      (¬ c.Fits ∧ c.value? = .error c.refusal) := by
  cases c with
  | number bits =>
    refine .inl ⟨trivial, _, rfl, ?_⟩
    by_cases h : isNaNPattern bits = true <;> simp [ofValue, normal, Number.ofBits, h]
  | text bytes =>
    by_cases h : bytes.length ≤ maxInlineLength
    · refine .inl ⟨h, .string (.inline ⟨bytes, h⟩), ?_, rfl⟩
      simp [value?, Value.ofInline?, InlineText.ofBytes?, h]
    · refine .inr ⟨h, ?_⟩
      simp [value?, Value.ofInline?, InlineText.ofBytes?, h, refusal]
  | owned word =>
    obtain ⟨h, p, hp, hmade⟩ | refused := ofWord?_cases word fun p => .string (.owned p)
    · exact .inl ⟨h, _, hmade, congrArg owned hp⟩
    · exact .inr refused
  | borrowed word =>
    obtain ⟨h, p, hp, hmade⟩ | refused := ofWord?_cases word fun p => .string (.foreign p)
    · exact .inl ⟨h, _, hmade, congrArg borrowed hp⟩
    · exact .inr refused
  | function word =>
    obtain ⟨h, p, hp, hmade⟩ | refused := ofWord?_cases word .function
    · exact .inl ⟨h, _, hmade, congrArg function hp⟩
    · exact .inr refused
  | address word =>
    have hfits : (address word).Fits ↔ isCanonicalAddress word = true :=
      (Boxed.isCanonicalAddress_iff word).symm
    rw [hfits]
    by_cases h : isCanonicalAddress word = true
    · refine .inl ⟨h, .foreign ⟨word, h⟩, ?_, rfl⟩
      rw [value?, Value.ofAddress?, Address.ofWord?, dif_pos h]
      rfl
    · refine .inr ⟨h, ?_⟩
      rw [value?, Value.ofAddress?, Address.ofWord?, dif_neg h]
      rfl
  | _ => exact .inl ⟨trivial, _, rfl, rfl⟩

/-- Every value is what a constructor makes of the content one sees in it. -/
theorem value?_ofValue (v : Value) : (ofValue v).value? = .ok v := by
  cases v with
  | number n => rw [ofValue, value?, Number.ofBits_bits]
  | string s =>
    cases s with
    | inline t => simp [ofValue, value?, Value.ofInline?, InlineText.ofBytes?, t.short]
    | owned offset => rw [ofValue, value?, Value.ofOwned?, ofWord?_payload]; rfl
    | foreign index => rw [ofValue, value?, Value.ofForeignText?, ofWord?_payload]; rfl
  | function offset => rw [ofValue, value?, Value.ofFunction?, ofWord?_payload]; rfl
  | foreign a =>
    rw [ofValue, value?, Value.ofAddress?, Address.ofWord?, dif_pos a.canonical]
    rfl
  | _ => rfl

theorem ofValue_injective {v w : Value} (h : ofValue v = ofValue w) : v = w := by
  have hmade := congrArg value? h
  rw [value?_ofValue, value?_ofValue] at hmade
  exact Except.ok.inj hmade

/-- A constructor gives a word just for content that fits, and the word holds a value in which one
sees that content. -/
theorem box?_cases (c : Content) :
    (c.Fits ∧ ∃ v, c.box? = .ok (Boxed.pack v) ∧ ofValue v = c.normal) ∨
      (¬ c.Fits ∧ c.box? = .error c.refusal) := by
  obtain ⟨h, v, hvalue, hshown⟩ | ⟨h, hvalue⟩ := value?_cases c
  · exact .inl ⟨h, v, by rw [box?, hvalue]; rfl, hshown⟩
  · exact .inr ⟨h, by rw [box?, hvalue]; rfl⟩

/-- Boxing is lossless and unambiguous. What fits gets a word, which unpacks to what was given, with
the engine's NaN for every NaN; the predicates of words say what is seen in the unpacked word; and
other content has the same bits only if it is the same up to the choice of a NaN. What does not fit
is refused. -/
theorem boxing_lossless (c : Content) :
    (c.Fits → ∃ b, c.box? = .ok b ∧ ofUnpacked? b.unpack = some c.normal ∧ b.Agrees ∧
      ∀ (d : Content) (b' : Boxed), d.box? = .ok b' → (b'.bits = b.bits ↔ d.normal = c.normal)) ∧
    (¬ c.Fits → c.box? = .error c.refusal) := by
  obtain ⟨h, v, hbox, hshown⟩ | ⟨h, hbox⟩ := box?_cases c
  · refine ⟨fun _ => ⟨Boxed.pack v, hbox, ?_, Boxed.agrees_pack v, ?_⟩, absurd h⟩
    · rw [Boxed.unpack_pack, ofUnpacked?, hshown]
    · intro d b' hd
      obtain ⟨-, w, hw, hseen⟩ | ⟨-, hw⟩ := box?_cases d
      · rw [hw] at hd
        cases hd
        rw [← hseen, ← hshown]
        constructor
        · intro hbits
          exact congrArg ofValue (Boxed.pack_injective (congrArg Boxed.mk hbits))
        · intro heq
          rw [ofValue_injective heq]
      · rw [hw] at hd
        cases hd
  · exact ⟨fun hfits => absurd hfits h, fun _ => hbox⟩

theorem boxing_lossless_hello :
    (∃ b, (text [104, 101, 108, 108, 111]).box? = .ok b ∧
      ofUnpacked? b.unpack = some (text [104, 101, 108, 108, 111]) ∧ b.Agrees ∧
      ∀ (d : Content) (b' : Boxed), d.box? = .ok b' →
        (b'.bits = b.bits ↔ d.normal = text [104, 101, 108, 108, 111])) ∧
    (address 0x800000000000).box? = .error (some (.nonCanonicalPointer 0x800000000000)) :=
  ⟨(boxing_lossless (text [104, 101, 108, 108, 111])).1 (by decide),
    (boxing_lossless (address 0x800000000000)).2 (by decide)⟩

end Content

end ScriptEngine
