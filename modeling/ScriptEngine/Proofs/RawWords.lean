import Mathlib.Tactic.IntervalCases
import ScriptEngine.Proofs.Boxed
/-!
Words that were not made by a constructor.

A raw word is taken for its tag alone (`ofBits?_spec`), and a tag says less than the word of a value: some tags go with
a single payload or two, and a string of up to four bytes declares its length. `Regular` is what a word has to be beyond
that, and it is just what makes it a word of which everything can be asked (`usable_iff_regular`).
-/

namespace ScriptEngine

namespace Boxed

variable {b : Boxed} {t : Tag}

/-! ## Tags -/

theorem of_tag? (h : b.tag? = some t) : b.isTagged = true ∧ b.bits >>> 48 = t.code := by
  unfold tag? at h
  split at h
  · rename_i htagged
    have hcode : (t.code == b.bits >>> 48) = true := by
      rw [Tag.ofCode?] at h
      exact List.find?_some (p := fun t : Tag => t.code == b.bits >>> 48) h
    exact ⟨htagged, (beq_iff_eq.mp hcode).symm⟩
  · cases h

/-- A word is its tag and its payload. -/
theorem eq_tagged_iff {payload : Nat} (hpayload : payload < payloadSize) :
    b = tagged t payload ↔ b.tag? = some t ∧ b.payload.val = payload := by
  constructor
  · rintro rfl
    exact ⟨tag?_tagged t hpayload, by rw [payload_tagged t hpayload]⟩
  · rintro ⟨htag, rfl⟩
    have hupper := congrArg UInt64.toNat (of_tag? htag).2
    rw [UInt64.toNat_shiftRight, Nat.shiftRight_eq_div_pow, show (48 : UInt64).toNat % 64 = 48 from rfl] at hupper
    have hlower : b.payload.val = b.bits.toNat % payloadSize := rfl
    have hbits : b.bits = (tagged t b.payload.val).bits := by
      apply UInt64.toNat_inj.mp
      rw [toNat_bits_tagged t hpayload, ← hupper, hlower]
      unfold payloadSize
      omega
    exact congrArg Boxed.mk hbits

theorem unpack_of_tag? (h : b.tag? = some t) : b.unpack = unpackTag b.payload t := by
  unfold unpack unpack?
  rw [if_pos (of_tag? h).1, h]
  rfl

theorem unpack_of_untagged (h : b.isTagged = false) : b.unpack = .value (.number (.ofBits b.bits)) := by
  simp [unpack, unpack?, h]

theorem tag?_of_untagged (h : b.isTagged = false) : b.tag? = none := by
  simp [tag?, h]

/-! ## Raw words that are taken -/

/-- Whether a constructor makes words with the upper bits. -/
def Constructed (upper : UInt64) : Prop :=
  ∃ (c : Content) (b : Boxed), c.box? = .ok b ∧ b.isTagged = true ∧ b.bits >>> 48 = upper

/-- There is a value of each kind. -/
theorem exists_kindTag? (t : Tag) : ∃ v, kindTag? v = some t := by
  simp only [kindTag?_eq_some_iff]
  cases t with
  | nan | null | undefined => exact ⟨_, rfl⟩
  | stringInline => exact ⟨_, ⟨[], by decide⟩, rfl, by decide⟩
  | string5 => exact ⟨_, ⟨[0, 0, 0, 0, 0], by decide⟩, rfl, rfl⟩
  | boolean => exact ⟨_, false, rfl⟩
  | foreign => exact ⟨_, ⟨0, by decide⟩, rfl⟩
  | _ => exact ⟨_, default, rfl⟩

/-- The tags in use are those that constructors use. -/
theorem constructed_iff (upper : UInt64) : Constructed upper ↔ ∃ t : Tag, t.code = upper := by
  constructor
  · rintro ⟨c, b, hbox, htagged, hupper⟩
    obtain ⟨-, v, hv, -⟩ | ⟨-, hrefused⟩ := Content.box?_cases c
    · rw [hv] at hbox
      cases hbox
      rw [(holds_pack v).tagged] at htagged
      obtain ⟨t, ht⟩ := Option.isSome_iff_exists.mp htagged
      exact ⟨t, (of_tag? ((tag?_pack v).trans ht)).2.symm.trans hupper⟩
    · rw [hrefused] at hbox
      cases hbox
  · rintro ⟨t, rfl⟩
    obtain ⟨v, hv⟩ := exists_kindTag? t
    have htag : (pack v).tag? = some t := (tag?_pack v).trans hv
    refine ⟨Content.ofValue v, pack v, ?_, of_tag? htag⟩
    rw [Content.box?, Content.value?_ofValue]
    rfl

theorem isSome_ofCode?_iff (upper : UInt64) : (Tag.ofCode? upper).isSome = true ↔ ∃ t : Tag, t.code = upper := by
  constructor
  · intro h
    obtain ⟨t, -, ht⟩ := List.find?_isSome.mp h
    exact ⟨t, beq_iff_eq.mp ht⟩
  · rintro ⟨t, rfl⟩
    rw [Tag.ofCode?_code]
    rfl

/-- A raw word is taken if it is a double or if its tag is in use. -/
theorem isSome_unpack?_iff (b : Boxed) : b.unpack?.isSome = true ↔ (b.isTagged = true → b.tag?.isSome = true) := by
  unfold unpack?
  split
  · rename_i h
    simp [h]
  · rename_i h
    simp [h]

theorem ofBits?_cases (bits : UInt64) :
    ((isTagged ⟨bits⟩ = true → Constructed (bits >>> 48)) ∧ ofBits? bits = .ok ⟨bits⟩)
      ∨ (¬ (isTagged ⟨bits⟩ = true → Constructed (bits >>> 48)) ∧ ofBits? bits = .error (.unknownTag bits)) := by
  have htaken : (unpack? ⟨bits⟩).isSome = true ↔ (isTagged ⟨bits⟩ = true → Constructed (bits >>> 48)) := by
    rw [isSome_unpack?_iff, constructed_iff, ← isSome_ofCode?_iff]
    refine imp_congr_right fun htagged => ?_
    rw [tag?, if_pos htagged]
  rw [← htaken, ofBits?]
  split
  · rename_i h
    exact .inl ⟨h, rfl⟩
  · rename_i h
    exact .inr ⟨h, rfl⟩

/-! ## Words of which everything can be asked -/

/-- The word holds a value, and the questions for single values are answered as the value says. -/
structure Usable (b : Boxed) : Prop where
  value : ∃ v, b.unpack = .value v
  nan : b.isNaN = true ↔ b.unpack = .value .nan
  null : b.isNull = true ↔ b.unpack = .value .null
  undefined : b.isUndefined = true ↔ b.unpack = .value .undefined
  boolean : ∀ x, b = pack (.boolean x) ↔ b.unpack = .value (.boolean x)

/-- The payload is one that goes with the tag: nothing for a single value, nothing above the lowest bit for a boolean,
the length of a string that is there. A double is no NaN. -/
def Regular (b : Boxed) : Prop :=
  match b.tag? with
  | some .nan | some .null | some .undefined => b.payload.val = 0
  | some .boolean => b.payload.val ≤ 1
  | some .stringInline => b.payload.val % 256 ≤ maxInlineLength
  | some _ => True
  | none => isNaNPattern b.bits = false

section Tagged

variable {v : Value} {single : Tag}

/-- A word holds a value unless it declares more bytes than it has. -/
theorem exists_unpack_iff (h : b.tag? = some t) :
    (∃ v, b.unpack = .value v) ↔ (t = .stringInline → b.payload.val % 256 ≤ maxInlineLength) := by
  rw [unpack_of_tag? h]
  cases t with
  | stringInline =>
    simp only [unpackTag, inlineOf]
    split <;> simp_all
  | _ => simp [unpackTag]

/-- The question for a single value is answered by all bits, and the value is read off the tag. -/
theorem single_iff (h : b.tag? = some t) (hsingle : ∀ payload t, unpackTag payload t = .value v ↔ t = single) :
    ((b == tagged single 0) = true ↔ b.unpack = .value v) ↔ (t = single → b.payload.val = 0) := by
  rw [beq_iff_eq, eq_tagged_iff (by decide), h, unpack_of_tag? h, hsingle, Option.some.injEq]
  exact ⟨fun hsame htag => (hsame.mpr htag).2, fun hpayload => ⟨And.left, fun htag => ⟨htag, hpayload htag⟩⟩⟩

theorem inlineOf_eq_iff (payload : Payload) :
    inlineOf payload = .value v → ∃ text, v = .string (.inline text) := by
  unfold inlineOf
  dsimp only
  split
  · rintro h
    cases h
    exact ⟨_, rfl⟩
  · simp

/-! Which tag a value is read off. -/

theorem unpackTag_eq_nan_iff (payload : Payload) (t : Tag) : unpackTag payload t = .value .nan ↔ t = .nan := by
  cases t with
  | stringInline => exact iff_of_false (fun h => by cases (inlineOf_eq_iff payload h).choose_spec) (by simp)
  | _ => simp [unpackTag, Value.nan, foreignOf, string5Of]

theorem unpackTag_eq_null_iff (payload : Payload) (t : Tag) : unpackTag payload t = .value .null ↔ t = .null := by
  cases t with
  | stringInline => exact iff_of_false (fun h => by cases (inlineOf_eq_iff payload h).choose_spec) (by simp)
  | _ => simp [unpackTag, Value.nan, foreignOf, string5Of]

theorem unpackTag_eq_undefined_iff (payload : Payload) (t : Tag) :
    unpackTag payload t = .value .undefined ↔ t = .undefined := by
  cases t with
  | stringInline => exact iff_of_false (fun h => by cases (inlineOf_eq_iff payload h).choose_spec) (by simp)
  | _ => simp [unpackTag, Value.nan, foreignOf, string5Of]

theorem unpackTag_eq_boolean_iff (payload : Payload) (t : Tag) (x : Bool) :
    unpackTag payload t = .value (.boolean x) ↔ t = .boolean ∧ (payload.val % 2 == 1) = x := by
  cases t with
  | stringInline => exact iff_of_false (fun h => by cases (inlineOf_eq_iff payload h).choose_spec) (by simp)
  | _ => simp [unpackTag, Value.nan, foreignOf, string5Of]

/-- A boolean is read off the lowest bit, and its word has no other. -/
theorem boolean_iff (h : b.tag? = some t) :
    (∀ x, b = pack (.boolean x) ↔ b.unpack = .value (.boolean x)) ↔ (t = .boolean → b.payload.val ≤ 1) := by
  have hpack (x : Bool) : b = pack (.boolean x) ↔ t = .boolean ∧ b.payload.val = if x then 1 else 0 := by
    rw [pack, eq_tagged_iff (by cases x <;> decide), h, Option.some.injEq]
  simp only [hpack, unpack_of_tag? h, unpackTag_eq_boolean_iff]
  constructor
  · rintro hsame rfl
    have hpayload := ((hsame (b.payload.val % 2 == 1)).mpr ⟨rfl, rfl⟩).2
    rw [hpayload]
    split <;> decide
  · intro hpayload x
    refine and_congr_right fun htag => ?_
    have hsmall := hpayload htag
    generalize b.payload.val = payload at hsmall
    interval_cases payload <;> cases x <;> decide

end Tagged

theorem ofBits_eq_nan_iff (bits : UInt64) : Number.ofBits bits = .nan ↔ isNaNPattern bits = true := by
  constructor
  · intro h
    by_contra hpattern
    have hbits : (Number.ofBits bits).bits = bits := by rw [Number.ofBits, dif_neg hpattern]
    rw [h] at hbits
    rw [← hbits] at hpattern
    exact hpattern (by decide)
  · intro h
    rw [Number.ofBits, dif_pos h]
    rfl

/-- Everything can be asked of a word that is taken just if it is regular. -/
theorem usable_iff_regular (h : b.isTagged = true → b.tag?.isSome = true) : Usable b ↔ Regular b := by
  cases htagged : b.isTagged with
  | false =>
    have hunpack := unpack_of_untagged htagged
    have hne {t : Tag} {payload : Nat} (hpayload : payload < payloadSize) : b ≠ tagged t payload := by
      rintro rfl
      rw [isTagged_tagged t hpayload] at htagged
      cases htagged
    have hnot {t : Tag} : ¬ (b == tagged t 0) = true := fun hsame => hne (by decide) (beq_iff_eq.mp hsame)
    rw [Regular, tag?_of_untagged htagged]
    dsimp only
    rw [← Bool.not_eq_true, ← ofBits_eq_nan_iff]
    constructor
    · intro h hnan
      exact hnot (h.nan.mpr (by rw [hunpack, hnan]; rfl))
    · intro hnan
      refine ⟨⟨_, hunpack⟩, iff_of_false hnot ?_, iff_of_false hnot ?_, iff_of_false hnot ?_, fun x => iff_of_false ?_ ?_⟩
      · rw [hunpack]
        exact fun hsame => hnan (by simpa [Value.nan] using hsame)
      · rw [hunpack]
        simp
      · rw [hunpack]
        simp
      · exact hne (by cases x <;> decide)
      · rw [hunpack]
        simp
  | true =>
    obtain ⟨t, ht⟩ := Option.isSome_iff_exists.mp (h htagged)
    have hiff : Usable b ↔ (t = .stringInline → b.payload.val % 256 ≤ maxInlineLength)
        ∧ (t = .nan → b.payload.val = 0) ∧ (t = .null → b.payload.val = 0) ∧ (t = .undefined → b.payload.val = 0)
        ∧ (t = .boolean → b.payload.val ≤ 1) := by
      rw [← exists_unpack_iff ht, ← single_iff ht unpackTag_eq_nan_iff, ← single_iff ht unpackTag_eq_null_iff,
        ← single_iff ht unpackTag_eq_undefined_iff, ← boolean_iff ht]
      constructor
      · intro h
        exact ⟨h.value, h.nan, h.null, h.undefined, h.boolean⟩
      · rintro ⟨value, nan, null, undefined, boolean⟩
        exact ⟨value, nan, null, undefined, boolean⟩
    rw [hiff, Regular, ht]
    cases t <;> simp

/-- A raw word is taken if it is a double or if a constructor makes words with its upper bits, and refused otherwise.
Everything can be asked of a word that is taken just if it is regular. -/
theorem ofBits?_spec (bits : UInt64) :
    (ofBits? bits = .ok ⟨bits⟩ ↔ (isTagged ⟨bits⟩ = true → Constructed (bits >>> 48)))
      ∧ (¬ (isTagged ⟨bits⟩ = true → Constructed (bits >>> 48)) → ofBits? bits = .error (.unknownTag bits))
      ∧ (ofBits? bits = .ok ⟨bits⟩ → (Usable ⟨bits⟩ ↔ Regular ⟨bits⟩)) := by
  have htaken (h : ofBits? bits = .ok ⟨bits⟩) : (unpack? ⟨bits⟩).isSome = true := by
    unfold ofBits? at h
    split at h
    · assumption
    · cases h
  obtain ⟨hcode, hok⟩ | ⟨hcode, hrefused⟩ := ofBits?_cases bits
  · exact ⟨iff_of_true hok hcode, absurd hcode,
      fun _ => usable_iff_regular ((isSome_unpack?_iff ⟨bits⟩).mp (htaken hok))⟩
  · have hnot : ofBits? bits ≠ .ok ⟨bits⟩ := by
      rw [hrefused]
      simp
    exact ⟨iff_of_false hnot hcode, fun _ => hrefused, fun hok => absurd hok hnot⟩

theorem ofBits?_spec_null : Usable ⟨0xFFFF000000000000⟩ :=
  ((ofBits?_spec 0xFFFF000000000000).2.2 rfl).mpr rfl

/-- Words that are taken: a null that is not the null, and text of 255 bytes of which five are there. -/
theorem taken_not_regular :
    ofBits? 0xFFFF000000000001 = .ok ⟨0xFFFF000000000001⟩
      ∧ unpack ⟨0xFFFF000000000001⟩ = .value .null ∧ isNull ⟨0xFFFF000000000001⟩ = false
      ∧ ofBits? 0xFFF60000000000FF = .ok ⟨0xFFF60000000000FF⟩
      ∧ unpack ⟨0xFFF60000000000FF⟩ = .overlong 255 [0, 0, 0, 0, 0] :=
  ⟨rfl, rfl, rfl, rfl, rfl⟩

end Boxed

end ScriptEngine
