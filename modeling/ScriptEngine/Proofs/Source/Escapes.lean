import Mathlib.Data.List.Induction
import Mathlib.Data.List.Infix
import ScriptEngine.Source.Escape
/-!
What the body of a string literal stands for.

`Decodes` is the table of escapes, read from the left: a letter for a byte, `x` with two digits for a byte, `u` with
four digits for a character, and a backslash that begins none of these for itself. It leaves open what counts as digits.
With hexadecimal digits alone (`HexDigits`) it is the documented table. The reader of numbers also takes a plus sign in
front of them (`HexNumber`), and that is the table that `unescape` follows on every byte string; on those without a
plus sign right behind `\x` or `\u` the two are the same (`unescape_eq_iff`).
-/

namespace ScriptEngine.Source

/-! ## The table -/

/-- `b` is the digit that stands for `v`, in small or in capital letters. -/
def HexDigit (b : UInt8) (v : Nat) : Prop :=
  (Text.asciiBytes "0123456789abcdef")[v]? = some b ∨ (Text.asciiBytes "0123456789ABCDEF")[v]? = some b

/-- The digits spell the number, the most significant one first. -/
inductive HexDigits : List UInt8 → Nat → Prop
  | nil : HexDigits [] 0
  | snoc {digits : List UInt8} {b : UInt8} {n v : Nat} :
      HexDigits digits n → HexDigit b v → HexDigits (digits ++ [b]) (16 * n + v)

/-- Digits, or a plus sign and digits. -/
def HexNumber (bytes : List UInt8) (n : Nat) : Prop :=
  HexDigits bytes n ∨ ∃ digits, digits ≠ [] ∧ bytes = 0x2B :: digits ∧ HexDigits digits n

/-- The letters that stand for a byte: `n`, `t`, `r`, `b`, `f`, `v`, `0`, the backslash and the quotes. -/
def escapeLetters : List (UInt8 × UInt8) :=
  [(0x6E, 0x0A), (0x74, 0x09), (0x72, 0x0D), (0x62, 0x08), (0x66, 0x0C), (0x76, 0x0B), (0x30, 0x00), (0x5C, 0x5C),
    (0x27, 0x27), (0x22, 0x22)]

/-- Behind a backslash, `body` is a whole escape, and it stands for `out`. -/
inductive Escape (Reads : List UInt8 → Nat → Prop) : List UInt8 → List UInt8 → Prop
  | letter {b v : UInt8} : (b, v) ∈ escapeLetters → Escape Reads [b] [v]
  | byte {digits : List UInt8} {v : Nat} :
      digits.length = 2 → Reads digits v → Escape Reads (0x78 :: digits) [UInt8.ofNat v]
  | char {digits : List UInt8} {c : Char} :
      digits.length = 4 → Reads digits c.toNat → Escape Reads (0x75 :: digits) (Text.bytesOf (String.singleton c))

/-- `bytes` stand for `out`, from the left to the right. -/
inductive Decodes (Reads : List UInt8 → Nat → Prop) : List UInt8 → List UInt8 → Prop
  | nil : Decodes Reads [] []
  | plain {b : UInt8} {rest out : List UInt8} :
      b ≠ 0x5C → Decodes Reads rest out → Decodes Reads (b :: rest) (b :: out)
  | escape {body here rest out : List UInt8} :
      Escape Reads body here → Decodes Reads rest out → Decodes Reads (0x5C :: (body ++ rest)) (here ++ out)
  | kept {rest out : List UInt8} :
      (∀ body here, Escape Reads body here → ¬ body <+: rest) → Decodes Reads rest out →
      Decodes Reads (0x5C :: rest) (0x5C :: out)

/-! ## One reading -/

section Unique

variable {Reads : List UInt8 → Nat → Prop}

/-- No letter of the table begins an escape with digits. -/
theorem letter_not_digits {b v : UInt8} (h : (b, v) ∈ escapeLetters) : b ≠ 0x78 ∧ b ≠ 0x75 := by
  have hall : escapeLetters.all (fun p => p.1 != 0x78 && p.1 != 0x75) = true := by decide
  simpa using List.all_eq_true.mp hall _ h

/-- A letter of the table stands for one byte. -/
theorem letter_unique {b v w : UInt8} (hv : (b, v) ∈ escapeLetters) (hw : (b, w) ∈ escapeLetters) : v = w := by
  have hall : escapeLetters.all (fun p => escapeLetters.all fun q => p.1 != q.1 || p.2 == q.2) = true := by decide
  simpa using List.all_eq_true.mp (List.all_eq_true.mp hall _ hv) _ hw

/-- No two escapes begin at one place. -/
theorem Escape.unique (hreads : ∀ digits m n, Reads digits m → Reads digits n → m = n)
    {body body' here here' rest : List UInt8} (h : Escape Reads body here) (h' : Escape Reads body' here')
    (hbody : body <+: rest) (hbody' : body' <+: rest) : body = body' ∧ here = here' := by
  have hbegins : body <+: body' ∨ body' <+: body := List.prefix_or_prefix_of_prefix hbody hbody'
  have hlength : body.length = body'.length → body = body' := fun hlen => by
    rcases hbegins with hbegins | hbegins
    · exact hbegins.eq_of_length hlen
    · exact (hbegins.eq_of_length hlen.symm).symm
  have hhead : body.head? = body'.head? := by
    rcases hbegins with ⟨tail, rfl⟩ | ⟨tail, rfl⟩
    · cases h <;> rfl
    · cases h' <;> rfl
  cases h with
  | letter hb =>
    cases h' with
    | letter hb' =>
      obtain rfl : _ = _ := Option.some.inj hhead
      exact ⟨rfl, congrArg (fun v => [v]) (letter_unique hb hb')⟩
    | byte => exact absurd (Option.some.inj hhead) (letter_not_digits hb).1
    | char => exact absurd (Option.some.inj hhead) (letter_not_digits hb).2
  | byte hlen hread =>
    cases h' with
    | letter hb' => exact absurd (Option.some.inj hhead).symm (letter_not_digits hb').1
    | byte hlen' hread' =>
      obtain ⟨-, rfl⟩ := List.cons.inj (hlength (by rw [List.length_cons, List.length_cons, hlen, hlen']))
      exact ⟨rfl, by rw [hreads _ _ _ hread hread']⟩
    | char => exact absurd (Option.some.inj hhead) (by decide)
  | char hlen hread =>
    cases h' with
    | letter hb' => exact absurd (Option.some.inj hhead).symm (letter_not_digits hb').2
    | byte => exact absurd (Option.some.inj hhead) (by decide)
    | char hlen' hread' =>
      obtain ⟨-, rfl⟩ := List.cons.inj (hlength (by rw [List.length_cons, List.length_cons, hlen, hlen']))
      exact ⟨rfl, by rw [Char.toNat_inj.mp (hreads _ _ _ hread hread')]⟩

/-- Bytes stand for one text. -/
theorem Decodes.unique (hreads : ∀ digits m n, Reads digits m → Reads digits n → m = n) {bytes out out' : List UInt8}
    (h : Decodes Reads bytes out) (h' : Decodes Reads bytes out') : out = out' := by
  induction h generalizing out' with
  | nil =>
    cases h'
    rfl
  | plain hb _ ih =>
    cases h' with
    | plain _ hrest => rw [ih hrest]
    | escape => exact absurd rfl hb
    | kept => exact absurd rfl hb
  | @escape body here rest out hescape _ ih =>
    generalize hbytes : (0x5C :: (body ++ rest) : List UInt8) = bytes at h'
    cases h' with
    | nil => cases hbytes
    | plain hb => exact absurd (List.cons.inj hbytes).1.symm hb
    | @escape body' here' rest' out' hescape' hrest =>
      obtain hbytes := (List.cons.inj hbytes).2
      obtain ⟨rfl, rfl⟩ := hescape.unique hreads hescape' ⟨rest, rfl⟩ ⟨rest', hbytes.symm⟩
      obtain rfl := List.append_cancel_left hbytes
      rw [ih hrest]
    | kept hnone =>
      obtain rfl := (List.cons.inj hbytes).2
      exact absurd ⟨rest, rfl⟩ (hnone _ _ hescape)
  | @kept rest out hnone _ ih =>
    generalize hbytes : (0x5C :: rest : List UInt8) = bytes at h'
    cases h' with
    | nil => cases hbytes
    | plain hb => exact absurd (List.cons.inj hbytes).1.symm hb
    | escape hescape' =>
      obtain rfl := (List.cons.inj hbytes).2
      exact absurd ⟨_, rfl⟩ (hnone _ _ hescape')
    | kept _ hrest =>
      obtain rfl := (List.cons.inj hbytes).2
      rw [ih hrest]

/-- Two readings of digits that agree on the escapes of a text agree on what it stands for. -/
theorem Decodes.of_agree {Other : List UInt8 → Nat → Prop} {bytes out : List UInt8} (h : Decodes Reads bytes out)
    (hagree : ∀ rest body here, (0x5C :: rest) <:+ bytes → body <+: rest →
      (Escape Reads body here ↔ Escape Other body here)) : Decodes Other bytes out := by
  induction h with
  | nil => exact .nil
  | @plain b rest _ hb _ ih =>
    exact .plain hb (ih fun more body here hsuffix => hagree more body here (hsuffix.trans (List.suffix_cons b rest)))
  | @escape body here rest _ hescape _ ih =>
    have hrest : rest <:+ 0x5C :: (body ++ rest) := (List.suffix_append body rest).trans (List.suffix_cons _ _)
    refine .escape ((hagree _ body here (List.suffix_refl _) ⟨rest, rfl⟩).mp hescape) (ih ?_)
    exact fun more body' here' hsuffix => hagree more body' here' (hsuffix.trans hrest)
  | @kept rest _ hnone _ ih =>
    refine .kept (fun body here hescape hbody => ?_) (ih fun more body here hsuffix =>
      hagree more body here (hsuffix.trans (List.suffix_cons _ _)))
    exact hnone body here ((hagree rest body here (List.suffix_refl _) hbody).mpr hescape) hbody

end Unique

/-! ## Digits -/

/-- The value of a digit is the one that the table gives. -/
theorem hexValue?_eq_some (b : UInt8) (v : Nat) : hexValue? b = some v ↔ HexDigit b v := by
  have hsmall : HexDigit b v → v < 16 := by
    rintro (h | h) <;> exact (List.getElem?_eq_some_iff.mp h).1
  have htable : ∀ v < 16, ∀ n < 256, hexValue? (UInt8.ofNat n) = some v ↔
      ((Text.asciiBytes "0123456789abcdef")[v]? = some (UInt8.ofNat n)
        ∨ (Text.asciiBytes "0123456789ABCDEF")[v]? = some (UInt8.ofNat n)) := by
    decide +kernel
  have hvalue : hexValue? b = some v → v < 16 := by
    intro h
    simp only [hexValue?, UInt8.le_iff_toNat_le, Bool.and_eq_true, decide_eq_true_eq, UInt8.toNat_ofNat] at h
    split_ifs at h <;> simp only [Option.some.injEq] at h <;> omega
  by_cases hv : v < 16
  · have := htable v hv b.toNat b.toNat_lt
    rwa [UInt8.ofNat_toNat] at this
  · exact ⟨fun h => absurd (hvalue h) hv, fun h => absurd (hsmall h) hv⟩

/-- A digit has one value. -/
theorem HexDigit.unique {b : UInt8} {v w : Nat} (hv : HexDigit b v) (hw : HexDigit b w) : v = w :=
  Option.some.inj (((hexValue?_eq_some b v).mpr hv).symm.trans ((hexValue?_eq_some b w).mpr hw))

/-- The value of one more digit. -/
theorem hexDigitsValue?_snoc (digits : List UInt8) (b : UInt8) : hexDigitsValue? (digits ++ [b])
    = (hexDigitsValue? digits).bind fun n => (hexValue? b).map fun v => n * 16 + v := by
  simp only [hexDigitsValue?, List.foldlM_append, List.foldlM_cons, List.foldlM_nil, bind_pure]
  rfl

/-- The number that digits spell. -/
theorem hexDigitsValue?_eq_some (digits : List UInt8) (n : Nat) :
    hexDigitsValue? digits = some n ↔ HexDigits digits n := by
  constructor
  · induction digits using List.reverseRecOn generalizing n with
    | nil =>
      intro h
      obtain rfl := Option.some.inj h
      exact .nil
    | append_singleton digits b ih =>
      intro h
      rw [hexDigitsValue?_snoc] at h
      obtain ⟨m, hm, h⟩ := Option.bind_eq_some_iff.mp h
      obtain ⟨v, hv, rfl⟩ := Option.map_eq_some_iff.mp h
      rw [Nat.mul_comm]
      exact .snoc (ih m hm) ((hexValue?_eq_some b v).mp hv)
  · intro h
    induction h with
    | nil => rfl
    | @snoc digits b n v _ hv ih =>
      rw [hexDigitsValue?_snoc, ih, (hexValue?_eq_some b v).mpr hv, Option.bind_some, Option.map_some, Nat.mul_comm]

/-- A plus sign is no digit. -/
theorem hexDigitsValue?_plus (rest : List UInt8) : hexDigitsValue? (0x2B :: rest) = none := by
  rw [hexDigitsValue?, List.foldlM_cons]
  rfl

/-- The number that digits behind an optional plus sign spell. -/
theorem hexNumber?_eq_some {bytes : List UInt8} (hbytes : bytes ≠ []) (n : Nat) :
    hexNumber? bytes = some n ↔ HexNumber bytes n := by
  have hplus (rest : List UInt8) : ¬ HexDigits (0x2B :: rest) n := fun h => by
    have := (hexDigitsValue?_eq_some _ n).mpr h
    rw [hexDigitsValue?_plus] at this
    cases this
  unfold hexNumber?
  split
  · exact absurd rfl hbytes
  · rename_i d rest
    rw [hexDigitsValue?_eq_some]
    refine ⟨fun h => .inr ⟨d :: rest, List.cons_ne_nil d rest, rfl, h⟩, ?_⟩
    rintro (h | ⟨digits, -, heq, h⟩)
    · exact absurd h (hplus _)
    · rwa [(List.cons.inj heq).2]
  · rename_i bytes _ hnone
    rw [hexDigitsValue?_eq_some]
    refine ⟨.inl, ?_⟩
    rintro (h | ⟨_ | ⟨d, rest⟩, hne, rfl, h⟩)
    · exact h
    · exact absurd rfl hne
    · exact absurd rfl (hnone d rest)

/-- A reading of digits gives one number. -/
theorem HexDigits.unique (digits : List UInt8) (m n : Nat) (hm : HexDigits digits m) (hn : HexDigits digits n) :
    m = n :=
  Option.some.inj (((hexDigitsValue?_eq_some digits m).mpr hm).symm.trans ((hexDigitsValue?_eq_some digits n).mpr hn))

/-- So does one that takes a plus sign. -/
theorem HexNumber.unique (bytes : List UInt8) (m n : Nat) (hm : HexNumber bytes m) (hn : HexNumber bytes n) :
    m = n := by
  rcases bytes with _ | ⟨b, bytes⟩
  · rcases hm with hm | ⟨_, _, heq, _⟩
    · rcases hn with hn | ⟨_, _, heq, _⟩
      · exact HexDigits.unique [] m n hm hn
      · cases heq
    · cases heq
  · have hne := List.cons_ne_nil b bytes
    exact Option.some.inj (((hexNumber?_eq_some hne m).mpr hm).symm.trans ((hexNumber?_eq_some hne n).mpr hn))

/-! ## What is read -/

/-- The digits that stand ahead, if there are `count` of them. -/
theorem hexAhead?_eq_some {count : Nat} (hcount : 0 < count) (rest : List UInt8) (n : Nat) :
    hexAhead? count rest = some n ↔ ∃ digits, digits.length = count ∧ digits <+: rest ∧ HexNumber digits n := by
  unfold hexAhead?
  split
  · rename_i hle
    have htake : rest.take count ≠ [] := by
      rw [← List.length_pos_iff, List.length_take, Nat.min_eq_left hle]
      exact hcount
    rw [hexNumber?_eq_some htake]
    constructor
    · exact fun h => ⟨_, by rw [List.length_take, Nat.min_eq_left hle], List.take_prefix count rest, h⟩
    · rintro ⟨digits, rfl, hbegins, h⟩
      rwa [← List.prefix_iff_eq_take.mp hbegins]
  · rename_i hlt
    refine ⟨fun h => (Option.some_ne_none _ h.symm).elim, ?_⟩
    rintro ⟨digits, rfl, hbegins, -⟩
    exact absurd hbegins.length_le hlt

/-- The character with a code. -/
theorem charOf?_eq_some (n : Nat) (c : Char) : charOf? n = some c ↔ n = c.toNat := by
  by_cases hvalid : n.isValidChar
  · rw [charOf?, dif_pos hvalid, Option.some.injEq, ← Char.toNat_inj]
    exact Iff.rfl
  · rw [charOf?, dif_neg hvalid]
    refine ⟨fun h => (Option.some_ne_none _ h.symm).elim, ?_⟩
    rintro rfl
    exact absurd c.valid hvalid

/-- The letters that stand for a byte. -/
theorem simpleEscape?_eq_some (b v : UInt8) : simpleEscape? b = some v ↔ (b, v) ∈ escapeLetters := by
  constructor
  · intro h
    simp only [simpleEscape?, beq_iff_eq, Bool.or_eq_true] at h
    split_ifs at h with hn ht hr hb hf hv h0 hself
    all_goals obtain rfl := Option.some.inj h
    on_goal 8 => rcases hself with (rfl | rfl) | rfl <;> decide
    all_goals
      subst b
      decide
  · intro h
    have hall : escapeLetters.all (fun p => simpleEscape? p.1 == some p.2) = true := by decide
    simpa using List.all_eq_true.mp hall _ h

/-- Behind a backslash, an escape is read as the table has it; what begins none stays, and is no backslash. -/
theorem escape_spec (b : UInt8) (rest : List UInt8) :
    (∃ digits, digits <+: rest ∧ Escape HexNumber (b :: digits) (escape b rest).1 ∧ (escape b rest).2 = digits.length)
    ∨ ((∀ body here, Escape HexNumber body here → ¬ body <+: b :: rest)
      ∧ b ≠ 0x5C ∧ escape b rest = ([0x5C, b], 0)) := by
  have hhead {d : UInt8} {digits : List UInt8} (h : d :: digits <+: b :: rest) : d = b ∧ digits <+: rest :=
    List.cons_prefix_cons.mp h
  unfold escape
  split_ifs with hx hu
  · obtain rfl := beq_iff_eq.mp hx
    cases hahead : hexAhead? 2 rest with
    | some v =>
      obtain ⟨digits, hlen, hbegins, hread⟩ := (hexAhead?_eq_some (by decide) rest v).mp hahead
      exact .inl ⟨digits, hbegins, .byte hlen hread, hlen.symm⟩
    | none =>
      refine .inr ⟨fun body here hescape hbody => ?_, by decide, rfl⟩
      cases hescape with
      | letter hb => exact (letter_not_digits hb).1 (hhead hbody).1
      | byte hlen hread =>
        rw [(hexAhead?_eq_some (by decide) rest _).mpr ⟨_, hlen, (hhead hbody).2, hread⟩] at hahead
        cases hahead
      | char => exact absurd (hhead hbody).1 (by decide)
  · obtain rfl := beq_iff_eq.mp hu
    cases hahead : (hexAhead? 4 rest).bind charOf? with
    | some c =>
      obtain ⟨n, hn, hc⟩ := Option.bind_eq_some_iff.mp hahead
      obtain ⟨digits, hlen, hbegins, hread⟩ := (hexAhead?_eq_some (by decide) rest n).mp hn
      rw [(charOf?_eq_some n c).mp hc] at hread
      exact .inl ⟨digits, hbegins, .char hlen hread, hlen.symm⟩
    | none =>
      refine .inr ⟨fun body here hescape hbody => ?_, by decide, rfl⟩
      cases hescape with
      | letter hb => exact (letter_not_digits hb).2 (hhead hbody).1
      | byte => exact absurd (hhead hbody).1 (by decide)
      | @char digits c hlen hread =>
        rw [(hexAhead?_eq_some (by decide) rest _).mpr ⟨_, hlen, (hhead hbody).2, hread⟩, Option.bind_some,
          (charOf?_eq_some _ c).mpr rfl] at hahead
        cases hahead
  · cases hsimple : simpleEscape? b with
    | some v => exact .inl ⟨[], List.nil_prefix, .letter ((simpleEscape?_eq_some b v).mp hsimple), rfl⟩
    | none =>
      refine .inr ⟨fun body here hescape hbody => ?_, ?_, rfl⟩
      · cases hescape with
        | letter hb =>
          obtain ⟨rfl, -⟩ := hhead hbody
          rw [(simpleEscape?_eq_some _ _).mpr hb] at hsimple
          cases hsimple
        | byte => exact hx (beq_iff_eq.mpr (hhead hbody).1.symm)
        | char => exact hu (beq_iff_eq.mpr (hhead hbody).1.symm)
      · rintro rfl
        cases hsimple

/-- Nothing begins an escape where the text ends. -/
theorem Escape.ne_nil {Reads : List UInt8 → Nat → Prop} {body here : List UInt8} (h : Escape Reads body here) :
    body ≠ [] := by
  cases h <;> exact List.cons_ne_nil _ _

/-- Every byte string is read by the table, with plus signs in front of digits. -/
theorem decodes_unescape (bytes : List UInt8) : Decodes HexNumber bytes (unescape bytes) := by
  fun_induction unescape bytes with
  | case1 => exact .nil
  | case2 b =>
    by_cases hb : b = 0x5C
    · subst hb
      exact .kept (fun body here hescape hbody => hescape.ne_nil (List.prefix_nil.mp hbody)) .nil
    · exact .plain hb .nil
  | case3 b rest here taken hescape ih =>
    rcases escape_spec b rest with ⟨digits, ⟨more, rfl⟩, hbody, htaken⟩ | ⟨hnone, hb, hkept⟩
    · rw [hescape] at hbody htaken
      obtain rfl : taken = digits.length := htaken
      rw [List.drop_left] at ih ⊢
      exact .escape hbody ih
    · rw [hescape] at hkept
      obtain ⟨rfl, rfl⟩ := Prod.mk.inj hkept
      exact .kept hnone (.plain hb ih)
  | case4 b rest hsingle hescape ih =>
    refine .plain ?_ ih
    rintro rfl
    cases rest with
    | nil => exact hsingle rfl
    | cons d rest => exact hescape d rest rfl rfl

/-! ## The documented table -/

/-- No plus sign stands where the digits of an escape would. -/
def NoPlus (bytes : List UInt8) : Prop :=
  ¬ [0x5C, 0x78, 0x2B] <:+: bytes ∧ ¬ [0x5C, 0x75, 0x2B] <:+: bytes

/-- Without a plus sign behind `\x` or `\u`, the escapes are those with digits alone. -/
theorem NoPlus.escape_iff {bytes rest body here : List UInt8} (h : NoPlus bytes) (hrest : 0x5C :: rest <:+ bytes)
    (hbody : body <+: rest) : Escape HexNumber body here ↔ Escape HexDigits body here := by
  have hinside {x : UInt8} {digits : List UInt8} (hx : x :: 0x2B :: digits <+: rest) : [0x5C, x, 0x2B] <:+: bytes := by
    have hthree : [0x5C, x, 0x2B] <+: 0x5C :: x :: 0x2B :: digits := List.prefix_append [0x5C, x, 0x2B] digits
    exact (hthree.trans (List.cons_prefix_cons.mpr ⟨rfl, hx⟩)).isInfix.trans hrest.isInfix
  constructor
  · intro hescape
    cases hescape with
    | letter hb => exact .letter hb
    | byte hlen hread =>
      rcases hread with hread | ⟨digits, -, rfl, -⟩
      · exact .byte hlen hread
      · exact absurd (hinside hbody) h.1
    | char hlen hread =>
      rcases hread with hread | ⟨digits, -, rfl, -⟩
      · exact .char hlen hread
      · exact absurd (hinside hbody) h.2
  · intro hescape
    cases hescape with
    | letter hb => exact .letter hb
    | byte hlen hread => exact .byte hlen (.inl hread)
    | char hlen hread => exact .char hlen (.inl hread)

/-- **What a string literal stands for.** Every byte string is decoded by the table in which a plus sign may stand in
front of digits, and without such a plus sign by the documented one. -/
theorem unescape_eq_iff (bytes out : List UInt8) :
    (unescape bytes = out ↔ Decodes HexNumber bytes out)
    ∧ (NoPlus bytes → (unescape bytes = out ↔ Decodes HexDigits bytes out)) := by
  have hall := decodes_unescape bytes
  refine ⟨⟨fun h => h ▸ hall, fun h => hall.unique HexNumber.unique h⟩, fun hplus => ?_⟩
  have hdigits : Decodes HexDigits bytes (unescape bytes) :=
    hall.of_agree fun _ _ _ hrest hbody => hplus.escape_iff hrest hbody
  exact ⟨fun h => h ▸ hdigits, fun h => hdigits.unique HexDigits.unique h⟩

/-- Two digits that end in a letter, and a backslash that begins no escape. -/
theorem unescape_eq_iff_digits :
    NoPlus [0x5C, 0x78, 0x34, 0x61, 0x5C, 0x71]
    ∧ Decodes HexDigits [0x5C, 0x78, 0x34, 0x61, 0x5C, 0x71] [0x4A, 0x5C, 0x71] := by
  have hplus : NoPlus [0x5C, 0x78, 0x34, 0x61, 0x5C, 0x71] := by
    unfold NoPlus
    decide
  have hout : unescape [0x5C, 0x78, 0x34, 0x61, 0x5C, 0x71] = [0x4A, 0x5C, 0x71] := by
    simp [unescape, escape, hexAhead?, hexNumber?, hexDigitsValue?, hexValue?, simpleEscape?]
  exact ⟨hplus, ((unescape_eq_iff _ _).2 hplus).mp hout⟩

/-- A plus sign and a digit are read as a byte, where the documented table keeps them. -/
theorem unescape_plus_sign :
    unescape [0x5C, 0x78, 0x2B, 0x31] = [0x01]
    ∧ ∀ out, Decodes HexDigits [0x5C, 0x78, 0x2B, 0x31] out ↔ out = [0x5C, 0x78, 0x2B, 0x31] := by
  have hkept : Decodes HexDigits [0x5C, 0x78, 0x2B, 0x31] [0x5C, 0x78, 0x2B, 0x31] := by
    refine .kept (fun body here hescape hbody => ?_)
      (.plain (by decide) (.plain (by decide) (.plain (by decide) .nil)))
    cases hescape with
    | letter hb => exact (letter_not_digits hb).1 (List.cons_prefix_cons.mp hbody).1
    | byte hlen hread =>
      obtain rfl : _ = [0x2B, 0x31] := (List.cons_prefix_cons.mp hbody).2.eq_of_length hlen
      have hvalue := (hexDigitsValue?_eq_some _ _).mpr hread
      rw [hexDigitsValue?_plus] at hvalue
      cases hvalue
    | char => exact absurd (List.cons_prefix_cons.mp hbody).1 (by decide)
  have hout : unescape [0x5C, 0x78, 0x2B, 0x31] = [0x01] := by
    simp [unescape, escape, hexAhead?, hexNumber?, hexDigitsValue?, hexValue?]
  exact ⟨hout, fun out => ⟨fun h => h.unique HexDigits.unique hkept, fun h => h ▸ hkept⟩⟩

end ScriptEngine.Source
