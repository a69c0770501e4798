import ScriptEngine.Proofs.Ffi.Prototypes
/-!
The texts that are read as signatures.

With the leeway of the reader (`Leeway.taken`), the grammar of prototypes has just the texts that are read, each with the
signature that it is read as (`parse_eq_ok_iff`). It is shown part by part: the arguments between the commas
(`readInside_eq_ok_iff`), the name and the type in front of it (`readName_eq_ok_iff`), and where these are
(`layout_append`).
-/

namespace ScriptEngine.Ffi.Signature

open Text (Blank isBlank trim trimStart trimEnd)

/-! ## Arguments that are read -/

section Arguments

variable {isCallback : Bool} {readCallback : List Char → Except SignatureError Signature}
  {reader : List Char → Except SignatureError Signature} {pieces : List (List Char)} {piece : List Char}
  {rest : List (List Char)} {arg : CType} {args args' types : List CType} {callback callback' found : Option Signature}

/-- The arguments behind one that was read: there may be too many. -/
def readOn (isCallback : Bool) (readCallback : List Char → Except SignatureError Signature) (rest : List (List Char))
    (args : List CType) (arg : CType) (callback : Option Signature) :
    Except SignatureError (List CType × Option Signature) :=
  if maxArgs < (args ++ [arg]).length then .error (.tooMany isCallback)
  else readArgs isCallback readCallback rest (args ++ [arg]) callback

theorem readOn_of_few (hfew : (args ++ arg :: types).length ≤ maxArgs)
    (h : readArgs isCallback readCallback rest (args ++ [arg]) callback = .ok (args ++ [arg] ++ types, callback')) :
    readOn isCallback readCallback rest args arg callback = .ok (args ++ arg :: types, callback') := by
  have hhere : ¬ maxArgs < (args ++ [arg]).length := by
    simp only [List.length_append, List.length_cons, List.length_nil] at hfew ⊢
    omega
  rw [readOn, if_neg hhere, h, List.append_assoc, List.singleton_append]

theorem of_readOn (h : readOn isCallback readCallback rest args arg callback = .ok (args', callback')) :
    (args ++ [arg]).length ≤ maxArgs
      ∧ readArgs isCallback readCallback rest (args ++ [arg]) callback = .ok (args', callback') := by
  unfold readOn at h
  split at h
  · cases h
  · rename_i hhere
    exact ⟨Nat.not_lt.mp hhere, h⟩

theorem readArgs_value (h : '(' ∉ piece) :
    readArgs isCallback readCallback (piece :: rest) args callback
      = readType piece >>= fun type => readOn isCallback readCallback rest args type callback := by
  unfold readArgs
  rw [if_neg (by simpa using h)]
  cases readType piece <;> rfl

theorem readArgs_callback (h : '(' ∈ piece) :
    readArgs isCallback readCallback (piece :: rest) args none
      = readCallback piece >>= fun cb => readOn isCallback readCallback rest args .callback (some cb) := by
  unfold readArgs
  rw [if_pos (by simpa using h)]
  cases readCallback piece <;> rfl

theorem readArgs_second (h : '(' ∈ piece) (known : Signature) :
    readArgs isCallback readCallback (piece :: rest) args (some known) = .error .secondCallback := by
  unfold readArgs
  rw [if_pos (by simpa using h)]
  rfl

theorem readType_eq_ok_iff {cs : List Char} {type : CType} : readType cs = .ok type ↔ CType.ofChars? cs = some type := by
  unfold readType
  split <;> simp_all

/-- A row of pieces is read as its arguments. -/
theorem readArgs_of_row (h : Row (fun cs cb => reader cs = .ok cb) pieces types found)
    (hone : found = none ∨ callback = none) (hfew : pieces ≠ [] → (args ++ types).length ≤ maxArgs) :
    readArgs isCallback (fun piece => reader (trim piece)) pieces args callback
      = .ok (args ++ types, callback.or found) := by
  induction h generalizing args callback with
  | nil => simp [readArgs]
  | @value piece rest type types found htype _ ih =>
    have hopen : '(' ∉ piece := fun hmem => (CType.plain_of_ofChars? htype _ hmem).1 rfl
    have hall : (args ++ type :: types).length ≤ maxArgs := hfew (by simp)
    rw [readArgs_value hopen, readType_eq_ok_iff.mpr htype]
    exact readOn_of_few hall (ih hone fun _ => by simpa using hall)
  | @callback piece rest cb types hopen hread _ ih =>
    obtain rfl : callback = none := hone.resolve_left (by simp)
    have hall : (args ++ CType.callback :: types).length ≤ maxArgs := hfew (by simp)
    rw [readArgs_callback hopen, hread]
    exact readOn_of_few hall (ih (.inl rfl) fun _ => by simpa using hall)

/-- What is read as arguments is a row of pieces. -/
theorem row_of_readArgs
    (h : readArgs isCallback (fun piece => reader (trim piece)) pieces args callback = .ok (args', callback')) :
    ∃ types found, Row (fun cs cb => reader cs = .ok cb) pieces types found ∧ args' = args ++ types
      ∧ callback' = callback.or found ∧ (found = none ∨ callback = none)
      ∧ (pieces ≠ [] → args'.length ≤ maxArgs) := by
  induction pieces generalizing args callback with
  | nil =>
    cases h
    exact ⟨[], none, .nil, by simp, by simp, .inl rfl, by simp⟩
  | cons piece rest ih =>
    -- the last argument that is read is counted too
    have hcount {arg : CType} {types : List CType} {found : Option Signature}
        (hrow : Row (fun cs cb => reader cs = .ok cb) rest types found) (hhere : (args ++ [arg]).length ≤ maxArgs)
        (hfew : rest ≠ [] → (args ++ [arg] ++ types).length ≤ maxArgs) :
        (args ++ [arg] ++ types).length ≤ maxArgs := by
      cases rest with
      | nil =>
        cases hrow
        simpa using hhere
      | cons => exact hfew (by simp)
    by_cases hopen : '(' ∈ piece
    · cases callback with
      | some known =>
        rw [readArgs_second hopen] at h
        cases h
      | none =>
        rw [readArgs_callback hopen] at h
        obtain ⟨cb, hread, h⟩ := ok_of_bind h
        obtain ⟨hhere, h⟩ := of_readOn h
        obtain ⟨types, found, hrow, rfl, rfl, hone, hfew⟩ := ih h
        obtain rfl : found = none := hone.resolve_right (by simp)
        exact ⟨.callback :: types, some cb, .callback hopen hread hrow, by simp, rfl, .inr rfl,
          fun _ => hcount hrow hhere hfew⟩
    · rw [readArgs_value hopen] at h
      obtain ⟨type, htype, h⟩ := ok_of_bind h
      obtain ⟨hhere, h⟩ := of_readOn h
      obtain ⟨types, found, hrow, rfl, rfl, hone, hfew⟩ := ih h
      exact ⟨type :: types, found, .value (readType_eq_ok_iff.mp htype) hrow, by simp, rfl, hone,
        fun _ => hcount hrow hhere hfew⟩

end Arguments

/-! ## Names and types that are read -/

/-- A text is something that does not end in a character of names, and a row of characters of names. -/
theorem exists_cut (head : List Char) : ∃ before name, head = before ++ name
    ∧ (∀ c ∈ name, isNameChar c = true) ∧ ∀ c ∈ before.getLast?, isNameChar c = false := by
  refine ⟨(head.reverse.dropWhile isNameChar).reverse, (head.reverse.takeWhile isNameChar).reverse, ?_, ?_, ?_⟩
  · rw [← List.reverse_append, List.takeWhile_append_dropWhile, List.reverse_reverse]
  · intro c hc
    exact List.mem_takeWhile_imp (List.mem_reverse.mp hc)
  · intro c hc
    rw [List.getLast?_reverse] at hc
    have hfirst := List.head?_dropWhile_not isNameChar head.reverse
    rw [Option.mem_def.mp hc] at hfirst
    simpa using hfirst

/-- The parts that `cutName` looks at. -/
theorem cut_parts {before name : List Char} (hname : ∀ c ∈ name, isNameChar c = true)
    (hbefore : ∀ c ∈ before.getLast?, isNameChar c = false) :
    ((before ++ name).reverse.takeWhile isNameChar).reverse = name
      ∧ (before ++ name).take ((before ++ name).length - name.length) = before := by
  have hlast : before.reverse.takeWhile isNameChar = [] := by
    cases hreverse : before.reverse with
    | nil => rfl
    | cons c rest =>
      have hc : isNameChar c = false := hbefore c (by rw [← List.head?_reverse, hreverse]; rfl)
      simp [hc]
  refine ⟨?_, by simp⟩
  rw [List.reverse_append, List.takeWhile_append_of_pos (by simpa using hname), hlast, List.append_nil,
    List.reverse_reverse]

theorem cutName_append {before name : List Char} (hname : ∀ c ∈ name, isNameChar c = true)
    (hbefore : ∀ c ∈ before.getLast?, isNameChar c = false ∧ c.toNat < 0x80) :
    cutName (before ++ name) = .ok (before, name) := by
  obtain ⟨htake, hrest⟩ := cut_parts hname fun c hc => (hbefore c hc).1
  simp only [cutName, htake, hrest]
  split
  · rename_i c hc
    exact if_pos (hbefore c hc).2
  · rfl

theorem cutName_append_wide {name : List Char} {c : Char} (hname : ∀ d ∈ name, isNameChar d = true)
    (hc : isNameChar c = false) (hwide : 0x80 ≤ c.toNat) (before : List Char) :
    cutName (before ++ c :: name) = .error .cutCharacter := by
  have hlast : ∀ d ∈ (before ++ [c]).getLast?, isNameChar d = false := by simpa using hc
  obtain ⟨htake, hrest⟩ := cut_parts hname hlast
  rw [List.append_cons]
  simp only [cutName, htake, hrest, List.getLast?_concat]
  exact if_neg (Nat.not_lt.mpr hwide)

/-- A name is cut off the text in front of it, which ends in a character of one byte, or it cannot be. -/
theorem cutName_cases (head : List Char) :
    (∃ before name, head = before ++ name ∧ (∀ c ∈ name, isNameChar c = true)
        ∧ (∀ c ∈ before.getLast?, isNameChar c = false ∧ c.toNat < 0x80) ∧ cutName head = .ok (before, name))
      ∨ ∃ before c name, head = before ++ c :: name ∧ (∀ d ∈ name, isNameChar d = true) ∧ isNameChar c = false
        ∧ 0x80 ≤ c.toNat ∧ cutName head = .error .cutCharacter := by
  obtain ⟨before, name, rfl, hname, hbefore⟩ := exists_cut head
  by_cases hnarrow : ∀ c ∈ before.getLast?, c.toNat < 0x80
  · have hboth : ∀ c ∈ before.getLast?, isNameChar c = false ∧ c.toNat < 0x80 :=
      fun c hc => ⟨hbefore c hc, hnarrow c hc⟩
    exact .inl ⟨before, name, rfl, hname, hboth, cutName_append hname hboth⟩
  · obtain ⟨c, hlast, hwide⟩ : ∃ c ∈ before.getLast?, 0x80 ≤ c.toNat := by
      simpa using hnarrow
    have hc := hbefore c hlast
    obtain ⟨front, rfl⟩ := List.getLast?_eq_some_iff.mp hlast
    exact .inr ⟨front, c, name, by simp, hname, hc, hwide,
      by rw [← List.append_cons, cutName_append_wide hname hc hwide]⟩

/-- The name at the end of a text, and the type in front of it. -/
def readName (head : List Char) : Except SignatureError (List Char × CType) :=
  cutName head >>= fun cut =>
    if cut.2.isEmpty then .error .missingName else readType cut.1 >>= fun ret => .ok (cut.2, ret)

theorem readName_eq_ok_iff {head name : List Char} {ret : CType} : readName head = .ok (name, ret)
    ↔ IsName name ∧ ∃ before, head = before ++ name
      ∧ (∀ c ∈ before.getLast?, isNameChar c = false ∧ c.toNat < 0x80) ∧ CType.ofChars? before = some ret := by
  constructor
  · intro h
    obtain ⟨cut, hcut, h⟩ := ok_of_bind h
    split at h
    · cases h
    · rename_i hne
      obtain ⟨type, htype, h⟩ := ok_of_bind h
      cases h
      obtain ⟨before, name, rfl, hname, hbefore, hok⟩ | ⟨_, _, _, _, _, _, _, herror⟩ := cutName_cases head
      · rw [hok] at hcut
        cases hcut
        exact ⟨⟨by simpa using hne, hname⟩, before, rfl, hbefore, readType_eq_ok_iff.mp htype⟩
      · rw [herror] at hcut
        cases hcut
  · rintro ⟨hname, before, rfl, hbefore, hret⟩
    have hne : name.isEmpty = false := by simpa using hname.1
    rw [readName, cutName_append hname.2 hbefore]
    change (if name.isEmpty then _ else readType before >>= _) = _
    rw [hne, readType_eq_ok_iff.mpr hret]
    rfl

/-! ## Where the parts are -/

/-- What follows the closing parenthesis is not looked at for a star. -/
theorem head?_trimStart_append (inside after : List Char) :
    (trimStart (inside ++ ')' :: after)).head? = some '*' ↔ (trimStart inside).head? = some '*' := by
  obtain ⟨blanks, hblanks, hinside⟩ := Text.trimStart_spec inside
  cases hstart : trimStart inside with
  | nil =>
    rw [hstart, List.append_nil] at hinside
    rw [hinside, Text.trimStart_append hblanks, Text.trimStart_cons (by decide)]
    simp
  | cons c rest =>
    have hc := Text.not_blank_of_trimStart hstart
    rw [hinside, hstart, List.append_assoc, Text.trimStart_append hblanks, List.cons_append, Text.trimStart_cons hc]
    simp

/-- A text has a first pair of parentheses, or the first parenthesis is not closed, or there is none. -/
theorem pair_cases (cs : List Char) :
    cutAtOpen? cs = none
      ∨ (∃ head behind, cs = head ++ '(' :: behind ∧ '(' ∉ head ∧ cutAtClose? behind 1 = none)
      ∨ ∃ head inside after, cs = head ++ '(' :: (inside ++ ')' :: after) ∧ '(' ∉ head ∧ Balanced inside := by
  cases hopen : cutAtOpen? cs with
  | none => exact .inl rfl
  | some cut =>
    obtain ⟨hcs, hhead⟩ := of_cutAtOpen? hopen
    cases hclose : cutAtClose? cut.2 1 with
    | none => exact .inr (.inl ⟨cut.1, cut.2, hcs, hhead, hclose⟩)
    | some cut' =>
      obtain ⟨hbehind, hinside⟩ := of_cutAtClose? hclose
      exact .inr (.inr ⟨cut.1, cut'.1, cut'.2, by rw [← hbehind, ← hcs], hhead, hinside⟩)

theorem layout_of_unopened {cs : List Char} (h : cutAtOpen? cs = none) (isCallback : Bool) :
    layout cs isCallback = .error .missingArguments := by
  rw [layout, h]

theorem layout_of_unclosed {head behind : List Char} (hhead : '(' ∉ head) (h : cutAtClose? behind 1 = none)
    (isCallback : Bool) : layout (head ++ '(' :: behind) isCallback = .error .unbalanced := by
  rw [layout, cutAtOpen?_append hhead]
  dsimp only
  rw [h]

/-- Where the parts of a prototype are, once the first pair of parentheses is known. -/
theorem layout_append {head inside : List Char} (hhead : '(' ∉ head) (hinside : Balanced inside) (isCallback : Bool)
    (after : List Char) :
    layout (head ++ '(' :: (inside ++ ')' :: after)) isCallback =
      if (trimStart inside).head? = some '*' then
        match cutAtOpen? after with
        | none => .error .missingArguments
        | some (_, argsOn) => readType head >>= fun ret => .ok ⟨trim ((trimStart inside).drop 1), ret, argsOn⟩
      else if isCallback then
        .error (.unknownType (String.ofList (trim (head ++ '(' :: (inside ++ ')' :: after)))))
      else
        readName (trimEnd head) >>= fun part => .ok ⟨part.1, part.2, inside ++ ')' :: after⟩ := by
  rw [layout, cutAtOpen?_append hhead]
  dsimp only
  rw [cutAtClose?_append hinside]
  dsimp only
  have hstar := head?_trimStart_append inside after
  split
  · rename_i rest heq
    rw [if_pos (hstar.mp (by rw [heq]; rfl))]
    rfl
  · rename_i hother
    have hplain : ¬ (trimStart inside).head? = some '*' := fun h => by
      obtain ⟨rest, heq⟩ := List.head?_eq_some_iff.mp (hstar.mpr h)
      exact hother rest heq
    rw [if_neg hplain]
    cases isCallback with
    | true => rfl
    | false =>
      rw [readName]
      cases cutName (trimEnd head) with
      | error e => rfl
      | ok cut =>
        change (if cut.2.isEmpty then _ else _) = (if cut.2.isEmpty then _ else _) >>= _
        split
        · rfl
        · cases readType cut.1 <;> rfl

/-! ## Prototypes that are read -/

/-- Reads what stands in the parentheses of the arguments. -/
def readInside (isCallback : Bool) (reader : List Char → Except SignatureError Signature) (inside : List Char) :
    Except SignatureError (List CType × Option Signature) :=
  if (pieces inside 0).length == 1 && (CType.ofChars? inside == some .void || (trim inside).isEmpty) then
    .ok ([], none)
  else
    readArgs isCallback (fun piece => reader (trim piece)) (pieces inside 0) [] none

theorem read_of_layout {isCallback : Bool} {cs inside after : List Char} {budget : Nat} {parts : Layout}
    (hparts : layout cs isCallback = .ok parts) (hargs : parts.argsOn = inside ++ ')' :: after)
    (hinside : Balanced inside) :
    read isCallback cs (budget + 1) = readInside isCallback (read true · budget) inside >>= fun result =>
      .ok ⟨String.ofList parts.name, parts.ret, result.1, result.2⟩ := by
  rw [read, hparts]
  change (match cutAtClose? parts.argsOn 1 with | none => _ | some (inside, _) => _) = _
  rw [hargs, cutAtClose?_append hinside]
  dsimp only
  unfold readInside
  split <;> rfl

/-- What is read inside of the parentheses is arguments. -/
theorem readInside_eq_ok_iff {isCallback : Bool} {reader : List Char → Except SignatureError Signature}
    {inside : List Char} {types : List CType} {callback : Option Signature} (hinside : Balanced inside) :
    readInside isCallback reader inside = .ok (types, callback)
      ↔ Arguments (fun cs cb => reader cs = .ok cb) inside types callback := by
  by_cases hnone : CType.ofChars? inside = some .void ∨ Blank inside
  · -- white space or a type is one piece, and no argument
    have hplain : ∀ c ∈ inside, c ≠ '(' ∧ c ≠ ')' ∧ c ≠ ',' := hnone.elim CType.plain_of_ofChars? plain_of_blank
    have hsingle : pieces inside 0 = [inside] := by
      have hpieces : pieces ([','].intercalate [inside]) 0 = [inside] :=
        pieces_intercalate (by simpa using nested_of_plain hplain) (by simp)
      simpa [List.intercalate] using hpieces
    have hempty : readInside isCallback reader inside = .ok ([], none) := by
      rw [readInside, if_pos]
      simpa [hsingle, Text.trim_eq_nil_iff] using hnone
    rw [hempty]
    constructor
    · intro h
      cases h
      exact hnone.elim .void .none
    · intro h
      cases h with
      | none => rfl
      | void => rfl
      | @row all _ _ hpieces hrow hne hfew hvoid =>
        rw [pieces_intercalate hpieces hne] at hsingle
        rw [hsingle] at hrow
        cases hrow with
        | value htype hrest =>
          cases hrest
          rcases hnone with hnone | hnone
          · exact absurd (by rw [Option.some.inj (htype.symm.trans hnone)]) hvoid
          · exact absurd htype (not_ofChars?_of_blank hnone)
        | callback hopen => exact absurd rfl (hplain _ hopen).1
  · have hrow : readInside isCallback reader inside
        = readArgs isCallback (fun piece => reader (trim piece)) (pieces inside 0) [] none := by
      rw [readInside, if_neg]
      simp only [Bool.and_eq_true, Bool.or_eq_true, beq_iff_eq, List.isEmpty_iff, Text.trim_eq_nil_iff]
      exact fun h => hnone h.2
    obtain ⟨hne, hjoined, hpieces⟩ := (pieces_eq_iff hinside).mp rfl
    rw [hrow]
    constructor
    · intro h
      obtain ⟨types', found, hread, htypes, hfound, -, hfew⟩ := row_of_readArgs h
      rw [List.nil_append] at htypes
      rw [Option.none_or] at hfound
      subst htypes hfound
      have hvoid : types ≠ [.void] := by
        rintro rfl
        generalize pieces inside 0 = all at hread hjoined
        cases hread with
        | value htype hrest =>
          cases hrest
          exact hnone (.inl (by simpa [hjoined, List.intercalate] using htype))
      have harguments := Arguments.row hpieces hread hne (hfew hne) hvoid
      rwa [← hjoined] at harguments
    · intro h
      cases h with
      | none hblank => exact absurd (.inr hblank) hnone
      | void hvoid => exact absurd (.inl hvoid) hnone
      | row hall hread hsome hfew _ =>
        rw [pieces_intercalate hall hsome]
        exact readArgs_of_row hread (.inr rfl) fun _ => hfew

theorem parts_of_read {isCallback : Bool} {cs : List Char} {budget : Nat} {s : Signature}
    (h : read isCallback cs (budget + 1) = .ok s) :
    ∃ parts inside after types callback, layout cs isCallback = .ok parts ∧ parts.argsOn = inside ++ ')' :: after
      ∧ Balanced inside ∧ readInside isCallback (read true · budget) inside = .ok (types, callback)
      ∧ s = ⟨String.ofList parts.name, parts.ret, types, callback⟩ := by
  have hread := h
  rw [read] at h
  obtain ⟨parts, hparts, h⟩ := ok_of_bind h
  split at h
  · cases h
  · rename_i inside after hclose
    obtain ⟨hargs, hinside⟩ := of_cutAtClose? hclose
    rw [read_of_layout hparts hargs hinside] at hread
    obtain ⟨⟨types, callback⟩, hresult, hs⟩ := ok_of_bind hread
    cases hs
    exact ⟨parts, inside, after, types, callback, hparts, hargs, hinside, hresult, rfl⟩

/-- A prototype with its name in front of the arguments is read. -/
theorem layout_plain {before name blanks inside after : List Char} {ret : CType}
    (hret : CType.ofChars? before = some ret) (hbefore : ∀ c ∈ before.getLast?, isNameChar c = false ∧ c.toNat < 0x80)
    (hname : IsName name) (hblanks : Blank blanks) (hstar : (trimStart inside).head? ≠ some '*')
    (hinside : Balanced inside) :
    layout (before ++ name ++ blanks ++ '(' :: (inside ++ ')' :: after)) false
      = .ok ⟨name, ret, inside ++ ')' :: after⟩ := by
  have hhead : '(' ∉ before ++ name ++ blanks := by
    simp only [List.mem_append, not_or]
    refine ⟨⟨fun hmem => (CType.plain_of_ofChars? hret _ hmem).1 rfl, fun hmem => ?_⟩,
      fun hmem => (plain_of_blank hblanks _ hmem).1 rfl⟩
    exact absurd (hname.2 _ hmem) (by decide)
  rw [layout_append hhead hinside, if_neg hstar, if_neg (by decide), trimEnd_name hname hblanks,
    readName_eq_ok_iff.mpr ⟨hname, before, rfl, hbefore, hret⟩]
  rfl

/-- A prototype with its name in parentheses is read. -/
theorem layout_pointer {isCallback : Bool} {before blanks named between argsOn : List Char} {ret : CType}
    (hret : CType.ofChars? before = some ret) (hblanks : Blank blanks) (hnamed : Balanced named) (hbetween : '(' ∉ between) :
    layout (before ++ '(' :: (blanks ++ '*' :: (named ++ ')' :: (between ++ '(' :: argsOn)))) isCallback
      = .ok ⟨trim named, ret, argsOn⟩ := by
  have hhead : '(' ∉ before := fun hmem => (CType.plain_of_ofChars? hret _ hmem).1 rfl
  have hinside : Balanced (blanks ++ '*' :: named) :=
    (balanced_of_plain (plain_of_blank hblanks)).append (.plain (by decide) (by decide) (fun _ => trivial) hnamed)
  have hfront : trimStart (blanks ++ '*' :: named) = '*' :: named := by
    rw [Text.trimStart_append hblanks, Text.trimStart_cons (by decide)]
  have hlayout := layout_append hhead hinside isCallback (between ++ '(' :: argsOn)
  rw [hfront, if_pos List.head?_cons, cutAtOpen?_append hbetween] at hlayout
  dsimp only at hlayout
  rw [readType_eq_ok_iff.mpr hret, List.append_assoc, List.cons_append] at hlayout
  exact hlayout

/-- The parts of a prototype are found nowhere else. -/
theorem prototype_of_layout {isCallback : Bool} {cs inside after : List Char} {parts : Layout}
    {Callback : List Char → Signature → Prop} {args : List CType} {callback : Option Signature}
    (h : layout cs isCallback = .ok parts) (hargs : parts.argsOn = inside ++ ')' :: after)
    (harguments : Arguments Callback inside args callback) :
    Prototype .taken Callback isCallback cs ⟨String.ofList parts.name, parts.ret, args, callback⟩ := by
  rcases pair_cases cs with hopen | ⟨head, behind, rfl, hhead, hclose⟩ | ⟨head, first, behind, rfl, hhead, hfirst⟩
  · rw [layout_of_unopened hopen] at h
    cases h
  · rw [layout_of_unclosed hhead hclose] at h
    cases h
  rw [layout_append hhead hfirst] at h
  split at h
  · rename_i hstar
    obtain ⟨named, hnamed⟩ := List.head?_eq_some_iff.mp hstar
    obtain ⟨blanks, hblanks, hfront⟩ := Text.trimStart_spec first
    rw [hnamed] at hfront h
    split at h
    · cases h
    · rename_i between argsOn hopen
      obtain ⟨rfl, hbetween⟩ := of_cutAtOpen? hopen
      obtain ⟨ret, hret, h⟩ := ok_of_bind h
      cases h
      subst hargs hfront
      have hbalanced : Balanced named := by
        cases (hfirst.of_append fun c hc => (plain_of_blank hblanks c hc).imp_right And.left) with
        | plain _ _ _ hnamed => exact hnamed
      rw [List.append_assoc, List.cons_append]
      exact .pointer (readType_eq_ok_iff.mp hret) hblanks hbalanced trivial hbetween trivial harguments trivial
  · rename_i hstar
    split at h
    · cases h
    · rename_i hfunction
      obtain rfl : isCallback = false := by simpa using hfunction
      obtain ⟨blanks, hblanks, hfront⟩ := Text.trimEnd_spec head
      obtain ⟨⟨name, ret⟩, hpart, h⟩ := ok_of_bind h
      cases h
      obtain ⟨hname, before, hcut, hbefore, hret⟩ := readName_eq_ok_iff.mp hpart
      -- the parenthesis that closes the arguments is the one that was found
      have hclose := cutAtClose?_append harguments.balanced after
      rw [← hargs, cutAtClose?_append hfirst, Option.some.injEq, Prod.mk.injEq] at hclose
      obtain ⟨rfl, rfl⟩ := hclose
      rw [hfront, hcut]
      exact .plain hret hbefore hname hblanks hstar harguments trivial

/-- A prototype is read as its signature, and nothing else is read. -/
theorem read_eq_ok_iff {isCallback : Bool} {cs : List Char} {budget : Nat} {s : Signature} :
    read isCallback cs (budget + 1) = .ok s
      ↔ Prototype .taken (fun cs cb => read true cs budget = .ok cb) isCallback cs s := by
  constructor
  · intro h
    obtain ⟨parts, inside, after, types, callback, hparts, hargs, hbalanced, hread, rfl⟩ := parts_of_read h
    exact prototype_of_layout hparts hargs ((readInside_eq_ok_iff hbalanced).mp hread)
  · intro h
    cases h with
    | plain hret hbefore hname hblanks hstar harguments =>
      have hinside := harguments.balanced
      rw [read_of_layout (layout_plain hret hbefore hname hblanks hstar hinside) rfl hinside,
        (readInside_eq_ok_iff hinside).mpr harguments]
      rfl
    | pointer hret hblanks hnamed _ hbetween _ harguments =>
      have hinside := harguments.balanced
      rw [read_of_layout (layout_pointer hret hblanks hnamed hbetween) rfl hinside,
        (readInside_eq_ok_iff hinside).mpr harguments]
      rfl

/-! ## Texts that are read -/

/-- No callback passes the check of a callback's arguments. -/
theorem not_mem_of_checkArgs {place : Nat} {seen found : Option Nat} {types : List CType}
    (h : checkArgs true place seen types = .ok found) : .callback ∉ types := by
  induction types generalizing place seen with
  | nil => simp
  | cons type rest ih =>
    have hnext : type ≠ .callback ∧ ∃ place seen, checkArgs true place seen rest = .ok found := by
      cases type <;> cases seen <;> first | exact ⟨by decide, _, _, h⟩ | cases h
    obtain ⟨hne, place, seen, hrest⟩ := hnext
    exact List.not_mem_cons_of_ne_of_not_mem hne.symm (ih hrest)

/-- What passes the check of a callback. -/
theorem of_validateCallback {s : Signature} (h : s.validateCallback = .ok ()) :
    returnable true s.ret = true ∧ (∀ type ∈ s.args, type ≠ .void ∧ type ≠ .textStruct) ∧ .callback ∉ s.args := by
  unfold validateCallback at h
  dsimp only at h
  split at h
  · cases h
  · rename_i hret
    obtain ⟨found, hargs, -⟩ := ok_of_bind h
    exact ⟨by simpa using hret, (of_checkArgs hargs).1, not_mem_of_checkArgs hargs⟩

/-- A function that passes the check returns what can be returned, and its callback passes the check of callbacks. -/
theorem ret_callback_of_validate {s : Signature} (h : s.validate = .ok ()) :
    returnable false s.ret = true ∧ ∀ cb ∈ s.callback, cb.validateCallback = .ok () := by
  unfold validate at h
  dsimp only at h
  split at h
  · cases h
  rename_i hret
  obtain ⟨found, -, h⟩ := ok_of_bind h
  split at h
  · cases h
  refine ⟨by simpa using hret, fun cb hcb => ?_⟩
  rw [Option.mem_def.mp hcb] at h
  exact h

/-- A callback takes no callback. -/
theorem not_mem_of_validate {s : Signature} (h : s.validate = .ok ()) : ∀ cb ∈ s.callback, .callback ∉ cb.args :=
  fun cb hcb => (of_validateCallback ((ret_callback_of_validate h).2 cb hcb)).2.2

/-- The texts that are read as a function are prototypes of one, up to the callbacks of callbacks. -/
theorem read_function_eq_ok_iff {cs : List Char} {s : Signature} (hplain : ∀ cb ∈ s.callback, .callback ∉ cb.args) :
    read false cs cs.length = .ok s ↔ FunctionPrototype .taken cs s := by
  cases hlength : cs.length with
  | zero =>
    obtain rfl := List.eq_nil_of_length_eq_zero hlength
    exact iff_of_false (by simp [read]) fun h => absurd rfl (Prototype.ne_nil h)
  | succ budget =>
    rw [read_eq_ok_iff]
    constructor
    · intro h
      refine h.imp fun text _ cb hcb hread => ?_
      cases budget with
      | zero => cases hread
      | succ budget =>
        refine (read_eq_ok_iff.mp hread).imp fun _ _ inner hinner => ?_
        have hmem := (read_eq_ok_iff.mp hread).isSome_iff.mp (by rw [Option.mem_def.mp hinner]; rfl)
        exact absurd hmem (hplain cb hcb)
    · intro h
      refine h.imp fun text htext cb hcb hprototype => ?_
      cases budget with
      | zero => exact absurd (List.eq_nil_of_length_eq_zero (by omega)) (Prototype.ne_nil hprototype)
      | succ budget => exact read_eq_ok_iff.mpr (Prototype.imp hprototype fun _ _ _ _ => False.elim)

/-- A text is read as a signature if it is a prototype of a function, with whatever is not looked at. -/
theorem parse_eq_ok_iff {text : String} {s : Signature} :
    parse text = .ok s ↔ FunctionPrototype .taken (trim text.toList) s ∧ s.validate = .ok () := by
  constructor
  · intro h
    obtain ⟨found, hread, h⟩ := ok_of_bind h
    obtain ⟨_, hvalid, h⟩ := ok_of_bind h
    cases h
    exact ⟨(read_function_eq_ok_iff (not_mem_of_validate hvalid)).mp hread, hvalid⟩
  · rintro ⟨hprototype, hvalid⟩
    have hread := (read_function_eq_ok_iff (not_mem_of_validate hvalid)).mpr hprototype
    dsimp only [parse]
    rw [hread]
    change s.validate >>= _ = _
    rw [hvalid]
    rfl

end ScriptEngine.Ffi.Signature
