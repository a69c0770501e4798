import ScriptEngine.Proofs.Ffi.Reading
import ScriptEngine.Proofs.Text.Offsets
/-!
Signatures read by byte offsets.

A prototype is taken apart by the offsets of its parentheses, its commas and its name. `parseAt` does so with every
cut, every count of parentheses and every turn of the recursion checked. It reads what `parse` reads, and what it ends
abruptly at is one cut, that of a name behind a character of several bytes (`parseAt_spec`).
-/

namespace ScriptEngine.Ffi.Signature

open Text (Blank byteLength charOffsets isBlank lastOffsetOf? offsetOf? slice? trim trimEnd trimStart)

/-! ## The reader -/

/-- What has to be there. Without it the program ends, and so it does where a name is cut inside a character. -/
def demand {α : Type} : Option α → Except SignatureError α
  | some a => .ok a
  | none => .error .cutCharacter

/-- The offset of the parenthesis that closes the `depth`th open one. The depth must not go below zero. -/
def closeAmong : List (Nat × Char) → Nat → Except SignatureError (Option Nat)
  | [], _ => .ok none
  | (offset, c) :: rest, depth =>
    if c == '(' then closeAmong rest (depth + 1)
    else if c == ')' then
      match depth with
      | 0 => demand none
      | 1 => .ok (some offset)
      | depth + 2 => closeAmong rest (depth + 1)
    else closeAmong rest depth

/-- The offset of the parenthesis that closes the one at an offset. -/
def matchingClose (cs : List Char) (opening : Nat) : Except SignatureError (Option Nat) :=
  closeAmong ((charOffsets cs 0).dropWhile fun place => place.1 < opening) 0

/-- Where the name at the end of a text starts: one byte behind the last character that is not part of it. -/
def nameStart (head : List Char) : Nat :=
  match lastOffsetOf? (!isNameChar ·) head with
  | some offset => offset + 1
  | none => 0

/-- The name and the return type of a prototype, and the offset of the parenthesis that opens the arguments. -/
def layoutAt (cs : List Char) (isCallback : Bool) : Except SignatureError (List Char × CType × Nat) :=
  match offsetOf? (· == '(') cs with
  | none => .error .missingArguments
  | some opening => do
    let some close ← matchingClose cs opening | throw .unbalanced
    let behind ← demand (slice? cs (opening + 1) (byteLength cs))
    if (trimStart behind).head? = some '*' then do
      let inside ← demand (slice? cs (opening + 1) close)
      let name ← demand (slice? (trimStart inside) 1 (byteLength (trimStart inside)))
      let after ← demand (slice? cs (close + 1) (byteLength cs))
      match offsetOf? (· == '(') after with
      | none => throw .missingArguments
      | some args => do
        let head ← demand (slice? cs 0 opening)
        let ret ← readType head
        return (trim name, ret, close + 1 + args)
    else if isCallback then
      throw (.unknownType (String.ofList (trim cs)))
    else do
      let head ← demand (slice? cs 0 opening)
      let name ← demand (slice? (trimEnd head) (nameStart (trimEnd head)) (byteLength (trimEnd head)))
      if name.isEmpty then throw .missingName
      let before ← demand (slice? (trimEnd head) 0 (nameStart (trimEnd head)))
      let ret ← readType before
      return (name, ret, opening)

/-- The pieces of a text between the commas that no parenthesis encloses, by the offset at which a piece starts. -/
def piecesAt (cs : List Char) : List (Nat × Char) → Nat → Nat → Except SignatureError (List (List Char))
  | [], _, start => do
    let piece ← demand (slice? cs start (byteLength cs))
    return [piece]
  | (offset, c) :: rest, depth, start =>
    if c == ',' && depth == 0 then do
      let piece ← demand (slice? cs start offset)
      let more ← piecesAt cs rest depth (offset + 1)
      return piece :: more
    else
      piecesAt cs rest (if c == '(' then depth + 1 else if c == ')' then depth - 1 else depth) start

/-- Whether pieces stand for no arguments. -/
def areNone : List (List Char) → Bool
  | [piece] => CType.ofChars? piece == some .void || (trim piece).isEmpty
  | _ => false

/-- Reads a prototype without surrounding blanks. The budget is what the recursion on callbacks may take. -/
def readAt (isCallback : Bool) (cs : List Char) : Nat → Except SignatureError Signature
  | 0 => demand none
  | budget + 1 => do
    let (name, ret, opening) ← layoutAt cs isCallback
    let some close ← matchingClose cs opening | throw .unbalanced
    let inside ← demand (slice? cs (opening + 1) close)
    let all ← piecesAt inside (charOffsets inside 0) 0 0
    let (args, callback) ←
      if areNone all then pure ([], none)
      else readArgs isCallback (fun piece => readAt true (trim piece) budget) all [] none
    return ⟨String.ofList name, ret, args, callback⟩

/-- Reads and checks a function signature. -/
def parseAt (text : String) : Except SignatureError Signature := do
  let cs := trim text.toList
  let s ← readAt false cs (cs.length + 1)
  s.validate
  return s

/-! ## Parentheses and pieces -/

section Cuts

variable {head behind inside after cs : List Char} {isCallback : Bool}

theorem closeAmong_opening (offset : Nat) (rest : List (Nat × Char)) (depth : Nat) :
    closeAmong ((offset, '(') :: rest) depth = closeAmong rest (depth + 1) := by
  cases depth <;> rfl

theorem closeAmong_closing (offset : Nat) (rest : List (Nat × Char)) (depth : Nat) :
    closeAmong ((offset, ')') :: rest) (depth + 2) = closeAmong rest (depth + 1) :=
  rfl

theorem closeAmong_plain {c : Char} (hopen : c ≠ '(') (hclose : c ≠ ')') (offset : Nat) (rest : List (Nat × Char))
    (depth : Nat) : closeAmong ((offset, c) :: rest) depth = closeAmong rest depth := by
  simp [closeAmong, hopen, hclose]

/-- Inside of parentheses, the depth stays above zero until the last of them is closed. -/
theorem closeAmong_charOffsets (cs : List Char) (offset depth : Nat) :
    closeAmong (charOffsets cs offset) (depth + 1)
      = .ok ((cutAtClose? cs (depth + 1)).map fun (inside, _) => offset + byteLength inside) := by
  -- one character more is one more to walk over
  have hmap (offset : Nat) (c : Char) (found : Option (List Char × List Char)) :
      (found.map fun (inside, _) => offset + c.utf8Size + byteLength inside)
        = (found.map fun (inside, after) => (c :: inside, after)).map fun (inside, _) => offset + byteLength inside := by
    cases found <;> simp [Nat.add_assoc]
  induction cs generalizing offset depth with
  | nil => rfl
  | cons c rest ih =>
    rw [charOffsets]
    by_cases hopen : c = '('
    · subst hopen
      rw [closeAmong_opening, ih, cutAtClose?_opening, hmap]
    by_cases hclose : c = ')'
    · subst hclose
      cases depth with
      | zero => rfl
      | succ depth => rw [closeAmong_closing, ih, cutAtClose?_closing, hmap]
    · rw [closeAmong_plain hopen hclose, ih, cutAtClose?_plain hopen hclose, hmap]

theorem matchingClose_append (head behind : List Char) :
    matchingClose (head ++ '(' :: behind) (byteLength head)
      = .ok ((cutAtClose? behind 1).map fun (inside, _) => byteLength head + 1 + byteLength inside) := by
  have hdrop := Text.dropWhile_charOffsets head ('(' :: behind) 0
  rw [Nat.zero_add] at hdrop
  rw [matchingClose, hdrop, charOffsets, closeAmong_opening]
  exact closeAmong_charOffsets behind (byteLength head + 1) 0

theorem piecesAt_comma (cs : List Char) (offset : Nat) (rest : List (Nat × Char)) (start : Nat) :
    piecesAt cs ((offset, ',') :: rest) 0 start = demand (slice? cs start offset) >>= fun piece =>
      piecesAt cs rest 0 (offset + 1) >>= fun more => .ok (piece :: more) :=
  rfl

theorem piecesAt_cons {c : Char} {depth next : Nat} (hcomma : c = ',' → depth ≠ 0)
    (hnext : (if c == '(' then depth + 1 else if c == ')' then depth - 1 else depth) = next) (cs : List Char)
    (offset : Nat) (rest : List (Nat × Char)) (start : Nat) :
    piecesAt cs ((offset, c) :: rest) depth start = piecesAt cs rest next start := by
  have hsplit : (c == ',' && depth == 0) = false := by
    simpa using hcomma
  rw [piecesAt, hsplit, hnext]
  rfl

/-- The pieces, of which the first has been read in part. -/
theorem piecesAt_charOffsets {rest first : List Char} {more : List (List Char)} {depth : Nat} (done current : List Char)
    (h : pieces rest depth = first :: more) :
    piecesAt (done ++ (current ++ rest)) (charOffsets rest (byteLength done + byteLength current)) depth (byteLength done)
      = .ok ((current ++ first) :: more) := by
  induction rest generalizing done current depth first more with
  | nil =>
    cases h
    have hslice := Text.slice?_append done current []
    rw [List.append_nil] at hslice
    rw [charOffsets, piecesAt, List.append_nil, Text.byteLength_append, hslice]
    rfl
  | cons c rest ih =>
    rw [charOffsets]
    by_cases hcut : c = ',' ∧ depth = 0
    · obtain ⟨rfl, rfl⟩ := hcut
      obtain ⟨second, others, hrest⟩ := List.exists_cons_of_ne_nil (pieces_ne_nil rest 0)
      rw [pieces_comma, hrest] at h
      cases h
      have hmore := ih (done ++ current ++ [',']) [] hrest
      simp only [Text.byteLength_append, Text.byteLength_cons, Text.byteLength_nil, Nat.add_zero, List.append_assoc,
        List.nil_append, List.singleton_append, ← Nat.add_assoc] at hmore
      rw [piecesAt_comma, Text.slice?_append]
      change piecesAt _ _ 0 (byteLength done + byteLength current + ','.utf8Size) >>= _ = _
      rw [hmore, List.append_nil]
      rfl
    · have hcomma : c = ',' → depth ≠ 0 := fun hc hdepth => hcut ⟨hc, hdepth⟩
      obtain ⟨second, others, hrest⟩ := List.exists_cons_of_ne_nil
        (pieces_ne_nil rest (if c == '(' then depth + 1 else if c == ')' then depth - 1 else depth))
      rw [pieces_cons hcomma rfl hrest] at h
      cases h
      have hmore := ih done (current ++ [c]) hrest
      simp only [Text.byteLength_append, Text.byteLength_cons, Text.byteLength_nil, Nat.add_zero, List.append_assoc,
        List.singleton_append, ← Nat.add_assoc] at hmore
      rw [piecesAt_cons hcomma rfl, hmore]

end Cuts

/-! ## Names -/

section Names

variable {head before name : List Char}

/-- The name is cut where `cutName` cuts it. -/
theorem slice?_nameStart (hname : ∀ c ∈ name, isNameChar c = true)
    (hbefore : ∀ c ∈ before.getLast?, isNameChar c = false ∧ c.toNat < 0x80) :
    slice? (before ++ name) (nameStart (before ++ name)) (byteLength (before ++ name)) = some name
      ∧ slice? (before ++ name) 0 (nameStart (before ++ name)) = some before := by
  have hstart : nameStart (before ++ name) = byteLength before := by
    obtain rfl | ⟨front, c, rfl⟩ := List.eq_nil_or_concat' before
    · rw [nameStart, List.nil_append, Text.lastOffsetOf?_eq_none (by simpa using hname)]
      rfl
    · obtain ⟨hc, hascii⟩ := hbefore c (by simp)
      have hsize : c.utf8Size = 1 := Char.utf8Size_eq_one_iff.mpr (Nat.le_of_lt_succ hascii)
      rw [nameStart, List.append_assoc, List.singleton_append,
        Text.lastOffsetOf?_append (by simpa using hc) (by simpa using hname)]
      simp [hsize]
  have hname := Text.slice?_append before name []
  have hfront := Text.slice?_append [] before name
  simp only [List.append_nil, List.nil_append, Text.byteLength_nil, Nat.zero_add] at hname hfront
  rw [hstart, Text.byteLength_append]
  exact ⟨hname, hfront⟩

/-- Behind a character of several bytes, no name can be cut. -/
theorem slice?_nameStart_eq_none {c : Char} (hname : ∀ c ∈ name, isNameChar c = true) (hc : isNameChar c = false)
    (hwide : 0x80 ≤ c.toNat) (before : List Char) :
    slice? (before ++ c :: name) (nameStart (before ++ c :: name)) (byteLength (before ++ c :: name)) = none := by
  have hsize : c.utf8Size ≠ 1 := fun hone => by
    have hle : c.toNat ≤ 127 := Char.utf8Size_eq_one_iff.mp hone
    omega
  have hpos := c.utf8Size_pos
  rw [nameStart, Text.lastOffsetOf?_append (by simpa using hc) (by simpa using hname)]
  exact Text.slice?_eq_none (by decide) (by omega) before name

/-- By its offset, the name is read as it is without. -/
theorem readName_of_slices {β : Type} (head : List Char) (use : List Char × CType → Except SignatureError β) :
    (demand (slice? head (nameStart head) (byteLength head)) >>= fun name =>
        if name.isEmpty then .error .missingName
        else demand (slice? head 0 (nameStart head)) >>= fun before => readType before >>= fun ret => use (name, ret))
      = readName head >>= use := by
  rw [readName]
  obtain ⟨before, name, rfl, hname, hbefore, hcut⟩ | ⟨before, c, name, rfl, hname, hc, hsize, hcut⟩ := cutName_cases head
  · obtain ⟨hslice, hfront⟩ := slice?_nameStart hname hbefore
    rw [hcut, hslice, hfront]
    change (if name.isEmpty then _ else readType before >>= _) = (if name.isEmpty then _ else readType before >>= _) >>= _
    split
    · rfl
    · cases readType before <;> rfl
  · rw [hcut, slice?_nameStart_eq_none hname hc hsize]
    rfl

end Names

/-! ## Layouts -/

section Layouts

variable {head inside after cs : List Char} {isCallback : Bool}

/-- The slices around the first pair of parentheses. -/
theorem slices_of_pair (head inside after : List Char) :
    slice? (head ++ '(' :: (inside ++ ')' :: after)) 0 (byteLength head) = some head
      ∧ slice? (head ++ '(' :: (inside ++ ')' :: after)) (byteLength head + 1)
        (byteLength (head ++ '(' :: (inside ++ ')' :: after))) = some (inside ++ ')' :: after)
      ∧ slice? (head ++ '(' :: (inside ++ ')' :: after)) (byteLength head + 1) (byteLength head + 1 + byteLength inside)
        = some inside
      ∧ slice? (head ++ '(' :: (inside ++ ')' :: after)) (byteLength head + 1 + byteLength inside + 1)
        (byteLength (head ++ '(' :: (inside ++ ')' :: after))) = some after := by
  have hopen : '('.utf8Size = 1 := rfl
  have hclose : ')'.utf8Size = 1 := rfl
  refine ⟨?_, ?_, ?_, ?_⟩
  · simpa using Text.slice?_append [] head ('(' :: (inside ++ ')' :: after))
  · simpa [hopen, Nat.add_assoc] using Text.slice?_append (head ++ ['(']) (inside ++ ')' :: after) []
  · simpa [hopen, Nat.add_assoc] using Text.slice?_append (head ++ ['(']) inside (')' :: after)
  · simpa [hopen, hclose, Nat.add_assoc] using Text.slice?_append (head ++ '(' :: inside ++ [')']) after []

/-- The first opening parenthesis is found where the text is cut at it. -/
theorem offsetOf?_opening (cs : List Char) :
    offsetOf? (· == '(') cs = (cutAtOpen? cs).map fun (before, _) => byteLength before := by
  induction cs with
  | nil => rfl
  | cons c rest ih =>
    rw [offsetOf?, cutAtOpen?]
    split
    · rfl
    · rw [ih]
      cases cutAtOpen? rest <;> simp

/-- Where the parts of a prototype are, once the first pair of parentheses is known. -/
theorem layoutAt_append (hhead : '(' ∉ head) (hinside : Balanced inside) (isCallback : Bool) (after : List Char) :
    layoutAt (head ++ '(' :: (inside ++ ')' :: after)) isCallback =
      if (trimStart inside).head? = some '*' then
        match cutAtOpen? after with
        | none => .error .missingArguments
        | some (between, _) => readType head >>= fun ret =>
          .ok (trim ((trimStart inside).drop 1), ret, byteLength (head ++ '(' :: (inside ++ ')' :: between)))
      else if isCallback then
        .error (.unknownType (String.ofList (trim (head ++ '(' :: (inside ++ ')' :: after)))))
      else
        readName (trimEnd head) >>= fun part => .ok (part.1, part.2, byteLength head) := by
  obtain ⟨hslice, hbehind, hbetween, hafter⟩ := slices_of_pair head inside after
  have hopening : offsetOf? (· == '(') (head ++ '(' :: (inside ++ ')' :: after)) = some (byteLength head) :=
    Text.offsetOf?_append rfl (by rintro d hd; simpa using ne_of_mem_of_not_mem hd hhead) _
  rw [layoutAt, hopening]
  dsimp only
  rw [matchingClose_append, cutAtClose?_append hinside]
  dsimp only [Option.map_some]
  change (demand (slice? _ (byteLength head + 1) _) >>= _) = _
  rw [hbehind]
  change (if (trimStart (inside ++ ')' :: after)).head? = some '*' then _ else _) = _
  simp only [head?_trimStart_append]
  split
  · rename_i hstar
    obtain ⟨named, hnamed⟩ := List.head?_eq_some_iff.mp hstar
    have hname : slice? ('*' :: named) 1 (byteLength ('*' :: named)) = some named := by
      simpa [show '*'.utf8Size = 1 from rfl] using Text.slice?_append ['*'] named []
    rw [hbetween]
    change (demand (slice? (trimStart inside) 1 _) >>= _) = _
    rw [hnamed, hname]
    change (demand (slice? _ (byteLength head + 1 + byteLength inside + 1) _) >>= _) = _
    rw [hafter]
    change (match offsetOf? (· == '(') after with | none => _ | some args => _) = _
    rw [offsetOf?_opening]
    cases hopen : cutAtOpen? after with
    | none => rfl
    | some cut =>
      obtain ⟨between, argsOn⟩ := cut
      dsimp only [Option.map_some]
      rw [hslice]
      have hoffset : byteLength head + 1 + byteLength inside + 1 + byteLength between
          = byteLength (head ++ '(' :: (inside ++ ')' :: between)) := by
        simp only [Text.byteLength_append, Text.byteLength_cons, show '('.utf8Size = 1 from rfl,
          show ')'.utf8Size = 1 from rfl]
        omega
      rw [← hoffset]
      rfl
  · split
    · rfl
    · rw [hslice]
      exact readName_of_slices (trimEnd head) fun part => .ok (part.1, part.2, byteLength head)

/-- By offsets, the parts of a prototype are found where `layout` finds them, or there is the same error. -/
theorem layoutAt_spec (cs : List Char) (isCallback : Bool) :
    (∃ e, layout cs isCallback = .error e ∧ layoutAt cs isCallback = .error e)
      ∨ ∃ parts head, layout cs isCallback = .ok parts ∧ cs = head ++ '(' :: parts.argsOn
        ∧ layoutAt cs isCallback = .ok (parts.name, parts.ret, byteLength head) := by
  rcases pair_cases cs with hopen | ⟨head, behind, rfl, hhead, hclose⟩ | ⟨head, inside, after, rfl, hhead, hinside⟩
  · refine .inl ⟨_, layout_of_unopened hopen isCallback, ?_⟩
    rw [layoutAt, offsetOf?_opening, hopen]
    rfl
  · refine .inl ⟨_, layout_of_unclosed hhead hclose isCallback, ?_⟩
    rw [layoutAt, offsetOf?_opening, cutAtOpen?_append hhead]
    dsimp only [Option.map_some]
    rw [matchingClose_append, hclose]
    rfl
  rw [layout_append hhead hinside, layoutAt_append hhead hinside]
  split
  · cases hargs : cutAtOpen? after with
    | none => exact .inl ⟨_, rfl, rfl⟩
    | some cut =>
      obtain ⟨between, argsOn⟩ := cut
      obtain ⟨rfl, -⟩ := of_cutAtOpen? hargs
      cases readType head with
      | error e => exact .inl ⟨e, rfl, rfl⟩
      | ok ret => exact .inr ⟨_, head ++ '(' :: (inside ++ ')' :: between), rfl, by simp, rfl⟩
  · split
    · exact .inl ⟨_, rfl, rfl⟩
    · cases readName (trimEnd head) with
      | error e => exact .inl ⟨e, rfl, rfl⟩
      | ok part => exact .inr ⟨_, head, rfl, rfl, rfl⟩

end Layouts

/-! ## Texts -/

section Texts

variable {isCallback : Bool} {inside cs : List Char}
  {reader reader' : List Char → Except SignatureError Signature}

theorem readArgs_congr {pieces : List (List Char)} (h : ∀ piece ∈ pieces, reader piece = reader' piece)
    (args : List CType) (callback : Option Signature) :
    readArgs isCallback reader pieces args callback = readArgs isCallback reader' pieces args callback := by
  induction pieces generalizing args callback with
  | nil => rfl
  | cons piece rest ih =>
    obtain ⟨hpiece, hrest⟩ := List.forall_mem_cons.mp h
    unfold readArgs
    rw [hpiece]
    simp only [ih hrest]

/-- Callbacks are shorter than what stands in the parentheses. -/
theorem readInside_congr (hinside : Balanced inside) (h : ∀ text, text.length ≤ inside.length → reader text = reader' text) :
    readInside isCallback reader inside = readInside isCallback reader' inside := by
  obtain ⟨-, hjoined, -⟩ := (pieces_eq_iff hinside).mp rfl
  unfold readInside
  rw [readArgs_congr fun piece hpiece => h _ ?_]
  calc (trim piece).length ≤ piece.length := Text.length_trim_le piece
    _ ≤ ([','].intercalate (pieces inside 0)).length := length_le_intercalate hpiece
    _ = inside.length := by rw [← hjoined]

/-- What is between two parentheses is taken apart by offsets as it is without. -/
theorem piecesAt_eq (inside : List Char) : piecesAt inside (charOffsets inside 0) 0 0 = .ok (pieces inside 0) := by
  obtain ⟨first, more, hpieces⟩ := List.exists_cons_of_ne_nil (pieces_ne_nil inside 0)
  rw [hpieces]
  exact piecesAt_charOffsets [] [] hpieces

theorem areNone_pieces (hinside : Balanced inside) :
    areNone (pieces inside 0)
      = ((pieces inside 0).length == 1 && (CType.ofChars? inside == some .void || (trim inside).isEmpty)) := by
  obtain ⟨-, hjoined, -⟩ := (pieces_eq_iff hinside).mp rfl
  generalize pieces inside 0 = all at hjoined
  match all with
  | [] => rfl
  | [piece] => simp [areNone, hjoined, List.intercalate]
  | _ :: _ :: _ => simp [areNone]

theorem read_of_unclosed {budget : Nat} {parts : Layout} (hlayout : layout cs isCallback = .ok parts)
    (hclose : cutAtClose? parts.argsOn 1 = none) : read isCallback cs (budget + 1) = .error .unbalanced := by
  rw [read, hlayout]
  change (match cutAtClose? parts.argsOn 1 with | none => _ | some (inside, _) => _) = _
  rw [hclose]
  rfl

/-- With a budget that its length covers, a text is read by offsets as it is without. -/
theorem readAt_eq (isCallback : Bool) (cs : List Char) (budget : Nat) (hbudget : cs.length ≤ budget) :
    readAt isCallback cs (budget + 1) = read isCallback cs budget := by
  induction budget generalizing isCallback cs with
  | zero =>
    obtain rfl := List.eq_nil_of_length_eq_zero (Nat.le_zero.mp hbudget)
    rfl
  | succ budget ih =>
    rcases layoutAt_spec cs isCallback with ⟨e, hlayout, hat⟩ | ⟨parts, head, hlayout, hcs, hat⟩
    · rw [readAt, hat, read, hlayout]
      rfl
    · rw [readAt, hat]
      change (matchingClose cs (byteLength head) >>= _) = _
      cases hclose : cutAtClose? parts.argsOn 1 with
      | none =>
        rw [read_of_unclosed hlayout hclose, hcs, matchingClose_append, hclose]
        rfl
      | some cut =>
        obtain ⟨inside, after⟩ := cut
        obtain ⟨hargs, hinside⟩ := of_cutAtClose? hclose
        obtain ⟨-, -, hslice, -⟩ := slices_of_pair head inside after
        have hshort : inside.length ≤ budget := by
          have hlength := congrArg List.length hcs
          simp only [hargs, List.length_append, List.length_cons] at hlength
          omega
        rw [read_of_layout hlayout hargs hinside,
          ← readInside_congr hinside fun text htext => ih true text (htext.trans hshort)]
        rw [hcs, matchingClose_append, hclose, hargs]
        change (demand (slice? _ (byteLength head + 1) (byteLength head + 1 + byteLength inside)) >>= _) = _
        rw [hslice]
        change (piecesAt inside (charOffsets inside 0) 0 0 >>= _) = _
        rw [piecesAt_eq]
        change (if areNone (pieces inside 0) then _ else _) = _
        rw [areNone_pieces hinside]
        unfold readInside
        split <;> rfl

theorem parseAt_eq (text : String) : parseAt text = parse text := by
  dsimp only [parseAt, parse]
  rw [readAt_eq false _ _ le_rfl]

end Texts

/-! ## Names that are cut -/

/-- A prototype with its name in front of the arguments, behind a character of several bytes. -/
def CutsName (cs : List Char) : Prop :=
  ∃ head inside after before c name, cs = head ++ '(' :: (inside ++ ')' :: after) ∧ '(' ∉ head ∧ Balanced inside
    ∧ (trimStart inside).head? ≠ some '*' ∧ trimEnd head = before ++ c :: name ∧ (∀ d ∈ name, isNameChar d = true)
    ∧ 0x80 ≤ c.toNat

section CutNames

variable {isCallback : Bool} {cs inside : List Char} {reader : List Char → Except SignatureError Signature}

theorem bind_ne_cut {α β : Type} {x : Except SignatureError α} {f : α → Except SignatureError β}
    (hx : x ≠ .error .cutCharacter) (hf : ∀ a, f a ≠ .error .cutCharacter) : x >>= f ≠ .error .cutCharacter := by
  cases x with
  | ok a => exact hf a
  | error e => exact fun h => hx (by cases h; rfl)

theorem readType_ne_cut (cs : List Char) : readType cs ≠ .error .cutCharacter := by
  unfold readType
  split <;> simp

/-- The name is cut where the character in front of it takes several bytes. -/
theorem cutName_eq_cut_iff {head : List Char} : cutName head = .error .cutCharacter
    ↔ ∃ before c name, head = before ++ c :: name ∧ (∀ d ∈ name, isNameChar d = true) ∧ 0x80 ≤ c.toNat := by
  constructor
  · intro h
    obtain ⟨_, _, _, _, _, hcut⟩ | ⟨before, c, name, hhead, hname, -, hwide, -⟩ := cutName_cases head
    · rw [hcut] at h
      cases h
    · exact ⟨before, c, name, hhead, hname, hwide⟩
  · rintro ⟨before, c, name, rfl, hname, hwide⟩
    have hc : isNameChar c = false := by
      by_contra hchar
      have := isNameChar_iff.mp (by simpa using hchar)
      omega
    exact cutName_append_wide hname hc hwide before

theorem readName_eq_cut_iff {head : List Char} : readName head = .error .cutCharacter
    ↔ ∃ before c name, head = before ++ c :: name ∧ (∀ d ∈ name, isNameChar d = true) ∧ 0x80 ≤ c.toNat := by
  rw [← cutName_eq_cut_iff, readName]
  cases cutName head with
  | error e => exact ⟨fun h => by cases h; rfl, fun h => by cases h; rfl⟩
  | ok cut =>
    refine iff_of_false ?_ (by simp)
    change (if cut.2.isEmpty then _ else _) ≠ _
    split
    · simp
    · exact bind_ne_cut (readType_ne_cut cut.1) fun _ => by simp

theorem layout_eq_cut_iff : layout cs isCallback = .error .cutCharacter ↔ isCallback = false ∧ CutsName cs := by
  constructor
  · intro h
    rcases pair_cases cs with hopen | ⟨head, behind, rfl, hhead, hclose⟩ | ⟨head, inside, after, rfl, hhead, hinside⟩
    · rw [layout_of_unopened hopen] at h
      cases h
    · rw [layout_of_unclosed hhead hclose] at h
      cases h
    rw [layout_append hhead hinside] at h
    split at h
    · split at h
      · cases h
      · exact absurd h (bind_ne_cut (readType_ne_cut head) fun _ => by simp)
    · rename_i hstar
      split at h
      · cases h
      · rename_i hfunction
        cases hpart : readName (trimEnd head) with
        | ok part =>
          rw [hpart] at h
          cases h
        | error e =>
          rw [hpart] at h
          cases h
          obtain ⟨before, c, name, hcut⟩ := readName_eq_cut_iff.mp hpart
          exact ⟨by simpa using hfunction, head, inside, after, before, c, name, rfl, hhead, hinside, hstar, hcut⟩
  · rintro ⟨rfl, head, inside, after, before, c, name, rfl, hhead, hinside, hstar, hcut⟩
    rw [layout_append hhead hinside, if_neg hstar, if_neg (by decide), readName_eq_cut_iff.mpr ⟨before, c, name, hcut⟩]
    rfl

theorem readArgs_ne_cut {pieces : List (List Char)} (h : ∀ piece, reader piece ≠ .error .cutCharacter)
    (args : List CType) (callback : Option Signature) :
    readArgs isCallback reader pieces args callback ≠ .error .cutCharacter := by
  have hon (rest : List (List Char)) (ih : ∀ args callback, readArgs isCallback reader rest args callback ≠ .error .cutCharacter)
      (args : List CType) (arg : CType) (callback : Option Signature) :
      readOn isCallback reader rest args arg callback ≠ .error .cutCharacter := by
    unfold readOn
    split
    · simp
    · exact ih _ _
  induction pieces generalizing args callback with
  | nil => simp [readArgs]
  | cons piece rest ih =>
    by_cases hopen : '(' ∈ piece
    · cases callback with
      | some known =>
        rw [readArgs_second hopen]
        simp
      | none =>
        rw [readArgs_callback hopen]
        exact bind_ne_cut (h piece) fun cb => hon rest ih args .callback (some cb)
    · rw [readArgs_value hopen]
      exact bind_ne_cut (readType_ne_cut piece) fun type => hon rest ih args type callback

theorem readInside_ne_cut (h : ∀ text, reader text ≠ .error .cutCharacter) (inside : List Char) :
    readInside isCallback reader inside ≠ .error .cutCharacter := by
  unfold readInside
  split
  · simp
  · exact readArgs_ne_cut (fun piece => h (trim piece)) [] none

theorem read_eq_cut_iff_layout {budget : Nat} (h : ∀ text, read true text budget ≠ .error .cutCharacter) :
    read isCallback cs (budget + 1) = .error .cutCharacter ↔ layout cs isCallback = .error .cutCharacter := by
  cases hlayout : layout cs isCallback with
  | error e =>
    rw [read, hlayout]
    exact ⟨fun h => by cases h; rfl, fun h => by cases h; rfl⟩
  | ok parts =>
    refine iff_of_false ?_ (by simp)
    cases hclose : cutAtClose? parts.argsOn 1 with
    | none =>
      rw [read_of_unclosed hlayout hclose]
      simp
    | some cut =>
      obtain ⟨inside, after⟩ := cut
      obtain ⟨hargs, hinside⟩ := of_cutAtClose? hclose
      rw [read_of_layout hlayout hargs hinside]
      exact bind_ne_cut (readInside_ne_cut h inside) fun _ => by simp

/-- The text of a callback starts with its type, so there is no name to cut. -/
theorem read_callback_ne_cut (cs : List Char) (budget : Nat) : read true cs budget ≠ .error .cutCharacter := by
  induction budget generalizing cs with
  | zero => simp [read]
  | succ budget ih =>
    rw [Ne, read_eq_cut_iff_layout fun text => ih text, layout_eq_cut_iff]
    exact fun h => absurd h.1 (by decide)

theorem checkArgs_ne_cut (types : List CType) (place : Nat) (seen : Option Nat) :
    checkArgs isCallback place seen types ≠ .error .cutCharacter := by
  induction types generalizing place seen with
  | nil => simp [checkArgs]
  | cons type rest ih =>
    cases type <;> cases seen <;> cases isCallback <;> first | exact ih _ _ | exact fun h => by cases h

theorem validateCallback_ne_cut (s : Signature) : s.validateCallback ≠ .error .cutCharacter := by
  unfold validateCallback
  dsimp only
  split
  · exact fun h => by cases h
  · refine bind_ne_cut (checkArgs_ne_cut s.args 0 none) fun found => ?_
    split <;> exact fun h => by cases h

theorem validate_ne_cut (s : Signature) : s.validate ≠ .error .cutCharacter := by
  unfold validate
  dsimp only
  split
  · exact fun h => by cases h
  · refine bind_ne_cut (checkArgs_ne_cut s.args 0 none) fun found => ?_
    split
    · exact fun h => by cases h
    · split
      · exact validateCallback_ne_cut _
      · exact fun h => by cases h

end CutNames

theorem parse_eq_cut_iff {text : String} : parse text = .error .cutCharacter ↔ CutsName (trim text.toList) := by
  have hread : read false (trim text.toList) (trim text.toList).length = .error .cutCharacter
      ↔ CutsName (trim text.toList) := by
    cases hlength : (trim text.toList).length with
    | zero =>
      refine iff_of_false (by simp [read]) ?_
      rintro ⟨head, inside, after, _, _, _, hcs, -⟩
      rw [List.eq_nil_of_length_eq_zero hlength] at hcs
      simp at hcs
    | succ budget =>
      rw [read_eq_cut_iff_layout fun text => read_callback_ne_cut text budget, layout_eq_cut_iff]
      simp
  rw [← hread]
  dsimp only [parse]
  cases hresult : read false (trim text.toList) (trim text.toList).length with
  | error e => exact ⟨fun h => by cases h; rfl, fun h => by cases h; rfl⟩
  | ok s =>
    refine iff_of_false (bind_ne_cut (by simp) fun s => bind_ne_cut (validate_ne_cut s) fun _ => ?_) (by simp)
    exact fun h => by cases h

/-- Read with every cut checked, a text gives what it gives without. There is one cut that is not there, that of a name
behind a character of several bytes; every other text is a signature or an error of type. -/
theorem parseAt_spec (text : String) :
    parseAt text = parse text ∧ (parseAt text = .error .cutCharacter ↔ CutsName (trim text.toList))
      ∧ (¬ CutsName (trim text.toList) →
        (∃ s, parseAt text = .ok s) ∨ ∃ e, parseAt text = .error e ∧ e.toError = .type e.message) := by
  rw [parseAt_eq, ← parse_eq_cut_iff]
  refine ⟨rfl, Iff.rfl, fun hnot => ?_⟩
  cases hresult : parse text with
  | ok s => exact .inl ⟨s, rfl⟩
  | error e =>
    refine .inr ⟨e, rfl, ?_⟩
    cases e with
    | cutCharacter => exact absurd hresult hnot
    | _ => rfl

theorem parseAt_spec_unclosed :
    (∃ s, parseAt "int f(int" = .ok s) ∨ ∃ e, parseAt "int f(int" = .error e ∧ e.toError = .type e.message := by
  obtain ⟨-, hcut, hother⟩ := parseAt_spec "int f(int"
  have hunbalanced : parseAt "int f(int" = .error .unbalanced := rfl
  refine hother (mt hcut.mpr ?_)
  rw [hunbalanced]
  simp

/-- A name that is cut inside the two bytes of the letter in front of it. -/
theorem name_cut_inside_character :
    slice? "éf".toList (nameStart "éf".toList) (byteLength "éf".toList) = none
      ∧ parseAt "éf()" = .error .cutCharacter :=
  ⟨rfl, rfl⟩

end ScriptEngine.Ffi.Signature
