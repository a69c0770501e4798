import ScriptEngine.Ffi.Signature
/-!
Parentheses of a prototype.

A text is cut at its first opening parenthesis (`cutAtOpen?_append`, `of_cutAtOpen?`), at the one that closes it
(`cutAtClose?_append`, `of_cutAtClose?`), and what stands between the two at the commas that no parenthesis encloses
(`pieces_eq_iff`). Each cut is found just where the text can be put together again from the parts.
-/

namespace ScriptEngine.Ffi.Signature

/-- A text that starts inside of `depth` parentheses, and closes these and no others. Outside of all parentheses it has
only characters of one kind. -/
inductive Nested (Outside : Char → Prop) : Nat → List Char → Prop
  | nil : Nested Outside 0 []
  | plain {depth : Nat} {c : Char} {rest : List Char} :
      c ≠ '(' → c ≠ ')' → (depth = 0 → Outside c) → Nested Outside depth rest → Nested Outside depth (c :: rest)
  | opening {depth : Nat} {rest : List Char} :
      Nested Outside (depth + 1) rest → Nested Outside depth ('(' :: rest)
  | closing {depth : Nat} {rest : List Char} :
      Nested Outside depth rest → Nested Outside (depth + 1) (')' :: rest)

/-- Every parenthesis has its partner. -/
abbrev Balanced (cs : List Char) : Prop :=
  Nested (fun _ => True) 0 cs

/-- Every parenthesis has its partner, and every comma stands inside of some. -/
abbrev Piece (cs : List Char) : Prop :=
  Nested (· ≠ ',') 0 cs

variable {Outside : Char → Prop} {depth : Nat} {cs rest head behind inside after first : List Char}

theorem Nested.balanced (h : Nested Outside depth cs) : Nested (fun _ => True) depth cs := by
  induction h with
  | nil => exact .nil
  | plain hopen hclose _ _ ih => exact .plain hopen hclose (fun _ => trivial) ih
  | opening _ ih => exact .opening ih
  | closing _ ih => exact .closing ih

/-- Behind a text that closes everything, another one goes on. -/
theorem Nested.append (h : Nested Outside depth cs) (hrest : Nested Outside 0 rest) :
    Nested Outside depth (cs ++ rest) := by
  induction h with
  | nil => exact hrest
  | plain hopen hclose hout _ ih => exact .plain hopen hclose hout ih
  | opening _ ih => exact .opening ih
  | closing _ ih => exact .closing ih

theorem nested_of_plain (h : ∀ c ∈ cs, c ≠ '(' ∧ c ≠ ')' ∧ Outside c) : Nested Outside 0 cs := by
  induction cs with
  | nil => exact .nil
  | cons c rest ih =>
    obtain ⟨⟨hopen, hclose, hout⟩, hrest⟩ := List.forall_mem_cons.mp h
    exact .plain hopen hclose (fun _ => hout) (ih hrest)

/-- What stands in front of the first parenthesis may be left out. -/
theorem Nested.of_append (hplain : ∀ c ∈ cs, c ≠ '(' ∧ c ≠ ')') (h : Nested Outside depth (cs ++ rest)) :
    Nested Outside depth rest := by
  induction cs with
  | nil => exact h
  | cons c cs ih =>
    obtain ⟨⟨hopen, hclose⟩, hrest⟩ := List.forall_mem_cons.mp hplain
    cases h with
    | plain _ _ _ h => exact ih hrest h
    | opening => exact absurd rfl hopen
    | closing => exact absurd rfl hclose

/-- What stands behind the last parenthesis may be left out. -/
theorem Nested.of_append_right (hplain : ∀ c ∈ rest, c ≠ '(' ∧ c ≠ ')') (h : Nested Outside depth (cs ++ rest)) :
    Nested Outside depth cs := by
  induction cs generalizing depth with
  | nil => exact Nested.of_append hplain (by simpa using h)
  | cons c cs ih =>
    cases h with
    | plain hopen hclose hout h => exact .plain hopen hclose hout (ih h)
    | opening h => exact .opening (ih h)
    | closing h => exact .closing (ih h)

/-- A text that closes `extra + 1` parentheses of those around it is cut in two where it closes the last of them. -/
theorem Nested.exists_close {extra : Nat} (h : Nested Outside (depth + 1 + extra) cs) :
    ∃ inside after, cs = inside ++ ')' :: after ∧ Nested (fun _ => True) extra inside ∧ Nested Outside depth after := by
  generalize htotal : depth + 1 + extra = total at h
  induction h generalizing extra with
  | nil => omega
  | @plain total c rest hopen hclose _ _ ih =>
    obtain ⟨inside, after, rfl, hinside, hafter⟩ := ih htotal
    exact ⟨c :: inside, after, rfl, .plain hopen hclose (fun _ => trivial) hinside, hafter⟩
  | @opening total rest _ ih =>
    have hdeeper : depth + 1 + (extra + 1) = total + 1 := by omega
    obtain ⟨inside, after, rfl, hinside, hafter⟩ := ih hdeeper
    exact ⟨'(' :: inside, after, rfl, .opening hinside, hafter⟩
  | @closing total rest hrest ih =>
    cases extra with
    | zero =>
      obtain rfl : depth = total := by omega
      exact ⟨[], rest, rfl, .nil, hrest⟩
    | succ extra =>
      have hless : depth + 1 + extra = total := by omega
      obtain ⟨inside, after, rfl, hinside, hafter⟩ := ih hless
      exact ⟨')' :: inside, after, rfl, .closing hinside, hafter⟩

/-- Inside of parentheses any character may stand. -/
theorem Nested.enclosed {extra : Nat} (h : Nested (fun _ => True) extra inside) (hafter : Nested Outside depth after) :
    Nested Outside (depth + 1 + extra) (inside ++ ')' :: after) := by
  induction h with
  | nil => exact .closing hafter
  | plain hopen hclose _ _ ih => exact .plain hopen hclose (fun hdepth => by omega) ih
  | opening _ ih => exact .opening ih
  | closing _ ih => exact .closing ih

/-- The first opening parenthesis and the one that closes it. -/
theorem Nested.exists_pair (h : Nested Outside depth cs) (hopen : '(' ∈ cs) :
    ∃ head inside after, cs = head ++ '(' :: (inside ++ ')' :: after) ∧ '(' ∉ head ∧ Balanced inside := by
  induction h with
  | nil => cases hopen
  | @plain depth c rest hc _ _ _ ih =>
    obtain ⟨head, inside, after, rfl, hhead, hinside⟩ := ih ((List.mem_cons.mp hopen).resolve_left hc.symm)
    exact ⟨c :: head, inside, after, rfl, List.not_mem_cons_of_ne_of_not_mem hc.symm hhead, hinside⟩
  | @opening depth rest h =>
    have hone : Nested Outside (depth + 1 + 0) rest := h
    obtain ⟨inside, after, rfl, hinside, -⟩ := hone.exists_close
    exact ⟨[], inside, after, rfl, by simp, hinside⟩
  | @closing depth rest _ ih =>
    obtain ⟨head, inside, after, rfl, hhead, hinside⟩ := ih ((List.mem_cons.mp hopen).resolve_left (by decide))
    exact ⟨')' :: head, inside, after, rfl, List.not_mem_cons_of_ne_of_not_mem (by decide) hhead, hinside⟩

/-! ## The first opening parenthesis -/

theorem cutAtOpen?_append (h : '(' ∉ head) (behind : List Char) :
    cutAtOpen? (head ++ '(' :: behind) = some (head, behind) := by
  induction head with
  | nil => rfl
  | cons c head ih =>
    have hc : c ≠ '(' := (List.ne_of_not_mem_cons h).symm
    rw [List.cons_append, cutAtOpen?, if_neg (by simpa using hc), ih (List.not_mem_of_not_mem_cons h)]
    rfl

theorem of_cutAtOpen? (h : cutAtOpen? cs = some (head, behind)) : cs = head ++ '(' :: behind ∧ '(' ∉ head := by
  induction cs generalizing head with
  | nil => cases h
  | cons c rest ih =>
    rw [cutAtOpen?] at h
    split at h
    · rename_i hc
      cases h
      exact ⟨by rw [beq_iff_eq.mp hc, List.nil_append], by simp⟩
    · rename_i hc
      obtain ⟨⟨before, behind'⟩, hrest, heq⟩ := Option.map_eq_some_iff.mp h
      cases heq
      obtain ⟨rfl, hbefore⟩ := ih hrest
      exact ⟨rfl, List.not_mem_cons_of_ne_of_not_mem (fun hopen => hc (beq_iff_eq.mpr hopen.symm)) hbefore⟩

/-! ## The parenthesis that closes -/

/-! One step of the cut, by the character at the start. -/

theorem cutAtClose?_opening (rest : List Char) (depth : Nat) :
    cutAtClose? ('(' :: rest) depth = (cutAtClose? rest (depth + 1)).map fun (inside, after) => ('(' :: inside, after) :=
  rfl

theorem cutAtClose?_closing (rest : List Char) (depth : Nat) :
    cutAtClose? (')' :: rest) (depth + 2)
      = (cutAtClose? rest (depth + 1)).map fun (inside, after) => (')' :: inside, after) :=
  rfl

theorem cutAtClose?_closes (rest : List Char) : cutAtClose? (')' :: rest) 1 = some ([], rest) :=
  rfl

theorem cutAtClose?_plain {c : Char} (hopen : c ≠ '(') (hclose : c ≠ ')') (rest : List Char) (depth : Nat) :
    cutAtClose? (c :: rest) depth = (cutAtClose? rest depth).map fun (inside, after) => (c :: inside, after) := by
  simp [cutAtClose?, hopen, hclose]

theorem cutAtClose?_append (h : Nested Outside depth inside) (after : List Char) :
    cutAtClose? (inside ++ ')' :: after) (depth + 1) = some (inside, after) := by
  induction h with
  | nil => rfl
  | plain hopen hclose _ _ ih => rw [List.cons_append, cutAtClose?_plain hopen hclose, ih, Option.map_some]
  | opening _ ih => rw [List.cons_append, cutAtClose?_opening, ih, Option.map_some]
  | closing _ ih => rw [List.cons_append, cutAtClose?_closing, ih, Option.map_some]

theorem of_cutAtClose? (h : cutAtClose? cs (depth + 1) = some (inside, after)) :
    cs = inside ++ ')' :: after ∧ Nested (fun _ => True) depth inside := by
  induction cs generalizing depth inside with
  | nil => cases h
  | cons c rest ih =>
    by_cases hopen : c = '('
    · subst hopen
      rw [cutAtClose?_opening] at h
      obtain ⟨⟨inside', after'⟩, hrest, heq⟩ := Option.map_eq_some_iff.mp h
      cases heq
      obtain ⟨rfl, hinside⟩ := ih hrest
      exact ⟨rfl, .opening hinside⟩
    by_cases hclose : c = ')'
    · subst hclose
      cases depth with
      | zero =>
        rw [cutAtClose?_closes] at h
        cases h
        exact ⟨rfl, .nil⟩
      | succ depth =>
        rw [cutAtClose?_closing] at h
        obtain ⟨⟨inside', after'⟩, hrest, heq⟩ := Option.map_eq_some_iff.mp h
        cases heq
        obtain ⟨rfl, hinside⟩ := ih hrest
        exact ⟨rfl, .closing hinside⟩
    · rw [cutAtClose?_plain hopen hclose] at h
      obtain ⟨⟨inside', after'⟩, hrest, heq⟩ := Option.map_eq_some_iff.mp h
      cases heq
      obtain ⟨rfl, hinside⟩ := ih hrest
      exact ⟨rfl, .plain hopen hclose (fun _ => trivial) hinside⟩

/-- The first pair of parentheses is in one place. -/
theorem pair_unique {head' inside' after' : List Char}
    (h : head ++ '(' :: (inside ++ ')' :: after) = head' ++ '(' :: (inside' ++ ')' :: after'))
    (hhead : '(' ∉ head) (hhead' : '(' ∉ head') (hinside : Balanced inside) (hinside' : Balanced inside') :
    head = head' ∧ inside = inside' ∧ after = after' := by
  have hopen := cutAtOpen?_append hhead (inside ++ ')' :: after)
  rw [h, cutAtOpen?_append hhead', Option.some.injEq, Prod.mk.injEq] at hopen
  obtain ⟨rfl, hbehind⟩ := hopen
  have hclose := cutAtClose?_append hinside after
  rw [← hbehind, cutAtClose?_append hinside', Option.some.injEq, Prod.mk.injEq] at hclose
  exact ⟨rfl, hclose.1.symm, hclose.2.symm⟩

/-! ## Pieces -/

/-! One step of the split, by the character at the start. -/

theorem pieces_ne_nil (cs : List Char) (depth : Nat) : pieces cs depth ≠ [] := by
  cases cs with
  | nil => simp [pieces]
  | cons c rest =>
    rw [pieces]
    split
    · simp
    · dsimp only
      split <;> simp

theorem pieces_comma (rest : List Char) : pieces (',' :: rest) 0 = [] :: pieces rest 0 :=
  rfl

theorem pieces_cons {c : Char} {next : Nat} {more : List (List Char)} (hcomma : c = ',' → depth ≠ 0)
    (hnext : (if c == '(' then depth + 1 else if c == ')' then depth - 1 else depth) = next)
    (h : pieces rest next = first :: more) : pieces (c :: rest) depth = (c :: first) :: more := by
  have hsplit : (c == ',' && depth == 0) = false := by
    simpa using hcomma
  simp only [pieces, hsplit, hnext, h]
  rfl

/-- A text that closes what is open, with commas inside of parentheses only, goes in front of the first piece. -/
theorem pieces_append {more : List (List Char)} (h : Nested (· ≠ ',') depth cs) (hrest : pieces rest 0 = first :: more) :
    pieces (cs ++ rest) depth = (cs ++ first) :: more := by
  induction h with
  | nil => exact hrest
  | plain hopen hclose hout _ ih =>
    exact pieces_cons (fun hcomma hdepth => hout hdepth hcomma) (by simp [hopen, hclose]) ih
  | opening _ ih => exact pieces_cons (by simp) rfl ih
  | closing _ ih => exact pieces_cons (by simp) rfl ih

theorem pieces_intercalate {all : List (List Char)} (h : ∀ piece ∈ all, Piece piece) (hne : all ≠ []) :
    pieces ([','].intercalate all) 0 = all := by
  induction all with
  | nil => exact absurd rfl hne
  | cons first more ih =>
    obtain ⟨hfirst, hmore⟩ := List.forall_mem_cons.mp h
    cases more with
    | nil =>
      have hempty : pieces [] 0 = [[]] := rfl
      simpa [List.intercalate] using pieces_append hfirst hempty
    | cons second more =>
      have hrest : pieces (',' :: [','].intercalate (second :: more)) 0 = [] :: second :: more := by
        rw [pieces_comma, ih hmore (by simp)]
      simpa [List.intercalate] using pieces_append hfirst hrest

/-- Text that closes everything is split into pieces, of which the first starts inside of what is open. -/
theorem exists_pieces (h : Nested (fun _ => True) depth cs) :
    ∃ first more, pieces cs depth = first :: more ∧ cs = [','].intercalate (first :: more)
      ∧ Nested (· ≠ ',') depth first ∧ ∀ piece ∈ more, Piece piece := by
  -- the first piece with one more character in front
  have hgrow (c : Char) (first : List Char) (more : List (List Char)) :
      c :: [','].intercalate (first :: more) = [','].intercalate ((c :: first) :: more) := by
    cases more <;> simp [List.intercalate]
  induction h with
  | nil => exact ⟨[], [], rfl, rfl, .nil, by simp⟩
  | @plain depth c rest hopen hclose _ _ ih =>
    obtain ⟨first, more, hpieces, rfl, hfirst, hmore⟩ := ih
    by_cases hcut : c = ',' ∧ depth = 0
    · obtain ⟨rfl, rfl⟩ := hcut
      refine ⟨[], first :: more, by rw [pieces_comma, hpieces], by simp [List.intercalate], .nil, ?_⟩
      exact List.forall_mem_cons.mpr ⟨hfirst, hmore⟩
    · have hcomma : c = ',' → depth ≠ 0 := fun hc hdepth => hcut ⟨hc, hdepth⟩
      refine ⟨c :: first, more, pieces_cons hcomma (by simp [hopen, hclose]) hpieces, hgrow .., ?_, hmore⟩
      exact .plain hopen hclose (fun hdepth hc => hcomma hc hdepth) hfirst
  | opening _ ih =>
    obtain ⟨first, more, hpieces, rfl, hfirst, hmore⟩ := ih
    exact ⟨'(' :: first, more, pieces_cons (by simp) rfl hpieces, hgrow .., .opening hfirst, hmore⟩
  | closing _ ih =>
    obtain ⟨first, more, hpieces, rfl, hfirst, hmore⟩ := ih
    exact ⟨')' :: first, more, pieces_cons (by simp) rfl hpieces, hgrow .., .closing hfirst, hmore⟩

theorem pieces_eq_iff {all : List (List Char)} (h : Balanced cs) :
    pieces cs 0 = all ↔ all ≠ [] ∧ cs = [','].intercalate all ∧ ∀ piece ∈ all, Piece piece := by
  constructor
  · rintro rfl
    obtain ⟨first, more, hpieces, hcs, hfirst, hmore⟩ := exists_pieces h
    rw [hpieces]
    exact ⟨by simp, hcs, List.forall_mem_cons.mpr ⟨hfirst, hmore⟩⟩
  · rintro ⟨hne, rfl, hall⟩
    exact pieces_intercalate hall hne

theorem balanced_intercalate {all : List (List Char)} (h : ∀ piece ∈ all, Piece piece) :
    Balanced ([','].intercalate all) := by
  induction all with
  | nil => exact .nil
  | cons first more ih =>
    obtain ⟨hfirst, hmore⟩ := List.forall_mem_cons.mp h
    cases more with
    | nil => simpa [List.intercalate] using hfirst.balanced
    | cons second more =>
      have hrest : Balanced (',' :: [','].intercalate (second :: more)) :=
        .plain (by decide) (by decide) (fun _ => trivial) (ih hmore)
      simpa [List.intercalate] using hfirst.balanced.append hrest

/-- A piece is no longer than the text that is put together. -/
theorem length_le_intercalate {piece : List Char} {all : List (List Char)} (h : piece ∈ all) :
    piece.length ≤ ([','].intercalate all).length := by
  induction all with
  | nil => cases h
  | cons first more ih =>
    cases more with
    | nil =>
      obtain rfl := List.mem_singleton.mp h
      simp [List.intercalate]
    | cons second more =>
      have hall : ([','].intercalate (first :: second :: more)).length
          = first.length + (([','].intercalate (second :: more)).length + 1) := by
        simp [List.intercalate]
      rcases List.mem_cons.mp h with rfl | hmore
      · omega
      · have := ih hmore
        omega

end ScriptEngine.Ffi.Signature
