import Mathlib.Data.List.Basic
import Mathlib.Data.List.TakeWhile
import ScriptEngine.Text.Blank
/-!
Text without the white space around it, and without any.

Trimming takes white space off both ends and nothing else (`trim_spec`), so what is written behind a text only adds to
what trimming leaves of it (`trim_append`). The words of a text hold its other characters, in order (`flatten_words`).
-/

namespace ScriptEngine.Text

/-- Nothing but white space. -/
def Blank (cs : List Char) : Prop :=
  ∀ c ∈ cs, isBlank c = true

/-- Something, with white space at neither end. -/
structure Trimmed (cs : List Char) : Prop where
  first : ∃ c rest, cs = c :: rest ∧ isBlank c = false
  last : ∃ front c, cs = front ++ [c] ∧ isBlank c = false

variable {blanks cs rest more : List Char} {c : Char}

@[simp] theorem blank_nil : Blank [] := by
  simp [Blank]

/-! ## Ends -/

theorem trimStart_cons (h : isBlank c = false) (rest : List Char) : trimStart (c :: rest) = c :: rest := by
  simp [trimStart, h]

theorem trimStart_append (h : Blank blanks) (cs : List Char) : trimStart (blanks ++ cs) = trimStart cs :=
  List.dropWhile_append_of_pos h

theorem trimStart_of_blank (h : Blank cs) : trimStart cs = [] :=
  List.dropWhile_eq_nil_iff.mpr h

theorem trimStart_spec (cs : List Char) : ∃ blanks, Blank blanks ∧ cs = blanks ++ trimStart cs :=
  ⟨cs.takeWhile isBlank, fun _ hc => List.mem_takeWhile_imp hc, List.takeWhile_append_dropWhile.symm⟩

theorem not_blank_of_trimStart (h : trimStart cs = c :: rest) : isBlank c = false := by
  have hfirst := List.head?_dropWhile_not isBlank cs
  rw [show cs.dropWhile isBlank = c :: rest from h] at hfirst
  simpa using hfirst

theorem trimEnd_eq (cs : List Char) : trimEnd cs = (trimStart cs.reverse).reverse := rfl

theorem trimEnd_concat (h : isBlank c = false) (front : List Char) : trimEnd (front ++ [c]) = front ++ [c] := by
  rw [trimEnd_eq, List.reverse_concat, trimStart_cons h, List.reverse_cons, List.reverse_reverse]

theorem trimEnd_append (h : Blank blanks) (cs : List Char) : trimEnd (cs ++ blanks) = trimEnd cs := by
  have hblanks : Blank blanks.reverse := by simpa [Blank] using h
  rw [trimEnd_eq, List.reverse_append, trimStart_append hblanks, trimEnd_eq]

theorem trimEnd_spec (cs : List Char) : ∃ blanks, Blank blanks ∧ cs = trimEnd cs ++ blanks := by
  obtain ⟨blanks, hblank, heq⟩ := trimStart_spec cs.reverse
  refine ⟨blanks.reverse, by simpa [Blank] using hblank, ?_⟩
  rw [trimEnd_eq, ← List.reverse_append, ← heq, List.reverse_reverse]

theorem not_blank_of_trimEnd {front : List Char} (h : trimEnd cs = front ++ [c]) : isBlank c = false := by
  have hreverse : trimStart cs.reverse = c :: front.reverse := by
    rw [← List.reverse_concat, ← h, trimEnd_eq, List.reverse_reverse]
  exact not_blank_of_trimStart hreverse

/-! ## Both ends -/

theorem Trimmed.trimStart (h : Trimmed cs) : trimStart cs = cs := by
  obtain ⟨⟨c, rest, rfl, hc⟩, -⟩ := h
  exact trimStart_cons hc rest

theorem Trimmed.trimEnd (h : Trimmed cs) : trimEnd cs = cs := by
  obtain ⟨-, front, c, rfl, hc⟩ := h
  exact trimEnd_concat hc front

theorem Trimmed.trim (h : Trimmed cs) : trim cs = cs := by
  rw [Text.trim, h.trimStart, h.trimEnd]

theorem trim_spec (cs : List Char) :
    ∃ front back, Blank front ∧ Blank back ∧ cs = front ++ trim cs ++ back := by
  obtain ⟨front, hfront, hcs⟩ := trimStart_spec cs
  obtain ⟨back, hback, hstart⟩ := trimEnd_spec (Text.trimStart cs)
  exact ⟨front, back, hfront, hback, by rw [List.append_assoc, trim, ← hstart, ← hcs]⟩

theorem length_trim_le (cs : List Char) : (trim cs).length ≤ cs.length := by
  obtain ⟨front, back, -, -, hcs⟩ := trim_spec cs
  have hlength := congrArg List.length hcs
  simp only [List.length_append] at hlength
  omega

theorem trim_eq_nil_or_trimmed (cs : List Char) : trim cs = [] ∨ Trimmed (trim cs) := by
  rcases List.eq_nil_or_concat' (trim cs) with hnil | ⟨front, c, hlast⟩
  · exact .inl hnil
  refine .inr ⟨?_, front, c, hlast, not_blank_of_trimEnd hlast⟩
  -- nothing is taken off the start any more
  obtain ⟨back, -, hstart⟩ := trimEnd_spec (Text.trimStart cs)
  cases htrim : trim cs with
  | nil => simp [hlast] at htrim
  | cons d rest =>
    refine ⟨d, rest, rfl, ?_⟩
    rw [← trim, htrim] at hstart
    exact not_blank_of_trimStart hstart

theorem trim_eq_nil_iff : trim cs = [] ↔ Blank cs := by
  constructor
  · intro h
    obtain ⟨front, back, hfront, hback, hcs⟩ := trim_spec cs
    rw [hcs, h, List.append_nil]
    exact fun c hc => (List.mem_append.mp hc).elim (hfront c) (hback c)
  · intro h
    rw [trim, trimStart_of_blank h]
    rfl

/-- What follows a character that is no white space is trimmed by itself. -/
theorem trimEnd_behind (h : isBlank c = false) (front more : List Char) :
    trimEnd (front ++ [c] ++ more) = front ++ [c] ++ trimEnd more := by
  obtain ⟨blanks, hblanks, hmore⟩ := trimEnd_spec more
  rw [hmore, ← List.append_assoc, trimEnd_append hblanks, ← hmore]
  rcases List.eq_nil_or_concat' (trimEnd more) with hnil | ⟨middle, d, hlast⟩
  · rw [hnil, List.append_nil, trimEnd_concat h]
  · rw [hlast, ← List.append_assoc, trimEnd_concat (not_blank_of_trimEnd hlast)]

/-- What follows a text stays behind what trimming leaves of it. -/
theorem trim_append (h : Trimmed (trim cs)) (more : List Char) : ∃ tail, trim (cs ++ more) = trim cs ++ tail := by
  obtain ⟨front, back, hfront, -, hcs⟩ := trim_spec cs
  obtain ⟨⟨c, rest, hfirst, hc⟩, start, d, hlast, hd⟩ := h
  refine ⟨trimEnd (back ++ more), ?_⟩
  have hstart : Text.trimStart (cs ++ more) = trim cs ++ (back ++ more) := by
    calc Text.trimStart (cs ++ more) = Text.trimStart (front ++ (trim cs ++ (back ++ more))) := by
          rw [← List.append_assoc front, ← List.append_assoc, ← hcs]
      _ = trim cs ++ (back ++ more) := by
          rw [trimStart_append hfront, hfirst, List.cons_append, trimStart_cons hc]
  rw [trim, hstart, hlast, trimEnd_behind hd]

/-! ## Words -/

/-- The characters that are not white space. -/
def solid (cs : List Char) : List Char :=
  cs.filter fun c => !isBlank c

@[simp] theorem solid_cons_blank (h : isBlank c = true) (cs : List Char) : solid (c :: cs) = solid cs := by
  simp [solid, h]

@[simp] theorem solid_cons (h : isBlank c = false) (cs : List Char) : solid (c :: cs) = c :: solid cs := by
  simp [solid, h]

@[simp] theorem solid_append (cs ds : List Char) : solid (cs ++ ds) = solid cs ++ solid ds :=
  List.filter_append ..

theorem mem_solid : c ∈ solid cs ↔ c ∈ cs ∧ isBlank c = false := by
  simp [solid]

/-- The words hold the characters that are no white space, in order. -/
theorem flatten_words (cs : List Char) : (words cs).flatten = solid cs := by
  -- the word that is being read, with those behind it
  have hread (state : List Char × List (List Char)) :
      (if state.1.isEmpty then state.2 else state.1 :: state.2).flatten = state.1 ++ state.2.flatten := by
    obtain ⟨word, done⟩ := state
    cases word <;> rfl
  rw [words, hread]
  induction cs with
  | nil => rfl
  | cons c rest ih =>
    rw [List.foldr_cons]
    generalize rest.foldr _ _ = state at ih ⊢
    cases hc : isBlank c with
    | true => simp only [if_true, List.nil_append, hread, ih, solid_cons_blank hc]
    | false => simp only [if_false, Bool.false_eq_true, List.cons_append, ih, solid_cons hc]

end ScriptEngine.Text
