import ScriptEngine.Proofs.Ffi.Printing
/-!
What more than prototypes is accepted as a signature.

The parts of a prototype are searched for one by one, and what stands between or behind those that are found is not
looked at. So a text may go on behind an accepted one as it likes, and what stands in place of the name in parentheses
need not be a name (`accepted_iff`).
-/

namespace ScriptEngine.Ffi.Signature

open Text (Blank Trimmed isBlank trim trimStart)

variable {leeway : Leeway} {Callback : List Char → Signature → Prop} {isCallback : Bool} {cs inside : List Char}
  {pieces : List (List Char)} {types : List CType} {callback : Option Signature} {s : Signature} {text : String}

/-! ## Prototypes -/

theorem Row.count_callback_le (h : Row Callback pieces types callback) : types.count .callback ≤ 1 := by
  induction h with
  | nil => simp
  | @value piece _ type _ _ htype _ ih =>
    have hne : type ≠ .callback := by
      rintro rfl
      exact CType.ofChars?_ne_callback piece htype
    rw [List.count_cons_of_ne hne]
    exact ih
  | callback _ _ hrest =>
    have hnone := List.count_eq_zero.mpr fun hmem => absurd (hrest.isSome_iff.mpr hmem) (by simp)
    rw [List.count_cons_self, hnone]

theorem Row.exists_of_callback (h : Row Callback pieces types callback) : ∀ cb ∈ callback, ∃ text, Callback text cb := by
  induction h with
  | nil => simp
  | value _ _ ih => exact ih
  | callback _ hcb =>
    intro cb hmem
    obtain rfl := Option.mem_some_iff.mp hmem
    exact ⟨_, hcb⟩

/-- No more arguments are taken than there may be, and what is taken as a callback is a prototype of one. -/
theorem Arguments.counted (h : Arguments Callback inside types callback) :
    types.length ≤ maxArgs ∧ types.count .callback ≤ 1 ∧ ∀ cb ∈ callback, ∃ text, Callback text cb := by
  cases h with
  | none | void => simp
  | row _ hrow _ hfew => exact ⟨hfew, hrow.count_callback_le, hrow.exists_of_callback⟩

theorem Prototype.counted (h : Prototype leeway Callback isCallback cs s) :
    s.Counted ∧ ∀ cb ∈ s.callback, ∃ text, Callback text cb := by
  cases h with
  | plain _ _ _ _ _ harguments | pointer _ _ _ _ _ _ harguments =>
    obtain ⟨hfew, hone, hcallback⟩ := harguments.counted
    exact ⟨⟨hfew, hone, harguments.isSome_iff⟩, hcallback⟩

/-- The name of a prototype is a name, or it is what stands behind the star. -/
theorem Prototype.name_cases (h : Prototype leeway Callback isCallback cs s) :
    IsName s.name.toList ∨ ∃ before blanks named behind,
      cs = before ++ '(' :: (blanks ++ '*' :: named ++ ')' :: behind) ∧ '(' ∉ before ∧ Blank blanks ∧ Balanced named
        ∧ s.name.toList = trim named := by
  cases h with
  | plain _ _ hname => exact .inl (by simpa using hname)
  | @pointer _ before blanks named between inside after _ _ _ hret hblanks hnamed =>
    refine .inr ⟨before, blanks, named, between ++ '(' :: (inside ++ ')' :: after), by simp, fun hmem => ?_, hblanks, hnamed,
      by simp⟩
    exact (CType.plain_of_ofChars? hret _ hmem).1 rfl

/-- Where nothing is looked at, anything may follow. -/
theorem Prototype.append (h : Prototype .taken Callback isCallback cs s) (more : List Char) :
    Prototype .taken Callback isCallback (cs ++ more) s := by
  cases h with
  | @plain _ _ _ _ after _ _ _ hret hbefore hname hblanks hstar harguments =>
    have hafter : Leeway.taken.beside (after ++ more) := trivial
    simpa using Prototype.plain hret hbefore hname hblanks hstar harguments hafter
  | @pointer _ _ _ _ _ _ after _ _ _ hret hblanks hnamed hname hbetween hbeside harguments =>
    have hafter : Leeway.taken.beside (after ++ more) := trivial
    simpa using Prototype.pointer hret hblanks hnamed hname hbetween hbeside harguments hafter

/-- Documented prototypes end with the arguments. -/
theorem Prototype.getLast?_documented (h : Prototype .documented Callback isCallback cs s) (htrimmed : Trimmed cs) :
    cs.getLast? = some ')' := by
  obtain ⟨front, after, rfl, hafter⟩ : ∃ front after, cs = front ++ ')' :: after ∧ Blank after := by
    cases h with
    | @plain before name blanks inside after _ _ _ _ _ _ _ _ _ hafter =>
      exact ⟨before ++ name ++ blanks ++ '(' :: inside, after, by simp, hafter⟩
    | @pointer _ before blanks named between inside after _ _ _ _ _ _ _ _ _ _ hafter =>
      exact ⟨before ++ '(' :: (blanks ++ '*' :: (named ++ ')' :: (between ++ '(' :: inside))), after, by simp, hafter⟩
  obtain rfl | ⟨middle, c, rfl⟩ := List.eq_nil_or_concat' after
  · simp
  · obtain ⟨-, start, d, hlast, hd⟩ := htrimmed
    have hends : front ++ ')' :: middle ++ [c] = start ++ [d] := by simpa using hlast
    have hsame := congrArg List.getLast? hends
    rw [List.getLast?_concat, List.getLast?_concat] at hsame
    rw [← Option.some.inj hsame, hafter c (by simp)] at hd
    cases hd

/-! ## Texts that are accepted -/

/-- An accepted text may go on as it likes. -/
theorem parse_append (h : parse text = .ok s) (more : String) : parse (text ++ more) = .ok s := by
  obtain ⟨hprototype, hvalid⟩ := parse_eq_ok_iff.mp h
  have htrimmed := (Text.trim_eq_nil_or_trimmed text.toList).resolve_left (Prototype.ne_nil hprototype)
  obtain ⟨tail, htail⟩ := Text.trim_append htrimmed more.toList
  rw [parse_eq_ok_iff, String.toList_append, htail]
  exact ⟨Prototype.append hprototype tail, hvalid⟩

theorem balanced_trim (h : Balanced cs) : Balanced (trim cs) := by
  obtain ⟨front, back, hfront, hback, hcs⟩ := Text.trim_spec cs
  rw [hcs, List.append_assoc] at h
  have hbehind := h.of_append fun c hc => (plain_of_blank hfront c hc).imp_right And.left
  exact hbehind.of_append_right fun c hc => (plain_of_blank hback c hc).imp_right And.left

/-- An accepted signature is written as a text that is read as the same one, callback's name apart, if its name is a
name. -/
theorem parse_display_iff (h : parse text = .ok s) :
    (∃ again, parse s.display = .ok again ∧ again.name = s.name ∧ again.ret = s.ret ∧ again.args = s.args)
      ↔ IsName s.name.toList := by
  obtain ⟨hprototype, hvalid⟩ := parse_eq_ok_iff.mp h
  obtain ⟨hcounted, hcallback⟩ := Prototype.counted hprototype
  have hcallback : ∀ cb ∈ s.callback, cb.Counted := fun cb hcb => (hcallback cb hcb).elim fun _ h => (Prototype.counted h).1
  constructor
  · rintro ⟨again, hagain, hname, -, -⟩
    obtain ⟨hread, -⟩ := parse_eq_ok_iff.mp hagain
    rw [trim_display] at hread
    rcases Prototype.name_cases hprototype with hs | ⟨_, _, named, _, -, -, -, hnamed, hs⟩
    · exact hs
    rcases Prototype.name_cases hread with hn | ⟨before, blanks, named', behind, hcs, hbefore, hblanks, hnamed', hn⟩
    · rwa [hname] at hn
    exfalso
    have hinside : Balanced (blanks ++ '*' :: named') :=
      (balanced_of_plain (plain_of_blank hblanks)).append (.plain (by decide) (by decide) (fun _ => trivial) hnamed')
    have hret : '(' ∉ s.ret.spelling.toList ++ [' '] := by
      cases s.ret <;> decide
    have hwritten : Arguments (CallbackPrototype .taken) _ _ _ :=
      arguments_display trivial trivial hvalid hcounted hcallback
    have harguments := hwritten.balanced
    rw [toList_display] at hcs
    by_cases hopen : '(' ∈ s.name.toList
    · -- the first parenthesis of the name is closed inside of the name, so what is read as the name is shorter
      rw [hs] at hopen
      obtain ⟨head, inside, after, hpair, hhead, hbalanced⟩ := (balanced_trim hnamed).exists_pair hopen
      rw [← hs] at hpair
      have hfirst : s.ret.spelling.toList ++ [' '] ++ head
            ++ '(' :: (inside ++ ')' :: (after ++ '(' :: ((writeArgs s.args (writeArg s.callback)).toList ++ [')'])))
          = before ++ '(' :: (blanks ++ '*' :: named' ++ ')' :: behind) := by
        rw [← hcs, hpair]
        simp
      obtain ⟨-, hsame, -⟩ := pair_unique hfirst (List.not_mem_append hret hhead) hbefore hbalanced hinside
      have hshorter : named'.length < s.name.toList.length := by
        simp only [hpair, hsame, List.length_append, List.length_cons]
        omega
      have hlonger : s.name.toList.length ≤ named'.length := by
        rw [← hname, hn]
        exact Text.length_trim_le named'
      omega
    · -- the first parenthesis is that of the arguments, and no argument starts with a star
      rw [List.append_nil] at hcs
      obtain ⟨-, hsame, -⟩ := pair_unique hcs (List.not_mem_append hret hopen) hbefore harguments hinside
      have hstar := head?_writeArgs s.callback s.args
      rw [hsame, Text.trimStart_append hblanks, Text.trimStart_cons (by decide)] at hstar
      exact hstar rfl
  · intro hname
    exact ⟨s.anonymous, parse_display hvalid hname hcounted hcallback, rfl, rfl, rfl⟩

/-- A text is accepted if it is a prototype of a signature that passes the check, up to what is not looked at; then it
is accepted with anything behind it too, and what it is read as can be written and read again if its name is one. -/
theorem accepted_iff (text : String) (s : Signature) :
    (parse text = .ok s ↔ FunctionPrototype .taken (trim text.toList) s ∧ s.validate = .ok ())
      ∧ (parse text = .ok s → (∀ more, parse (text ++ more) = .ok s)
        ∧ ((∃ again, parse s.display = .ok again ∧ again.name = s.name ∧ again.ret = s.ret ∧ again.args = s.args)
          ↔ IsName s.name.toList)) :=
  ⟨parse_eq_ok_iff, fun h => ⟨parse_append h, parse_display_iff h⟩⟩

theorem accepted_iff_trailing :
    parse "int f(int)" = .ok ⟨"f", .int, [.int], none⟩ ∧ parse ("int f(int)" ++ " x") = .ok ⟨"f", .int, [.int], none⟩ := by
  have hparse : parse "int f(int)" = .ok ⟨"f", .int, [.int], none⟩ := rfl
  exact ⟨hparse, ((accepted_iff "int f(int)" _).2 hparse).1 " x"⟩

/-- A text that is no documented prototype, and what it is read as. -/
theorem not_documented_of_trailing :
    parse "int f(int) x" = .ok ⟨"f", .int, [.int], none⟩
      ∧ ∀ s, ¬ FunctionPrototype .documented (trim "int f(int) x".toList) s := by
  refine ⟨rfl, fun s h => ?_⟩
  have htrimmed : Trimmed (trim "int f(int) x".toList) :=
    (Text.trim_eq_nil_or_trimmed _).resolve_left (by decide)
  exact absurd (Prototype.getLast?_documented h htrimmed) (by decide)

end ScriptEngine.Ffi.Signature
