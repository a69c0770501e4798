import Mathlib.Data.List.Forall2
import ScriptEngine.Proofs.Ffi.Reading
/-!
Signatures that are written and read again.

What a signature is written as is a prototype, of the function and of its callback (`functionPrototype_display`), so it
is read as the signature again, but for the name of the callback, which is not written (`parse_display`).
-/

namespace ScriptEngine.Ffi

open Text (Blank Trimmed isBlank trim trimStart)

/-! ## Types -/

namespace CType

variable {type : CType} {cs : List Char}

/-- The spelling of a type, with a blank on either side or on none. -/
inductive Spelled (type : CType) : List Char → Prop
  | alone : Spelled type type.spelling.toList
  | behindBlank : Spelled type (' ' :: type.spelling.toList)
  | beforeBlank : Spelled type (type.spelling.toList ++ [' '])

theorem ofChars?_spelled (h : Spelled type cs) (hne : type ≠ .callback) : ofChars? cs = some type := by
  cases h <;> cases type <;> first | rfl | exact absurd rfl hne

/-- No spelling starts with a blank or a star. -/
theorem exists_spelling (type : CType) :
    ∃ c rest, type.spelling.toList = c :: rest ∧ isBlank c = false ∧ c ≠ '*' := by
  cases type <;> exact ⟨_, _, rfl, by decide, by decide⟩

/-- There is nothing to trim where a type is written in front and a parenthesis behind. -/
theorem trimmed_parens (type : CType) (middle : List Char) : Trimmed (type.spelling.toList ++ (middle ++ [')'])) := by
  obtain ⟨c, rest, htype, hc, -⟩ := type.exists_spelling
  exact ⟨⟨c, rest ++ (middle ++ [')']), by rw [htype, List.cons_append], hc⟩,
    type.spelling.toList ++ middle, ')', (List.append_assoc ..).symm, by decide⟩

end CType

namespace Signature

/-- A signature with as many arguments as are taken, one callback at most, and a signature of a callback where there is
a callback. -/
structure Counted (s : Signature) : Prop where
  few : s.args.length ≤ maxArgs
  one : s.args.count .callback ≤ 1
  listed : s.callback.isSome ↔ .callback ∈ s.args

/-- The signature without its name. -/
def unnamed (s : Signature) : Signature :=
  { s with name := "" }

/-! ## Arguments -/

/-- How an argument is written: a callback by its signature, without a name. -/
def writeArg (callback : Option Signature) (arg : CType) : String :=
  match arg, callback with
  | .callback, some cb => cb.ret.spelling ++ " (*)(" ++ writeArgs cb.args CType.spelling ++ ")"
  | _, _ => arg.spelling

theorem display_eq (s : Signature) :
    s.display = s.ret.spelling ++ " " ++ s.name ++ "(" ++ writeArgs s.args (writeArg s.callback) ++ ")" :=
  rfl

section Arguments

variable {callback : Option Signature} {cb : Signature} {type : CType} {types : List CType} {piece : List Char}
  {pieces : List (List Char)} {Callback : List Char → Signature → Prop} {leeway : Leeway}

theorem writeArg_of_ne (h : type ≠ .callback) : writeArg callback type = type.spelling := by
  cases type <;> first | rfl | exact absurd rfl h

theorem writeArg_none (type : CType) : writeArg none type = type.spelling := by
  cases type <;> rfl

/-- An argument as it stands between the commas: behind a blank, but for the first one. -/
def Written (callback : Option Signature) (piece : List Char) (type : CType) : Prop :=
  piece = (writeArg callback type).toList ∨ piece = ' ' :: (writeArg callback type).toList

theorem Written.spelled (h : Written callback piece type) (hne : type ≠ .callback) : type.Spelled piece := by
  rw [Written, writeArg_of_ne hne] at h
  rcases h with rfl | rfl
  · exact .alone
  · exact .behindBlank

theorem intercalate_comma_blank (first : List Char) (rest : List (List Char)) :
    [',', ' '].intercalate (first :: rest) = [','].intercalate (first :: rest.map (' ' :: ·)) := by
  induction rest generalizing first with
  | nil => rfl
  | cons second rest ih =>
    have hrest := ih second
    simp only [List.intercalate, List.map_cons, List.intersperse_cons_cons, List.flatten_cons] at hrest ⊢
    rw [hrest]
    cases rest <;> simp

/-- What is written between the parentheses is a row of arguments. -/
theorem exists_written (callback : Option Signature) (type : CType) (types : List CType) :
    ∃ pieces, (writeArgs (type :: types) (writeArg callback)).toList = [','].intercalate pieces
      ∧ List.Forall₂ (Written callback) pieces (type :: types)
      ∧ ∀ piece ∈ pieces, ∃ arg ∈ type :: types, Written callback piece arg := by
  refine ⟨(writeArg callback type).toList :: types.map fun type => ' ' :: (writeArg callback type).toList, ?_, ?_, ?_⟩
  · rw [writeArgs, String.toList_intercalate, List.map_map, List.map_cons]
    exact (intercalate_comma_blank _ _).trans (by rw [List.map_map]; rfl)
  · refine .cons (.inl rfl) ?_
    rw [List.forall₂_map_left_iff]
    exact List.forall₂_same.mpr fun _ _ => .inr rfl
  · refine List.forall_mem_cons.mpr ⟨⟨type, .head _, .inl rfl⟩, List.forall_mem_map.mpr fun arg harg => ?_⟩
    exact ⟨arg, .tail _ harg, .inr rfl⟩

/-- A row of written arguments spells them; a callback is read without its name. -/
theorem Row.of_written (h : List.Forall₂ (Written callback) pieces types) (hone : types.count .callback ≤ 1)
    (hsome : .callback ∈ types → callback.isSome)
    (hread : ∀ piece, Written callback piece .callback → ∀ cb ∈ callback, '(' ∈ piece ∧ Callback (trim piece) cb.unnamed) :
    Row Callback pieces types (if .callback ∈ types then callback.map unnamed else none) := by
  induction h with
  | nil => exact .nil
  | @cons piece type pieces types hpiece _ ih =>
    have hcount := List.count_cons (a := CType.callback) (b := type) (l := types)
    by_cases hcallback : type = .callback
    · subst hcallback
      obtain ⟨cb, rfl⟩ := Option.isSome_iff_exists.mp (hsome (.head _))
      have hrest : .callback ∉ types := List.count_eq_zero.mp (by simpa [hcount] using hone)
      obtain ⟨hopen, hcb⟩ := hread piece hpiece cb rfl
      have hrow := ih (by rw [List.count_eq_zero.mpr hrest]; omega) fun hmem => absurd hmem hrest
      rw [if_neg hrest] at hrow
      rw [if_pos (.head _)]
      exact .callback hopen hcb hrow
    · have hmem : .callback ∈ type :: types ↔ .callback ∈ types := by
        simp [Ne.symm hcallback]
      have hrow := ih (by omega) fun h => hsome (.tail _ h)
      simp only [hmem]
      exact .value (CType.ofChars?_spelled (hpiece.spelled hcallback) hcallback) hrow

/-- What is written between the parentheses of the arguments. -/
theorem arguments_of_written (hfew : types.length ≤ maxArgs) (hone : types.count .callback ≤ 1)
    (hlisted : callback.isSome ↔ .callback ∈ types) (hvoid : .void ∉ types)
    (hread : ∀ piece, Written callback piece .callback → ∀ cb ∈ callback,
      '(' ∈ piece ∧ Piece piece ∧ Callback (trim piece) cb.unnamed) :
    Arguments Callback (writeArgs types (writeArg callback)).toList types (callback.map unnamed) := by
  cases types with
  | nil =>
    obtain rfl : callback = none := by simpa using hlisted
    exact .none Text.blank_nil
  | cons type types =>
    obtain ⟨pieces, hpieces, hwritten, hmem⟩ := exists_written callback type types
    have hrow := Row.of_written hwritten hone hlisted.mpr fun piece hpiece cb hcb =>
      (hread piece hpiece cb hcb).imp_right And.right
    have hcallback : (if .callback ∈ type :: types then callback.map unnamed else none) = callback.map unnamed := by
      split
      · rfl
      · rename_i hnone
        rw [Option.not_isSome_iff_eq_none.mp (mt hlisted.mp hnone), Option.map_none]
    rw [hcallback] at hrow
    rw [hpieces]
    refine .row (fun piece hpiece => ?_) hrow ?_ hfew fun hsingle => ?_
    · obtain ⟨arg, harg, hwritten⟩ := hmem piece hpiece
      by_cases hne : arg = .callback
      · subst hne
        obtain ⟨cb, hcb⟩ := Option.isSome_iff_exists.mp (hlisted.mpr harg)
        exact (hread piece hwritten cb hcb).2.1
      · exact nested_of_plain (CType.plain_of_ofChars? (CType.ofChars?_spelled (hwritten.spelled hne) hne))
    · rintro rfl
      cases hwritten
    · rw [hsingle] at hvoid
      exact hvoid (.head _)

/-- What is written between the parentheses does not start with a star. -/
theorem head?_writeArgs (callback : Option Signature) (types : List CType) :
    (trimStart (writeArgs types (writeArg callback)).toList).head? ≠ some '*' := by
  cases types with
  | nil => simp [writeArgs, trimStart]
  | cons type types =>
    obtain ⟨c, rest, hfirst, hblank, hstar⟩ : ∃ c rest, (writeArg callback type).toList = c :: rest
        ∧ isBlank c = false ∧ c ≠ '*' := by
      unfold writeArg
      split
      · rename_i cb
        obtain ⟨c, rest, hret, hc⟩ := cb.ret.exists_spelling
        exact ⟨c, _, by simp only [String.toList_append, hret]; rfl, hc⟩
      · exact type.exists_spelling
    have hall : ∃ more, (writeArgs (type :: types) (writeArg callback)).toList = c :: more := by
      rw [writeArgs, String.toList_intercalate, List.map_cons, List.map_cons, hfirst]
      cases types <;> exact ⟨_, rfl⟩
    obtain ⟨more, hmore⟩ := hall
    rw [hmore, Text.trimStart_cons hblank]
    simpa using hstar

/-- What is written as a callback. -/
theorem toList_writeArg_callback (cb : Signature) :
    (writeArg (some cb) .callback).toList
      = cb.ret.spelling.toList ++ [' ']
        ++ '(' :: ([] ++ '*' :: ([] ++ ')' :: ([] ++ '(' :: ((writeArgs cb.args (writeArg none)).toList ++ ')' :: [])))) := by
  have hargs : CType.spelling = writeArg none := funext fun type => (writeArg_none type).symm
  rw [writeArg, hargs]
  simp

/-- What is written as a callback is a prototype of it. -/
theorem callbackPrototype_written (hbeside : leeway.beside []) (hname : leeway.name true [])
    (hvalid : cb.validateCallback = .ok ()) (hcounted : cb.Counted) :
    CallbackPrototype leeway (writeArg (some cb) .callback).toList cb.unnamed
      ∧ Piece (writeArg (some cb) .callback).toList := by
  obtain ⟨hret, hargs, hnocallback⟩ := of_validateCallback hvalid
  obtain ⟨name, ret, args, callback⟩ := cb
  obtain rfl : callback = none := Option.not_isSome_iff_eq_none.mp (mt hcounted.listed.mp hnocallback)
  have hne : ret ≠ .callback := by rintro rfl; cases hret
  have harguments : Arguments (fun _ _ => False) (writeArgs args (writeArg none)).toList args none :=
    arguments_of_written hcounted.few hcounted.one hcounted.listed (fun hvoid => (hargs _ hvoid).1 rfl) (by simp)
  rw [toList_writeArg_callback]
  constructor
  · exact .pointer (CType.ofChars?_spelled .beforeBlank hne) Text.blank_nil .nil hname (by simp) hbeside harguments hbeside
  · have hstar : Balanced ['*'] := .plain (by decide) (by decide) (fun _ => trivial) .nil
    have hinside : Piece ('(' :: ((writeArgs args (writeArg none)).toList ++ [')'])) :=
      .opening (harguments.balanced.enclosed .nil)
    have hparts : Piece ('(' :: (['*'] ++ ')' :: ('(' :: ((writeArgs args (writeArg none)).toList ++ [')'])))) :=
      .opening (hstar.enclosed hinside)
    exact Nested.append (nested_of_plain (CType.plain_of_ofChars? (CType.ofChars?_spelled .beforeBlank hne))) hparts

end Arguments

/-! ## Functions -/

section Function

variable {s : Signature} {leeway : Leeway}

/-- The signature with a callback without a name. -/
def anonymous (s : Signature) : Signature :=
  { s with callback := s.callback.map unnamed }

/-- The check does not look at names. -/
theorem validate_anonymous (s : Signature) : s.anonymous.validate = s.validate := by
  obtain ⟨name, ret, args, callback⟩ := s
  cases callback <;> rfl

theorem toList_display (s : Signature) :
    s.display.toList = s.ret.spelling.toList ++ [' '] ++ s.name.toList ++ []
      ++ '(' :: ((writeArgs s.args (writeArg s.callback)).toList ++ ')' :: []) := by
  rw [display_eq]
  simp

theorem trim_display (s : Signature) : trim s.display.toList = s.display.toList := by
  have htrimmed := s.ret.trimmed_parens
    (' ' :: (s.name.toList ++ '(' :: (writeArgs s.args (writeArg s.callback)).toList))
  simpa [toList_display] using htrimmed.trim

/-- The arguments of a signature that passes the check are written as arguments. -/
theorem arguments_display (hbeside : leeway.beside []) (hname : leeway.name true []) (hvalid : s.validate = .ok ())
    (hcounted : s.Counted) (hcallback : ∀ cb ∈ s.callback, cb.Counted) :
    Arguments (CallbackPrototype leeway) (writeArgs s.args (writeArg s.callback)).toList s.args
      (s.callback.map unnamed) := by
  refine arguments_of_written hcounted.few hcounted.one hcounted.listed
    (fun hvoid => ((of_validate hvalid).1 _ hvoid).1 rfl) fun piece hpiece cb hcb => ?_
  rw [Option.mem_def.mp hcb] at hpiece
  obtain ⟨hprototype, hnested⟩ :=
    callbackPrototype_written hbeside hname ((ret_callback_of_validate hvalid).2 cb hcb) (hcallback cb hcb)
  have htrim : trim (writeArg (some cb) .callback).toList = (writeArg (some cb) .callback).toList := by
    have htrimmed := cb.ret.trimmed_parens
      (' ' :: '(' :: '*' :: ')' :: '(' :: (writeArgs cb.args (writeArg none)).toList)
    simpa [toList_writeArg_callback] using htrimmed.trim
  have hopen : '(' ∈ (writeArg (some cb) .callback).toList := by simp [toList_writeArg_callback]
  rw [← htrim] at hprototype
  rcases hpiece with rfl | rfl
  · exact ⟨hopen, hnested, hprototype⟩
  · exact ⟨.tail _ hopen, .plain (by decide) (by decide) (fun _ => by decide) hnested, hprototype⟩

/-- What is written as a function is a prototype of it. -/
theorem functionPrototype_display (hbeside : leeway.beside []) (hcallbackName : leeway.name true [])
    (hvalid : s.validate = .ok ()) (hname : IsName s.name.toList) (hcounted : s.Counted)
    (hcallback : ∀ cb ∈ s.callback, cb.Counted) : FunctionPrototype leeway s.display.toList s.anonymous := by
  have hret : s.ret ≠ .callback := by
    intro hret
    have hreturnable := (ret_callback_of_validate hvalid).1
    rw [hret] at hreturnable
    cases hreturnable
  have harguments : Arguments (CallbackPrototype leeway) _ _ _ :=
    arguments_display hbeside hcallbackName hvalid hcounted hcallback
  have hprototype := Prototype.plain (CType.ofChars?_spelled .beforeBlank hret) (by simp; decide) hname Text.blank_nil
    (head?_writeArgs s.callback s.args) harguments hbeside
  rw [String.ofList_toList] at hprototype
  rw [toList_display]
  exact hprototype

/-- A signature that passes the check is read as it was written, but for the name of its callback. -/
theorem parse_display (hvalid : s.validate = .ok ()) (hname : IsName s.name.toList) (hcounted : s.Counted)
    (hcallback : ∀ cb ∈ s.callback, cb.Counted) : parse s.display = .ok s.anonymous := by
  rw [parse_eq_ok_iff, trim_display, validate_anonymous]
  exact ⟨functionPrototype_display trivial trivial hvalid hname hcounted hcallback, hvalid⟩

theorem unnamed_of_name (h : s.name = "") : s.unnamed = s := by
  cases s
  cases h
  rfl

theorem anonymous_of_unnamed (h : ∀ cb ∈ s.callback, cb.name = "") : s.anonymous = s := by
  obtain ⟨name, ret, args, callback⟩ := s
  cases callback with
  | none => rfl
  | some cb => simp only [anonymous, Option.map_some, unnamed_of_name (h cb rfl)]

/-- A signature that passes the check is read as it was written if its callback has no name. -/
theorem parse_display_eq_self (hvalid : s.validate = .ok ()) (hname : IsName s.name.toList) (hcounted : s.Counted)
    (hcallback : ∀ cb ∈ s.callback, cb.name = "" ∧ cb.Counted) : parse s.display = .ok s := by
  rw [parse_display hvalid hname hcounted fun cb hcb => (hcallback cb hcb).2,
    anonymous_of_unnamed fun cb hcb => (hcallback cb hcb).1]

theorem parse_display_eq_self_call :
    parse (display ⟨"call_cb", .int, [.callback, .userdata, .charPtr], some ⟨"", .void, [.userdata, .textStructPtr], none⟩⟩)
      = .ok ⟨"call_cb", .int, [.callback, .userdata, .charPtr], some ⟨"", .void, [.userdata, .textStructPtr], none⟩⟩ := by
  have hname : IsName "call_cb".toList := ⟨by decide, List.all_eq_true.mp rfl⟩
  refine parse_display_eq_self rfl hname ⟨by decide, by decide, by decide⟩ fun cb hcb => ?_
  obtain rfl := Option.mem_some_iff.mp hcb
  exact ⟨rfl, by decide, by decide, by decide⟩

end Function

end Signature

end ScriptEngine.Ffi
