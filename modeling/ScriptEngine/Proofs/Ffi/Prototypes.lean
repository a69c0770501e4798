import ScriptEngine.Proofs.Ffi.Brackets
import ScriptEngine.Proofs.Ffi.Signatures
import ScriptEngine.Proofs.Text.Blanks
/-!
The grammar of signatures.

`Prototype` is the grammar of a prototype, `ret name(args)` or `ret (*name)(args)`, with a `Leeway` that says what may
stand where the grammar has nothing: between the name in parentheses and the arguments, behind the arguments, and in
place of a name. Nothing but white space and names is what the grammar documents (`Leeway.documented`); the reader
looks at none of it (`Leeway.taken`).
-/

namespace ScriptEngine.Ffi

open Text (Blank Trimmed isBlank solid trim trimStart trimEnd)

/-! ## Types -/

namespace CType

variable {cs : List Char} {type : CType}

/-- Bringing a type into its shape changes its white space alone. -/
theorem solid_normalize (cs : List Char) : solid (normalize cs) = solid cs := by
  have hfold (words : List (List Char)) (done : List Char) :
      solid (words.foldl (fun done word =>
        if done.isEmpty || word.head? == some '*' then done ++ word else done ++ ' ' :: word) done)
        = solid done ++ solid words.flatten := by
    induction words generalizing done with
    | nil => simp [solid]
    | cons word rest ih =>
      rw [List.foldl_cons, ih, List.flatten_cons, Text.solid_append, ← List.append_assoc]
      split
      · rw [Text.solid_append]
      · rw [Text.solid_append, Text.solid_cons_blank (by decide)]
  have hsolid : solid (solid cs) = solid cs := List.filter_filter .. |>.trans (by simp [solid])
  rw [normalize, hfold, Text.flatten_words, hsolid]
  rfl

/-- A text names a type if it has the shape of the type's own spelling. -/
theorem ofChars?_eq_some_iff :
    ofChars? cs = some type ↔ type ≠ .callback ∧ normalize cs = normalize type.spelling.toList := by
  constructor
  · intro h
    have hshape {text : String} (hname : String.ofList (normalize cs) = text) : normalize cs = text.toList := by
      rw [← hname, String.toList_ofList]
    unfold ofChars? at h
    split at h <;> cases h
    all_goals
      rename_i hname
      exact ⟨by decide, (hshape hname).trans (by decide)⟩
  · rintro ⟨hne, h⟩
    rw [ofChars?, h]
    cases type <;> first | rfl | exact absurd rfl hne

/-- A text that names a type has the characters of the type's spelling, in order. -/
theorem solid_of_ofChars? (h : ofChars? cs = some type) : solid cs = solid type.spelling.toList := by
  rw [← solid_normalize cs, (ofChars?_eq_some_iff.mp h).2, solid_normalize]

/-- No parenthesis and no comma is part of a type. -/
theorem plain_of_ofChars? (h : ofChars? cs = some type) : ∀ c ∈ cs, c ≠ '(' ∧ c ≠ ')' ∧ c ≠ ',' := by
  have hall : (solid type.spelling.toList).all (fun c => c != '(' && c != ')' && c != ',') = true := by
    cases type <;> rfl
  have hspelled : ∀ c ∈ solid type.spelling.toList, c ≠ '(' ∧ c ≠ ')' ∧ c ≠ ',' := by
    simpa [and_assoc] using hall
  intro c hc
  cases hblank : isBlank c with
  | true =>
    refine ⟨?_, ?_, ?_⟩ <;> (rintro rfl; revert hblank; decide)
  | false =>
    rw [← solid_of_ofChars? h] at hspelled
    exact hspelled c (Text.mem_solid.mpr ⟨hc, hblank⟩)

end CType

namespace Signature

/-! ## Names and white space -/

/-- What names are made of: letters, digits and underscores, one at least. -/
def IsName (name : List Char) : Prop :=
  name ≠ [] ∧ ∀ c ∈ name, isNameChar c = true

/-- The characters of names by their numbers. -/
theorem isNameChar_iff {c : Char} : isNameChar c = true ↔ (48 ≤ c.toNat ∧ c.toNat ≤ 57) ∨ (65 ≤ c.toNat ∧ c.toNat ≤ 90)
    ∨ c.toNat = 95 ∨ (97 ≤ c.toNat ∧ c.toNat ≤ 122) := by
  have hle (a b : Char) : a ≤ b ↔ a.toNat ≤ b.toNat := Iff.rfl
  have hnumber (a b : Char) : a = b ↔ a.toNat = b.toNat := Char.toNat_inj.symm
  simp only [isNameChar, Text.isDigit, Text.isLetter, Bool.or_eq_true, Bool.and_eq_true, decide_eq_true_eq, beq_iff_eq,
    hle, hnumber, Char.reduceToNat]
  omega

theorem not_blank_of_isNameChar {c : Char} (h : isNameChar c = true) : isBlank c = false := by
  have hnumbers := isNameChar_iff.mp h
  simp only [isBlank, Bool.or_eq_false_iff, Bool.and_eq_false_iff, decide_eq_false_iff_not, beq_eq_false_iff_ne]
  omega

theorem trimEnd_name {before name blanks : List Char} (hname : IsName name) (hblanks : Blank blanks) :
    trimEnd (before ++ name ++ blanks) = before ++ name := by
  obtain ⟨hne, hchars⟩ := hname
  obtain ⟨front, c, rfl⟩ := (List.eq_nil_or_concat' name).resolve_left hne
  have hc : isBlank c = false := not_blank_of_isNameChar (hchars c (by simp))
  rw [Text.trimEnd_append hblanks, ← List.append_assoc, Text.trimEnd_concat hc]

/-- No parenthesis and no comma is white space. -/
theorem plain_of_blank {cs : List Char} (h : Blank cs) : ∀ c ∈ cs, c ≠ '(' ∧ c ≠ ')' ∧ c ≠ ',' := by
  intro c hc
  refine ⟨?_, ?_, ?_⟩ <;> (rintro rfl; exact absurd (h _ hc) (by decide))

theorem balanced_of_plain {cs : List Char} (h : ∀ c ∈ cs, c ≠ '(' ∧ c ≠ ')' ∧ c ≠ ',') : Balanced cs :=
  nested_of_plain fun c hc => ⟨(h c hc).1, (h c hc).2.1, trivial⟩

theorem not_ofChars?_of_blank {cs : List Char} {type : CType} (h : Blank cs) : CType.ofChars? cs ≠ some type := by
  intro htype
  have hsolid : solid type.spelling.toList = [] := by
    rw [← CType.solid_of_ofChars? htype]
    exact List.filter_eq_nil_iff.mpr fun c hc => by simpa using h c hc
  revert hsolid
  cases type <;> decide

/-! ## The grammar -/

/-- What a prototype may have beside its parts. -/
structure Leeway where
  /-- Between the name in parentheses and the arguments, and behind the arguments. -/
  beside : List Char → Prop
  /-- In place of a name in parentheses, of a function or of a callback. -/
  name : Bool → List Char → Prop

/-- White space may stand between the parts, and a callback needs no name. -/
def Leeway.documented : Leeway :=
  ⟨Blank, fun isCallback name => IsName name ∨ (isCallback = true ∧ name = [])⟩

/-- Whatever it is, it is not looked at. -/
def Leeway.taken : Leeway :=
  ⟨fun _ => True, fun _ _ => True⟩

/-- Pieces that spell arguments, with the signature of the one callback among them. -/
inductive Row (Callback : List Char → Signature → Prop) :
    List (List Char) → List CType → Option Signature → Prop
  | nil : Row Callback [] [] none
  | value {piece : List Char} {rest : List (List Char)} {type : CType} {types : List CType}
      {callback : Option Signature} :
      CType.ofChars? piece = some type → Row Callback rest types callback →
      Row Callback (piece :: rest) (type :: types) callback
  | callback {piece : List Char} {rest : List (List Char)} {cb : Signature} {types : List CType} :
      '(' ∈ piece → Callback (trim piece) cb → Row Callback rest types none →
      Row Callback (piece :: rest) (.callback :: types) (some cb)

/-- What stands in the parentheses of the arguments: nothing, `void`, or pieces between commas. -/
inductive Arguments (Callback : List Char → Signature → Prop) : List Char → List CType → Option Signature → Prop
  | none {inside : List Char} : Blank inside → Arguments Callback inside [] none
  | void {inside : List Char} : CType.ofChars? inside = some .void → Arguments Callback inside [] none
  | row {pieces : List (List Char)} {types : List CType} {callback : Option Signature} :
      (∀ piece ∈ pieces, Piece piece) → Row Callback pieces types callback → pieces ≠ [] → types.length ≤ maxArgs →
      types ≠ [.void] → Arguments Callback ([','].intercalate pieces) types callback

/-- A prototype of a function or of a callback. -/
inductive Prototype (leeway : Leeway) (Callback : List Char → Signature → Prop) :
    Bool → List Char → Signature → Prop
  /-- `ret name(args)`. The type ends where the name starts. -/
  | plain {before name blanks inside after : List Char} {ret : CType} {args : List CType}
      {callback : Option Signature} :
      CType.ofChars? before = some ret → (∀ c ∈ before.getLast?, isNameChar c = false ∧ c.toNat < 0x80) →
      IsName name → Blank blanks → (trimStart inside).head? ≠ some '*' → Arguments Callback inside args callback →
      leeway.beside after →
      Prototype leeway Callback false (before ++ name ++ blanks ++ '(' :: (inside ++ ')' :: after))
        ⟨String.ofList name, ret, args, callback⟩
  /-- `ret (*name)(args)`. -/
  | pointer {isCallback : Bool} {before blanks named between inside after : List Char} {ret : CType}
      {args : List CType} {callback : Option Signature} :
      CType.ofChars? before = some ret → Blank blanks → Balanced named → leeway.name isCallback (trim named) →
      '(' ∉ between → leeway.beside between → Arguments Callback inside args callback → leeway.beside after →
      Prototype leeway Callback isCallback
        (before ++ '(' :: (blanks ++ '*' :: (named ++ ')' :: (between ++ '(' :: (inside ++ ')' :: after)))))
        ⟨String.ofList (trim named), ret, args, callback⟩

/-- A prototype of a callback, which takes no callback. -/
def CallbackPrototype (leeway : Leeway) : List Char → Signature → Prop :=
  Prototype leeway (fun _ _ => False) true

/-- A prototype of a function. -/
def FunctionPrototype (leeway : Leeway) : List Char → Signature → Prop :=
  Prototype leeway (CallbackPrototype leeway) false

/-! ## What the grammar says -/

section Properties

variable {Callback Callback' : List Char → Signature → Prop} {pieces : List (List Char)} {inside cs : List Char}
  {types : List CType} {callback : Option Signature} {leeway : Leeway} {isCallback : Bool} {s : Signature}

/-- There is a signature of a callback where there is a callback. -/
theorem Row.isSome_iff (h : Row Callback pieces types callback) : callback.isSome ↔ .callback ∈ types := by
  induction h with
  | nil => simp
  | @value piece _ type _ _ htype _ ih =>
    have hne : CType.callback ≠ type := by
      rintro rfl
      exact CType.ofChars?_ne_callback piece htype
    rw [ih, List.mem_cons, or_iff_right hne]
  | callback => simp

theorem Arguments.isSome_iff (h : Arguments Callback inside types callback) : callback.isSome ↔ .callback ∈ types := by
  cases h with
  | none | void => simp
  | row _ hrow => exact hrow.isSome_iff

theorem Arguments.balanced (h : Arguments Callback inside types callback) : Balanced inside := by
  cases h with
  | none hblank => exact balanced_of_plain (plain_of_blank hblank)
  | void hvoid => exact balanced_of_plain (CType.plain_of_ofChars? hvoid)
  | row hpieces => exact balanced_intercalate hpieces

/-- Other callbacks may stand in a row if they have the same signature. -/
theorem Row.imp (h : Row Callback pieces types callback)
    (himp : ∀ piece ∈ pieces, ∀ cb ∈ callback, Callback (trim piece) cb → Callback' (trim piece) cb) :
    Row Callback' pieces types callback := by
  induction h with
  | nil => exact .nil
  | value htype _ ih => exact .value htype (ih fun piece hpiece => himp piece (.tail _ hpiece))
  | callback hopen hcb _ ih =>
    refine .callback hopen (himp _ (.head _) _ rfl hcb) (ih fun piece hpiece cb hnone => ?_)
    cases hnone

theorem Arguments.imp (h : Arguments Callback inside types callback)
    (himp : ∀ text, text.length ≤ inside.length → ∀ cb ∈ callback, Callback text cb → Callback' text cb) :
    Arguments Callback' inside types callback := by
  cases h with
  | none hblank => exact .none hblank
  | void hvoid => exact .void hvoid
  | row hpieces hrow hne hfew hvoid =>
    refine .row hpieces (hrow.imp fun piece hpiece => ?_) hne hfew hvoid
    exact himp _ ((Text.length_trim_le piece).trans (length_le_intercalate hpiece))

theorem Prototype.imp (h : Prototype leeway Callback isCallback cs s)
    (himp : ∀ text, text.length < cs.length → ∀ cb ∈ s.callback, Callback text cb → Callback' text cb) :
    Prototype leeway Callback' isCallback cs s := by
  cases h with
  | plain hret hbefore hname hblanks hstar harguments hafter =>
    refine .plain hret hbefore hname hblanks hstar (harguments.imp fun text hlength => himp text ?_) hafter
    simp only [List.length_append, List.length_cons]
    omega
  | pointer hret hblanks hnamed hname hbetween hbeside harguments hafter =>
    refine .pointer hret hblanks hnamed hname hbetween hbeside (harguments.imp fun text hlength => himp text ?_) hafter
    simp only [List.length_append, List.length_cons]
    omega

theorem Prototype.isSome_iff (h : Prototype leeway Callback isCallback cs s) :
    s.callback.isSome ↔ .callback ∈ s.args := by
  cases h with
  | plain _ _ _ _ _ harguments | pointer _ _ _ _ _ _ harguments => exact harguments.isSome_iff

theorem Prototype.ne_nil (h : Prototype leeway Callback isCallback cs s) : cs ≠ [] := by
  cases h <;> simp

end Properties

end Signature

end ScriptEngine.Ffi
