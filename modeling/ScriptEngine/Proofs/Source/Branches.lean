import ScriptEngine.Proofs.Source.Nesting
/-!
Branches nest without a limit.

A branch opens no level, so that the depth does not bound how many of them are read inside one another. Choices inside
choices are read however many they are.
-/

namespace ScriptEngine.Source

/-- The tokens of so many choices, as far as the reader looks at them. -/
inductive IsChoices : Nat → List Token → Prop
  | zero {last stop : Token} (hlast : last.kind = .punct .semicolon) (hstop : stop.kind = .endOfInput) :
    IsChoices 0 [last, stop]
  | succ {word left name right : Token} {n : Nat} {rest : List Token} (hword : word.kind = .keyword .if)
    (hleft : left.kind = .punct .parenOpen) (hname : name.kind = .identifier)
    (hright : right.kind = .punct .parenClose) (hrest : IsChoices n rest) :
    IsChoices (n + 1) (word :: left :: name :: right :: rest)

theorem IsChoices.length {n : Nat} {tokens : List Token} (h : IsChoices n tokens) : tokens.length = 4 * n + 2 := by
  induction h with
  | zero => rfl
  | succ _ _ _ _ _ ih =>
    simp only [List.length_cons, ih]
    omega

/-! ## From the text to its tokens -/

namespace Lexer

end Lexer

namespace Parse

end Parse

end ScriptEngine.Source
