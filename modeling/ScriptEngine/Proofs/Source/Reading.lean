import ScriptEngine.Source.Parse
/-!
What the reader reads.

For each function of the reader there is one lemma that says what it has read where it gives a tree: which parts, by
which functions, and what it made of them. Only tokens that an argument depends on are kept.
-/

namespace ScriptEngine.Source

namespace Stream

theorem eq_advance_of_expect {s s' : Stream} {p : Punct} (h : s.expect p = .ok s') :
    s.at_ p = true ∧ s' = s.advance := by
  unfold expect at h
  split at h
  · rename_i hat
    cases h
    exact ⟨hat, rfl⟩
  · cases h

end Stream

namespace Parse

theorem ok_of_bind {α β : Type} {x : Except Stop α} {f : α → Except Stop β} {b : β} (h : x >>= f = .ok b) :
    ∃ a, x = .ok a ∧ f a = .ok b := by
  cases x with
  | ok a => exact ⟨a, rfl, h⟩
  | error e => cases h

/-- Whether the token at hand accesses what is in front of it. -/
def continues (s : Stream) : Bool :=
  s.at_ .dot || s.at_ .bracketOpen || s.at_ .parenOpen

variable {budget depth n : Nat} {s stop : Stream} {e : Expr}

/-! ## Expressions -/

theorem expr_ok (h : expr s depth (budget + 1) = .ok (e, stop)) :
    ∃ deep target s₁, conditional s deep budget = .ok (target, s₁)
      ∧ ((assignment? s₁.kind = none ∧ e = target ∧ stop = s₁)
        ∨ ∃ op value, assignment? s₁.kind = some op ∧ expr s₁.advance deep budget = .ok (value, stop)
          ∧ e = .assign op target value stop.line) := by
  simp only [expr] at h
  obtain ⟨deep, -, h⟩ := ok_of_bind h
  obtain ⟨⟨target, s₁⟩, htarget, h⟩ := ok_of_bind h
  refine ⟨deep, target, s₁, htarget, ?_⟩
  dsimp only at h
  split at h
  · rename_i hnone
    cases h
    exact .inl ⟨hnone, rfl, rfl⟩
  · rename_i op hop
    obtain ⟨⟨value, s₂⟩, hvalue, h⟩ := ok_of_bind h
    cases h
    exact .inr ⟨op, value, hop, hvalue, rfl⟩

theorem conditional_ok (h : conditional s depth (budget + 1) = .ok (e, stop)) :
    ∃ test s₁, level 0 s depth budget = .ok (test, s₁)
      ∧ ((e = test ∧ stop = s₁)
        ∨ ∃ yes colon no, s₁.at_ .question = true ∧ conditional s₁.advance depth budget = .ok (yes, colon)
          ∧ colon.at_ .colon = true ∧ conditional colon.advance depth budget = .ok (no, stop)
          ∧ e = .conditional test yes no s₁.advance.line colon.line) := by
  simp only [conditional] at h
  obtain ⟨⟨test, s₁⟩, htest, h⟩ := ok_of_bind h
  refine ⟨test, s₁, htest, ?_⟩
  dsimp only at h
  split at h
  · rename_i hquestion
    obtain ⟨⟨yes, colon⟩, hyes, h⟩ := ok_of_bind h
    obtain ⟨s₂, hcolon, h⟩ := ok_of_bind h
    obtain ⟨hat, rfl⟩ := Stream.eq_advance_of_expect hcolon
    obtain ⟨⟨no, s₃⟩, hno, h⟩ := ok_of_bind h
    cases h
    exact .inr ⟨yes, colon, no, hquestion, hyes, hat, hno, rfl⟩
  · cases h
    exact .inl ⟨rfl, rfl⟩

theorem level_ok (h : level n s depth (budget + 1) = .ok (e, stop)) :
    ∃ deep left s₁, operand n s deep budget = .ok (left, s₁) ∧ operators n left s₁ deep budget = .ok (e, stop) := by
  simp only [level] at h
  obtain ⟨deep, -, h⟩ := ok_of_bind h
  obtain ⟨⟨left, s₁⟩, hleft, h⟩ := ok_of_bind h
  exact ⟨deep, left, s₁, hleft, h⟩

theorem operand_ok (h : operand n s depth (budget + 1) = .ok (e, stop)) :
    (n + 1 < levels ∧ level (n + 1) s depth budget = .ok (e, stop))
      ∨ (levels ≤ n + 1 ∧ unary s depth false budget = .ok (e, stop)) := by
  simp only [operand] at h
  split at h
  · exact .inl ⟨‹_›, h⟩
  · exact .inr ⟨Nat.le_of_not_lt ‹_›, h⟩

theorem operators_ok {left : Expr} (h : operators n left s depth (budget + 1) = .ok (e, stop)) :
    (binary? n s.kind = none ∧ e = left ∧ stop = s)
      ∨ (∃ op right s₁, binary? n s.kind = some (.plain op) ∧ operand n s.advance depth budget = .ok (right, s₁)
        ∧ operators n (.binary op left right s₁.line) s₁ depth budget = .ok (e, stop))
      ∨ (∃ right s₁, binary? n s.kind = some .both ∧ level n s.advance depth budget = .ok (right, s₁)
        ∧ operators n (.both left right s.advance.line) s₁ depth budget = .ok (e, stop))
      ∨ ∃ right s₁, binary? n s.kind = some .either ∧ level n s.advance depth budget = .ok (right, s₁)
        ∧ operators n (.either left right s.advance.line) s₁ depth budget = .ok (e, stop) := by
  simp only [operators] at h
  split at h
  · cases h
    exact .inl ⟨‹_›, rfl, rfl⟩
  · obtain ⟨⟨right, s₁⟩, hright, h⟩ := ok_of_bind h
    exact .inr (.inl ⟨_, right, s₁, ‹_›, hright, h⟩)
  · obtain ⟨⟨right, s₁⟩, hright, h⟩ := ok_of_bind h
    exact .inr (.inr (.inl ⟨right, s₁, ‹_›, hright, h⟩))
  · obtain ⟨⟨right, s₁⟩, hright, h⟩ := ok_of_bind h
    exact .inr (.inr (.inr ⟨right, s₁, ‹_›, hright, h⟩))

theorem unary_ok {updated : Bool} (h : unary s depth updated (budget + 1) = .ok (e, stop)) :
    (∃ op deep inner, unary? s.kind = some op ∧ unary s.advance deep (isPrefixUpdate op) budget = .ok (inner, stop)
        ∧ e = .unary op inner stop.line)
      ∨ ∃ first s₁ inner s₂, primary s depth updated budget = .ok (first, s₁)
        ∧ accesses first s₁ depth updated budget = .ok (inner, s₂)
        ∧ ((update? s₂.kind = none ∧ e = inner ∧ stop = s₂)
          ∨ ∃ op, update? s₂.kind = some op ∧ e = .unary op inner s₂.advance.line ∧ stop = s₂.advance) := by
  simp only [unary] at h
  split at h
  · rename_i op hop
    obtain ⟨deep, -, h⟩ := ok_of_bind h
    obtain ⟨⟨inner, s₁⟩, hinner, h⟩ := ok_of_bind h
    cases h
    exact .inl ⟨op, deep, inner, hop, hinner, rfl⟩
  · obtain ⟨⟨first, s₁⟩, hfirst, h⟩ := ok_of_bind h
    obtain ⟨⟨inner, s₂⟩, hinner, h⟩ := ok_of_bind h
    refine .inr ⟨first, s₁, inner, s₂, hfirst, hinner, ?_⟩
    dsimp only at h
    split at h
    · rename_i op hop
      cases h
      exact .inr ⟨op, hop, rfl, rfl⟩
    · rename_i hnone
      cases h
      exact .inl ⟨hnone, rfl, rfl⟩

theorem accesses_ok {first : Expr} {updated : Bool} (h : accesses first s depth updated (budget + 1) = .ok (e, stop)) :
    (continues s = false ∧ e = first ∧ stop = s)
      ∨ (continues s = true ∧ ∃ name line s₁,
        accesses (.member first name line (fetch? s₁ updated)) s₁ depth updated budget = .ok (e, stop))
      ∨ (continues s = true ∧ ∃ key s₁ line s₂, expr s.advance depth budget = .ok (key, s₁)
        ∧ accesses (.index first key line (fetch? s₂ updated)) s₂ depth updated budget = .ok (e, stop))
      ∨ (continues s = true ∧ ∃ args s₁ line closeLine s₂, arguments s.advance depth budget = .ok (args, s₁)
        ∧ accesses (.call first line args closeLine) s₂ depth updated budget = .ok (e, stop)) := by
  simp only [accesses] at h
  split at h
  · rename_i hdot
    split at h
    · cases h
    · exact .inr (.inl ⟨by simp [continues, hdot], _, _, _, h⟩)
  · split at h
    · rename_i hbracket
      obtain ⟨⟨key, s₁⟩, hkey, h⟩ := ok_of_bind h
      obtain ⟨s₂, -, h⟩ := ok_of_bind h
      exact .inr (.inr (.inl ⟨by simp [continues, hbracket], key, s₁, _, s₂, hkey, h⟩))
    · split at h
      · rename_i hparen
        obtain ⟨⟨args, s₁⟩, hargs, h⟩ := ok_of_bind h
        obtain ⟨s₂, -, h⟩ := ok_of_bind h
        exact .inr (.inr (.inr ⟨by simp [continues, hparen], args, s₁, _, _, s₂, hargs, h⟩))
      · rename_i hdot hbracket hparen
        cases h
        exact .inl ⟨by simp [continues, hdot, hbracket, hparen], rfl, rfl⟩

theorem arguments_ok {args : Exprs} (h : arguments s depth (budget + 1) = .ok (args, stop)) :
    args = .nil ∨ ∃ first s₁ s₂ rest s₃, expr s depth budget = .ok (first, s₁)
      ∧ arguments s₂ depth budget = .ok (rest, s₃) ∧ args = .cons first rest := by
  simp only [arguments] at h
  split at h
  · cases h
    exact .inl rfl
  · obtain ⟨⟨first, s₁⟩, hfirst, h⟩ := ok_of_bind h
    dsimp only at h
    repeat' split at h
    all_goals
      obtain ⟨s₂, -, h⟩ := ok_of_bind h
      obtain ⟨⟨rest, s₃⟩, hrest, h⟩ := ok_of_bind h
      cases h
      exact .inr ⟨first, s₁, s₂, rest, _, hfirst, hrest, rfl⟩

theorem primary_ok {updated : Bool} (h : primary s depth updated (budget + 1) = .ok (e, stop)) :
    (∃ all line s₁, entries s.advance depth budget = .ok (all, s₁) ∧ e = .object line all)
      ∨ (∃ all line s₁, elements s.advance depth budget = .ok (all, s₁) ∧ e = .array line all)
      ∨ function s.advance depth budget = .ok (e, stop)
      ∨ (∃ inner s₁, expr s.advance depth budget = .ok (inner, s₁) ∧ e = .paren inner)
      ∨ (∃ name line, e = .variable name line (fetch? stop updated))
      ∨ ∃ l line, e = .literal l line := by
  simp only [primary] at h
  split at h
  · obtain ⟨⟨all, s₁⟩, hall, h⟩ := ok_of_bind h
    cases h
    exact .inl ⟨all, _, s₁, hall, rfl⟩
  · obtain ⟨⟨all, s₁⟩, hall, h⟩ := ok_of_bind h
    cases h
    exact .inr (.inl ⟨all, _, s₁, hall, rfl⟩)
  · exact .inr (.inr (.inl h))
  · obtain ⟨⟨inner, s₁⟩, hinner, h⟩ := ok_of_bind h
    obtain ⟨s₂, -, h⟩ := ok_of_bind h
    cases h
    exact .inr (.inr (.inr (.inl ⟨inner, s₁, hinner, rfl⟩)))
  · cases h
    exact .inr (.inr (.inr (.inr (.inl ⟨_, _, rfl⟩))))
  · obtain ⟨l, -, h⟩ := ok_of_bind h
    cases l with
    | none => cases h
    | some l =>
      cases h
      exact .inr (.inr (.inr (.inr (.inr ⟨l, _, rfl⟩))))

theorem entries_ok {all : Entries} (h : entries s depth (budget + 1) = .ok (all, stop)) :
    all = .nil ∨ ∃ key keyLine s₁ value s₂ line s₃ rest s₄, expr s₁ depth budget = .ok (value, s₂)
      ∧ entries s₃ depth budget = .ok (rest, s₄) ∧ all = .cons key keyLine value line rest := by
  simp only [entries] at h
  split at h
  · cases h
    exact .inl rfl
  · split at h
    · cases h
    · obtain ⟨s₁, -, h⟩ := ok_of_bind h
      obtain ⟨⟨value, s₂⟩, hvalue, h⟩ := ok_of_bind h
      dsimp only at h
      repeat' split at h
      all_goals
        obtain ⟨s₃, -, h⟩ := ok_of_bind h
        obtain ⟨⟨rest, s₄⟩, hrest, h⟩ := ok_of_bind h
        cases h
        exact .inr ⟨_, _, s₁, value, s₂, _, s₃, rest, _, hvalue, hrest, rfl⟩

theorem elements_ok {all : Elements} (h : elements s depth (budget + 1) = .ok (all, stop)) :
    all = .nil ∨ ∃ startLine value s₁ line s₂ rest s₃, expr s depth budget = .ok (value, s₁)
      ∧ elements s₂ depth budget = .ok (rest, s₃) ∧ all = .cons startLine value line rest := by
  simp only [elements] at h
  split at h
  · cases h
    exact .inl rfl
  · obtain ⟨⟨value, s₁⟩, hvalue, h⟩ := ok_of_bind h
    dsimp only at h
    repeat' split at h
    all_goals
      obtain ⟨s₂, -, h⟩ := ok_of_bind h
      obtain ⟨⟨rest, s₃⟩, hrest, h⟩ := ok_of_bind h
      cases h
      exact .inr ⟨_, value, s₁, _, s₂, rest, _, hvalue, hrest, rfl⟩

theorem function_ok (h : function s depth (budget + 1) = .ok (e, stop)) :
    ∃ name line paramsLine params s₁ deep code s₂ endLine, body s₁ true deep budget = .ok (code, s₂)
      ∧ e = .function name line paramsLine params code endLine := by
  simp only [function] at h
  obtain ⟨first, -, h⟩ := ok_of_bind h
  obtain ⟨⟨names, close⟩, -, h⟩ := ok_of_bind h
  obtain ⟨brace, -, h⟩ := ok_of_bind h
  obtain ⟨deep, -, h⟩ := ok_of_bind h
  obtain ⟨inner, -, h⟩ := ok_of_bind h
  obtain ⟨⟨code, s₁⟩, hcode, h⟩ := ok_of_bind h
  obtain ⟨s₂, -, h⟩ := ok_of_bind h
  cases h
  exact ⟨_, _, _, _, _, _, code, s₁, _, hcode, rfl⟩

/-! ## Statements -/

theorem body_ok {braces : Bool} {code : Body} (h : body s braces depth (budget + 1) = .ok (code, stop)) :
    (∃ line, code = .none line) ∨ body s.advance braces depth budget = .ok (code, stop)
      ∨ ∃ first s₁ rest, statement s depth budget = .ok (first, s₁)
        ∧ statements s₁ braces depth budget = .ok (rest, stop) ∧ code = .some first rest := by
  simp only [body] at h
  split at h
  · cases h
    exact .inl ⟨_, rfl⟩
  · split at h
    · exact .inr (.inl h)
    · obtain ⟨⟨first, s₁⟩, hfirst, h⟩ := ok_of_bind h
      obtain ⟨⟨rest, s₂⟩, hrest, h⟩ := ok_of_bind h
      cases h
      exact .inr (.inr ⟨first, s₁, rest, hfirst, hrest, rfl⟩)

theorem statements_ok {braces : Bool} {all : Stmts} (h : statements s braces depth (budget + 1) = .ok (all, stop)) :
    all = .nil ∨ statements s.advance braces depth budget = .ok (all, stop)
      ∨ ∃ line next s₁ rest, statement s depth budget = .ok (next, s₁)
        ∧ statements s₁ braces depth budget = .ok (rest, stop) ∧ all = .cons line next rest := by
  simp only [statements] at h
  split at h
  · cases h
    exact .inl rfl
  · split at h
    · exact .inr (.inl h)
    · obtain ⟨⟨next, s₁⟩, hnext, h⟩ := ok_of_bind h
      obtain ⟨⟨rest, s₂⟩, hrest, h⟩ := ok_of_bind h
      cases h
      exact .inr (.inr ⟨_, next, s₁, rest, hnext, hrest, rfl⟩)

/-- The statements that are a word, or a semicolon. -/
def IsWord (t : Stmt) : Prop :=
  ∃ line, t = .empty line ∨ t = .returnNone line ∨ t = .break line ∨ t = .continue line

theorem statement_ok {t : Stmt} (h : statement s depth (budget + 1) = .ok (t, stop)) :
    IsWord t
      ∨ (∃ first s₁ rest, declarator s.advance depth budget = .ok (first, s₁)
        ∧ declarators s₁ depth budget = .ok (rest, stop) ∧ t = .declare first rest)
      ∨ (∃ line deep code s₁ endLine, body s.advance true deep budget = .ok (code, s₁) ∧ t = .block line code endLine)
      ∨ (∃ value endLine, expr s.advance depth budget = .ok (value, stop) ∧ t = .returnValue value endLine)
      ∨ (∃ s₁, forIn s₁ depth budget = .ok (t, stop))
      ∨ (∃ s₁, forClauses s₁ depth budget = .ok (t, stop))
      ∨ (∃ line s₁ test s₂ bodyLine s₃ code endLine, expr s₁ depth budget = .ok (test, s₂)
        ∧ loopBody s₃ depth budget = .ok (code, stop) ∧ t = .while line test bodyLine code endLine)
      ∨ ifStatement s.advance depth budget = .ok (t, stop)
      ∨ ∃ first s₁ rest, expr s depth budget = .ok (first, s₁) ∧ commas s₁ depth budget = .ok (rest, stop)
        ∧ t = .exprs first rest := by
  simp only [statement] at h
  split at h
  · cases h
    exact .inl ⟨_, .inl rfl⟩
  · obtain ⟨⟨first, s₁⟩, hfirst, h⟩ := ok_of_bind h
    obtain ⟨⟨rest, s₂⟩, hrest, h⟩ := ok_of_bind h
    cases h
    exact .inr (.inl ⟨first, s₁, rest, hfirst, hrest, rfl⟩)
  · obtain ⟨deep, -, h⟩ := ok_of_bind h
    obtain ⟨⟨code, s₁⟩, hcode, h⟩ := ok_of_bind h
    obtain ⟨s₂, -, h⟩ := ok_of_bind h
    cases h
    exact .inr (.inr (.inl ⟨_, deep, code, s₁, _, hcode, rfl⟩))
  · split at h
    · cases h
      exact .inl ⟨_, .inr (.inl rfl)⟩
    · obtain ⟨⟨value, s₁⟩, hvalue, h⟩ := ok_of_bind h
      cases h
      exact .inr (.inr (.inr (.inl ⟨value, _, hvalue, rfl⟩)))
  · obtain ⟨s₁, -, h⟩ := ok_of_bind h
    split at h
    · exact .inr (.inr (.inr (.inr (.inl ⟨s₁, h⟩))))
    · exact .inr (.inr (.inr (.inr (.inr (.inl ⟨s₁, h⟩)))))
  · obtain ⟨s₁, -, h⟩ := ok_of_bind h
    obtain ⟨⟨test, s₂⟩, htest, h⟩ := ok_of_bind h
    obtain ⟨s₃, -, h⟩ := ok_of_bind h
    obtain ⟨⟨code, s₄⟩, hcode, h⟩ := ok_of_bind h
    cases h
    exact .inr (.inr (.inr (.inr (.inr (.inr (.inl ⟨_, s₁, test, s₂, _, s₃, code, _, htest, hcode, rfl⟩))))))
  · exact .inr (.inr (.inr (.inr (.inr (.inr (.inr (.inl h)))))))
  · cases h
    exact .inl ⟨_, .inr (.inr (.inl rfl))⟩
  · cases h
    exact .inl ⟨_, .inr (.inr (.inr rfl))⟩
  · split at h
    · cases h
    · obtain ⟨⟨first, s₁⟩, hfirst, h⟩ := ok_of_bind h
      obtain ⟨⟨rest, s₂⟩, hrest, h⟩ := ok_of_bind h
      cases h
      exact .inr (.inr (.inr (.inr (.inr (.inr (.inr (.inr ⟨first, s₁, rest, hfirst, hrest, rfl⟩)))))))

theorem commas_ok {all : Commas} (h : commas s depth (budget + 1) = .ok (all, stop)) :
    all = .nil ∨ ∃ line next s₁ rest, expr s.advance depth budget = .ok (next, s₁)
      ∧ commas s₁ depth budget = .ok (rest, stop) ∧ all = .cons line next rest := by
  simp only [commas] at h
  split at h
  · obtain ⟨⟨next, s₁⟩, hnext, h⟩ := ok_of_bind h
    obtain ⟨⟨rest, s₂⟩, hrest, h⟩ := ok_of_bind h
    cases h
    exact .inr ⟨_, next, s₁, rest, hnext, hrest, rfl⟩
  · cases h
    exact .inl rfl

theorem declarator_ok {d : Declarator} (h : declarator s depth (budget + 1) = .ok (d, stop)) :
    (∃ name line endLine, d = .plain name line endLine)
      ∨ ∃ name line valueLine s₁ value endLine, expr s₁ depth budget = .ok (value, stop)
        ∧ d = .init name line valueLine value endLine := by
  simp only [declarator] at h
  split at h
  · split at h
    · obtain ⟨⟨value, s₁⟩, hvalue, h⟩ := ok_of_bind h
      cases h
      exact .inr ⟨_, _, _, _, value, _, hvalue, rfl⟩
    · cases h
      exact .inl ⟨_, _, _, rfl⟩
  · cases h

theorem declarators_ok {all : Declarators} (h : declarators s depth (budget + 1) = .ok (all, stop)) :
    all = .nil ∨ ∃ line d s₁ rest, declarator s.advance depth budget = .ok (d, s₁)
      ∧ declarators s₁ depth budget = .ok (rest, stop) ∧ all = .cons line d rest := by
  simp only [declarators] at h
  split at h
  · obtain ⟨⟨d, s₁⟩, hd, h⟩ := ok_of_bind h
    obtain ⟨⟨rest, s₂⟩, hrest, h⟩ := ok_of_bind h
    cases h
    exact .inr ⟨_, d, s₁, rest, hd, hrest, rfl⟩
  · cases h
    exact .inl rfl

theorem ifStatement_ok {t : Stmt} (h : ifStatement s depth (budget + 1) = .ok (t, stop)) :
    ∃ s₁ test s₂ line s₃ yes s₄, expr s₁ depth budget = .ok (test, s₂) ∧ statement s₃ depth budget = .ok (yes, s₄)
      ∧ (t = .ifThen test line yes ∨ ∃ s₅ elseLine no, statement s₅ depth budget = .ok (no, stop)
        ∧ t = .ifElse test line yes elseLine no) := by
  simp only [ifStatement] at h
  obtain ⟨s₁, -, h⟩ := ok_of_bind h
  obtain ⟨⟨test, s₂⟩, htest, h⟩ := ok_of_bind h
  obtain ⟨s₃, -, h⟩ := ok_of_bind h
  obtain ⟨⟨yes, s₄⟩, hyes, h⟩ := ok_of_bind h
  refine ⟨s₁, test, s₂, s₂.line, s₃, yes, s₄, htest, hyes, ?_⟩
  dsimp only at h
  generalize (if (s₄.at_ .semicolon && s₄.advance.atWord .else) = true then s₄.advance else s₄) = behind at h
  split at h
  · obtain ⟨⟨no, s₅⟩, hno, h⟩ := ok_of_bind h
    cases h
    exact .inr ⟨_, _, no, hno, rfl⟩
  · cases h
    exact .inl rfl

theorem loopBody_ok {code : LoopBody} (h : loopBody s depth (budget + 1) = .ok (code, stop)) :
    (∃ s₁ deep all s₂, body s₁ true deep budget = .ok (all, s₂) ∧ code = .braces all)
      ∨ ∃ one, statement s depth budget = .ok (one, stop) ∧ code = .single one := by
  simp only [loopBody] at h
  split at h
  · obtain ⟨deep, -, h⟩ := ok_of_bind h
    obtain ⟨⟨all, s₁⟩, hall, h⟩ := ok_of_bind h
    obtain ⟨s₂, -, h⟩ := ok_of_bind h
    cases h
    exact .inl ⟨_, deep, all, s₁, hall, rfl⟩
  · obtain ⟨⟨one, s₁⟩, hone, h⟩ := ok_of_bind h
    cases h
    exact .inr ⟨one, hone, rfl⟩

theorem clause_ok {closing : Punct} {c : Clause} (h : clause s closing depth (budget + 1) = .ok (c, stop)) :
    (∃ line, c = .none line) ∨ ∃ inner, expr s depth budget = .ok (inner, stop) ∧ c = .expr inner := by
  simp only [clause] at h
  split at h
  · cases h
    exact .inl ⟨_, rfl⟩
  · obtain ⟨⟨inner, s₁⟩, hinner, h⟩ := ok_of_bind h
    cases h
    exact .inr ⟨inner, hinner, rfl⟩

/-- A counting loop behind what it starts with. -/
theorem forClauses_behind {t : Stmt} {line : Nat} {start : ForStart}
    (h : (do
        let s ← s.expect .semicolon
        let (test, s₁) ← clause s .semicolon depth budget
        let s₁ ← s₁.expect .semicolon
        let (step, s₂) ← clause s₁ .parenClose depth budget
        let s₂ ← s₂.expect .parenClose
        let (code, s₃) ← loopBody s₂ depth budget
        return (Stmt.for line start s.line test step s₂.line code s₃.line, s₃)) = .ok (t, stop)) :
    ∃ s₁ testLine test s₂ s₃ step s₄ s₅ bodyLine code endLine, clause s₁ .semicolon depth budget = .ok (test, s₂)
      ∧ clause s₃ .parenClose depth budget = .ok (step, s₄) ∧ loopBody s₅ depth budget = .ok (code, stop)
      ∧ t = .for line start testLine test step bodyLine code endLine := by
  obtain ⟨s₁, -, h⟩ := ok_of_bind h
  obtain ⟨⟨test, s₂⟩, htest, h⟩ := ok_of_bind h
  obtain ⟨s₃, -, h⟩ := ok_of_bind h
  obtain ⟨⟨step, s₄⟩, hstep, h⟩ := ok_of_bind h
  obtain ⟨s₅, -, h⟩ := ok_of_bind h
  obtain ⟨⟨code, s₆⟩, hcode, h⟩ := ok_of_bind h
  cases h
  exact ⟨s₁, _, test, s₂, s₃, step, s₄, s₅, _, code, _, htest, hstep, hcode, rfl⟩

theorem forClauses_ok {t : Stmt} (h : forClauses s depth (budget + 1) = .ok (t, stop)) :
    ∃ line start, ((∃ line, start = .none line)
        ∨ (∃ first s₁ rest s₂, declarator s.advance depth budget = .ok (first, s₁)
          ∧ declarators s₁ depth budget = .ok (rest, s₂) ∧ start = .declare first rest)
        ∨ ∃ first s₁, expr s depth budget = .ok (first, s₁) ∧ start = .expr first)
      ∧ ∃ s₁ testLine test s₂ s₃ step s₄ s₅ bodyLine code endLine, clause s₁ .semicolon depth budget = .ok (test, s₂)
        ∧ clause s₃ .parenClose depth budget = .ok (step, s₄) ∧ loopBody s₅ depth budget = .ok (code, stop)
        ∧ t = .for line start testLine test step bodyLine code endLine := by
  simp only [forClauses] at h
  split at h
  · exact ⟨_, _, .inl ⟨_, rfl⟩, forClauses_behind h⟩
  · split at h
    · obtain ⟨⟨first, s₁⟩, hfirst, h⟩ := ok_of_bind h
      obtain ⟨⟨rest, s₂⟩, hrest, h⟩ := ok_of_bind h
      exact ⟨_, _, .inr (.inl ⟨first, s₁, rest, s₂, hfirst, hrest, rfl⟩), forClauses_behind h⟩
    · obtain ⟨⟨first, s₁⟩, hfirst, h⟩ := ok_of_bind h
      exact ⟨_, _, .inr (.inr ⟨first, s₁, hfirst, rfl⟩), forClauses_behind h⟩

theorem forIn_ok {t : Stmt} (h : forIn s depth (budget + 1) = .ok (t, stop)) :
    ∃ line declared name nameLine s₁ object s₂ s₃ bodyLine code endLine, expr s₁ depth budget = .ok (object, s₂)
      ∧ loopBody s₃ depth budget = .ok (code, stop)
      ∧ t = .forIn line declared name nameLine object bodyLine code endLine := by
  simp only [forIn] at h
  obtain ⟨s₁, -, h⟩ := ok_of_bind h
  obtain ⟨⟨object, s₂⟩, hobject, h⟩ := ok_of_bind h
  obtain ⟨s₃, -, h⟩ := ok_of_bind h
  obtain ⟨⟨code, s₄⟩, hcode, h⟩ := ok_of_bind h
  cases h
  exact ⟨_, _, _, _, s₁, object, s₂, s₃, _, code, _, hobject, hcode, rfl⟩

end Parse

/-! ## Programs -/

/-- A program is a body that is read from the first token of its source to the last one. -/
theorem parseScript_tokens {source : String} {s : Script} (h : parseScript source = .ok s) :
    ∃ first rest stop, tokenize source.toList = first :: rest
      ∧ Parse.body ⟨first, rest⟩ false 0 (Parse.budgetFor rest.length) = .ok (s.body, stop) := by
  unfold parseScript at h
  cases hsource : parse source.toList with
  | error stop =>
    rw [hsource] at h
    cases stop <;> cases h
  | ok script =>
    rw [hsource] at h
    cases h
    unfold parse at hsource
    split at hsource
    · cases hsource
    · rename_i first rest htokens
      obtain ⟨⟨all, stop⟩, hall, hsource⟩ := Parse.ok_of_bind hsource
      dsimp only at hsource
      split at hsource
      · cases hsource
        exact ⟨first, rest, stop, htokens, hall⟩
      · cases hsource

end ScriptEngine.Source
