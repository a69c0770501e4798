import ScriptEngine.Proofs.Source.Reading
/-!
Targets of assignments and updates.

A source should assign to and update variables and members only (`Targets.script`). The reader does not
see to that: whether a reference is read is decided by the token behind it, long before the operator that
may want it. `Settled` says what the compiler counts on: the operand of an assignment or an update is a
reference that is not read, and every other expression gives its value. Where the targets are what they
should be, what the reader makes is settled (`settled_of_parse`).
-/

namespace ScriptEngine.Code

/-- How many operands an operator has on the stack. A target that is written to is a name and an object. -/
def Operator.operands : Operator → Nat
  | .not | .bitNot | .neg | .pos | .typeOf => 1
  | .assign | .addAssign | .subAssign | .mulAssign | .divAssign | .remAssign | .shlAssign | .shrAssign
  | .ushrAssign | .bitAndAssign | .bitOrAssign | .bitXorAssign => 3
  | _ => 2

end ScriptEngine.Code

namespace ScriptEngine.Source

open Code (Operator)

/-- Whether the operator updates its operand. -/
def updates : Operator → Bool
  | .preInc | .preDec | .postInc | .postDec => true
  | _ => false

/-- A variable, or a member without parentheses around it. -/
def Expr.isReference : Expr → Bool
  | .variable _ _ _ | .member _ _ _ _ | .index _ _ _ _ => true
  | _ => false

/-! ## What a source should be -/

namespace Targets

mutual

/-- All targets in an expression are references. -/
def expr : Expr → Bool
  | .literal _ _ | .variable _ _ _ => true
  | .paren inner => expr inner
  | .member object _ _ _ => expr object
  | .index object key _ _ => expr object && expr key
  | .call callee _ args _ => expr callee && exprs args
  | .unary op inner _ => (!updates op || inner.isReference) && expr inner
  | .binary _ left right _ | .both left right _ | .either left right _ => expr left && expr right
  | .conditional test yes no _ _ => expr test && expr yes && expr no
  | .assign _ target value _ => target.isReference && expr target && expr value
  | .function _ _ _ _ code _ => body code
  | .object _ all => entries all
  | .array _ all => elements all

def exprs : Exprs → Bool
  | .nil => true
  | .cons first rest => expr first && exprs rest

def entries : Entries → Bool
  | .nil => true
  | .cons _ _ value _ rest => expr value && entries rest

def elements : Elements → Bool
  | .nil => true
  | .cons _ value _ rest => expr value && elements rest

/-- All targets in a statement are references. -/
def stmt : Stmt → Bool
  | .empty _ | .returnNone _ | .break _ | .continue _ => true
  | .declare first rest => declarator first && declarators rest
  | .block _ code _ => body code
  | .returnValue value _ => expr value
  | .exprs first rest => expr first && commas rest
  | .ifThen test _ yes => expr test && stmt yes
  | .ifElse test _ yes _ no => expr test && stmt yes && stmt no
  | .while _ test _ code _ => expr test && loopBody code
  | .for _ start _ test step _ code _ =>
    forStart start && clause test && clause step && loopBody code
  | .forIn _ _ _ _ object _ code _ => expr object && loopBody code

def declarator : Declarator → Bool
  | .plain _ _ _ => true
  | .init _ _ _ value _ => expr value

def declarators : Declarators → Bool
  | .nil => true
  | .cons _ d rest => declarator d && declarators rest

def commas : Commas → Bool
  | .nil => true
  | .cons _ next rest => expr next && commas rest

def body : Body → Bool
  | .none _ => true
  | .some first rest => stmt first && stmts rest

def stmts : Stmts → Bool
  | .nil => true
  | .cons _ next rest => stmt next && stmts rest

def loopBody : LoopBody → Bool
  | .braces code => body code
  | .single s => stmt s

def forStart : ForStart → Bool
  | .none _ => true
  | .declare first rest => declarator first && declarators rest
  | .expr start => expr start

def clause : Clause → Bool
  | .none _ => true
  | .expr inner => expr inner

end

/-- All targets of a program are references. -/
def script (s : Script) : Bool :=
  body s.body

end Targets

/-! ## What the compiler counts on -/

namespace Settled

mutual

/-- An expression gives its value, or else the reference that it is; the expressions in it give what
they are wanted for, and as much of it as the operator takes. -/
def expr (value : Bool) : Expr → Prop
  | .literal _ _ => value = true
  | .variable _ _ get => get.isSome = value
  | .paren inner => value = true ∧ expr true inner
  | .member object _ _ get => get.isSome = value ∧ expr true object
  | .index object key _ get => get.isSome = value ∧ expr true object ∧ expr true key
  | .call callee _ args _ => value = true ∧ expr true callee ∧ exprs args
  | .unary op inner _ => value = true ∧ op.operands = cond (!updates op) 1 2 ∧ expr (!updates op) inner
  | .binary op left right _ => value = true ∧ op.operands = 2 ∧ expr true left ∧ expr true right
  | .both left right _ | .either left right _ => value = true ∧ expr true left ∧ expr true right
  | .conditional test yes no _ _ => value = true ∧ expr true test ∧ expr true yes ∧ expr true no
  | .assign op target new _ => value = true ∧ op.operands = 3 ∧ expr false target ∧ expr true new
  | .function _ _ _ _ code _ => value = true ∧ body code
  | .object _ all => value = true ∧ entries all
  | .array _ all => value = true ∧ elements all

def exprs : Exprs → Prop
  | .nil => True
  | .cons first rest => expr true first ∧ exprs rest

def entries : Entries → Prop
  | .nil => True
  | .cons _ _ value _ rest => expr true value ∧ entries rest

def elements : Elements → Prop
  | .nil => True
  | .cons _ value _ rest => expr true value ∧ elements rest

/-- The expressions in a statement give what they are wanted for. -/
def stmt : Stmt → Prop
  | .empty _ | .returnNone _ | .break _ | .continue _ => True
  | .declare first rest => declarator first ∧ declarators rest
  | .block _ code _ => body code
  | .returnValue value _ => expr true value
  | .exprs first rest => expr true first ∧ commas rest
  | .ifThen test _ yes => expr true test ∧ stmt yes
  | .ifElse test _ yes _ no => expr true test ∧ stmt yes ∧ stmt no
  | .while _ test _ code _ => expr true test ∧ loopBody code
  | .for _ start _ test step _ code _ =>
    forStart start ∧ clause test ∧ clause step ∧ loopBody code
  | .forIn _ _ _ _ object _ code _ => expr true object ∧ loopBody code

def declarator : Declarator → Prop
  | .plain _ _ _ => True
  | .init _ _ _ value _ => expr true value

def declarators : Declarators → Prop
  | .nil => True
  | .cons _ d rest => declarator d ∧ declarators rest

def commas : Commas → Prop
  | .nil => True
  | .cons _ next rest => expr true next ∧ commas rest

def body : Body → Prop
  | .none _ => True
  | .some first rest => stmt first ∧ stmts rest

def stmts : Stmts → Prop
  | .nil => True
  | .cons _ next rest => stmt next ∧ stmts rest

def loopBody : LoopBody → Prop
  | .braces code => body code
  | .single s => stmt s

def forStart : ForStart → Prop
  | .none _ => True
  | .declare first rest => declarator first ∧ declarators rest
  | .expr start => expr true start

def clause : Clause → Prop
  | .none _ => True
  | .expr inner => expr true inner

end

end Settled

/-! ## What the reader makes -/

namespace Parse

/-- An expression that ends at a token: behind an operator that updates it, or in front of an assignment,
a reference is not read. -/
def Ends (updated : Bool) (e : Expr) (s : Stream) : Prop :=
  Targets.expr e = true →
    (e.isReference = true → updated = true ∨ (assignment? s.kind).isSome = true → Settled.expr false e)
      ∧ ((assignment? s.kind).isSome = false → e.isReference = false ∨ updated = false → Settled.expr true e)

/-- An operand that accesses may follow, and that is read if what follows wants it to be. -/
def Chained (updated : Bool) (e : Expr) (s : Stream) : Prop :=
  Targets.expr e = true → Settled.expr (!e.isReference || (fetch? s updated).isSome) e

theorem kind_of_at {s : Stream} {p : Punct} (h : s.at_ p = true) : s.kind = .punct p := by
  simpa [Stream.at_, Stream.kind, Token.isPunct] using h

theorem isSome_fetch? (s : Stream) (updated : Bool) :
    (fetch? s updated).isSome
      = !((assignment? s.kind).isSome || (update? s.kind).isSome || (updated && !continues s)) := by
  unfold fetch?
  show (if _ = true then none else some s.line).isSome = _
  rw [show (s.at_ .dot || s.at_ .bracketOpen || s.at_ .parenOpen) = continues s from rfl]
  cases (assignment? s.kind).isSome || (update? s.kind).isSome || (updated && !continues s) <;> rfl

/-- What is accessed is read. -/
theorem isSome_fetch?_of_continues {s : Stream} (h : continues s = true) (updated : Bool) :
    (fetch? s updated).isSome = true := by
  have hkind : assignment? s.kind = none ∧ update? s.kind = none := by
    simp only [continues, Bool.or_eq_true] at h
    rcases h with (h | h) | h <;> rw [kind_of_at h] <;> exact ⟨rfl, rfl⟩
  rw [isSome_fetch?, hkind.1, hkind.2, h]
  cases updated <;> rfl

theorem Chained.settled {updated : Bool} {e : Expr} {s : Stream} (h : Chained updated e s)
    (hs : continues s = true) (ht : Targets.expr e = true) : Settled.expr true e := by
  have := h ht
  rwa [isSome_fetch?_of_continues hs, Bool.or_true] at this

theorem chained_of_settled {updated : Bool} {e : Expr} {s : Stream} (hne : e.isReference = false)
    (h : Targets.expr e = true → Settled.expr true e) : Chained updated e s := by
  intro ht
  rw [hne]
  exact h ht

theorem binary?_eq_some {n : Nat} {kind : TokenKind} {op : Binary} (h : binary? n kind = some op) :
    assignment? kind = none := by
  unfold binary? at h
  split at h <;> first | rfl | cases h

theorem isReference_of_updates {op : Operator} {e : Expr} {line : Nat}
    (ht : Targets.expr (.unary op e line) = true) (hop : updates op = true) : e.isReference = true := by
  simp only [Targets.expr, hop, Bool.not_true, Bool.false_or, Bool.and_eq_true] at ht
  exact ht.1

theorem operands_of_assignment? {kind : TokenKind} {op : Operator} (h : assignment? kind = some op) :
    op.operands = 3 := by
  unfold assignment? at h
  split at h <;> cases h <;> rfl

theorem operands_of_binary? {n : Nat} {kind : TokenKind} {op : Operator}
    (h : binary? n kind = some (.plain op)) : op.operands = 2 := by
  unfold binary? at h
  split at h <;> cases h <;> rfl

theorem operands_of_unary? {kind : TokenKind} {op : Operator} (h : unary? kind = some op) :
    op.operands = cond (!updates op) 1 2 := by
  unfold unary? at h
  split at h <;> cases h <;> rfl

theorem operands_of_update? {kind : TokenKind} {op : Operator} (h : update? kind = some op) :
    op.operands = cond (!updates op) 1 2 := by
  unfold update? at h
  split at h <;> cases h <;> rfl

theorem updates_of_update? {kind : TokenKind} {op : Operator} (h : update? kind = some op) :
    updates op = true := by
  unfold update? at h
  split at h <;> cases h <;> rfl

theorem updates_of_unary? {kind : TokenKind} {op : Operator} (h : unary? kind = some op) :
    updates op = isPrefixUpdate op := by
  unfold unary? at h
  split at h <;> cases h <;> rfl

/-- What reading gives within a budget, for each kind of tree. -/
structure Settles (budget : Nat) : Prop where
  expr : ∀ {s depth e stop}, Parse.expr s depth budget = .ok (e, stop) → Targets.expr e = true →
    Settled.expr true e
  conditional : ∀ {s depth e stop}, Parse.conditional s depth budget = .ok (e, stop) → Ends false e stop
  level : ∀ {n s depth e stop}, Parse.level n s depth budget = .ok (e, stop) → Ends false e stop
  operand : ∀ {n s depth e stop}, Parse.operand n s depth budget = .ok (e, stop) → Ends false e stop
  operators : ∀ {n left s depth e stop}, Ends false left s →
    Parse.operators n left s depth budget = .ok (e, stop) → Ends false e stop
  unary : ∀ {s depth updated e stop}, Parse.unary s depth updated budget = .ok (e, stop) → Ends updated e stop
  accesses : ∀ {first s depth updated e stop}, Chained updated first s →
    Parse.accesses first s depth updated budget = .ok (e, stop) → Chained updated e stop ∧ continues stop = false
  arguments : ∀ {s depth args stop}, Parse.arguments s depth budget = .ok (args, stop) →
    Targets.exprs args = true → Settled.exprs args
  primary : ∀ {s depth updated e stop}, Parse.primary s depth updated budget = .ok (e, stop) →
    Chained updated e stop
  entries : ∀ {s depth all stop}, Parse.entries s depth budget = .ok (all, stop) →
    Targets.entries all = true → Settled.entries all
  elements : ∀ {s depth all stop}, Parse.elements s depth budget = .ok (all, stop) →
    Targets.elements all = true → Settled.elements all
  function : ∀ {s depth e stop}, Parse.function s depth budget = .ok (e, stop) →
    e.isReference = false ∧ (Targets.expr e = true → Settled.expr true e)
  body : ∀ {s braces depth code stop}, Parse.body s braces depth budget = .ok (code, stop) →
    Targets.body code = true → Settled.body code
  statements : ∀ {s braces depth rest stop}, Parse.statements s braces depth budget = .ok (rest, stop) →
    Targets.stmts rest = true → Settled.stmts rest
  statement : ∀ {s depth t stop}, Parse.statement s depth budget = .ok (t, stop) →
    Targets.stmt t = true → Settled.stmt t
  commas : ∀ {s depth rest stop}, Parse.commas s depth budget = .ok (rest, stop) →
    Targets.commas rest = true → Settled.commas rest
  declarator : ∀ {s depth d stop}, Parse.declarator s depth budget = .ok (d, stop) →
    Targets.declarator d = true → Settled.declarator d
  declarators : ∀ {s depth rest stop}, Parse.declarators s depth budget = .ok (rest, stop) →
    Targets.declarators rest = true → Settled.declarators rest
  ifStatement : ∀ {s depth t stop}, Parse.ifStatement s depth budget = .ok (t, stop) →
    Targets.stmt t = true → Settled.stmt t
  loopBody : ∀ {s depth code stop}, Parse.loopBody s depth budget = .ok (code, stop) →
    Targets.loopBody code = true → Settled.loopBody code
  forClauses : ∀ {s depth t stop}, Parse.forClauses s depth budget = .ok (t, stop) →
    Targets.stmt t = true → Settled.stmt t
  clause : ∀ {s closing depth c stop}, Parse.clause s closing depth budget = .ok (c, stop) →
    Targets.clause c = true → Settled.clause c
  forIn : ∀ {s depth t stop}, Parse.forIn s depth budget = .ok (t, stop) →
    Targets.stmt t = true → Settled.stmt t

namespace Settles

variable {budget depth n : Nat} {s stop : Stream} {e : Expr}

theorem expr_succ (ih : Settles budget) (h : Parse.expr s depth (budget + 1) = .ok (e, stop))
    (ht : Targets.expr e = true) : Settled.expr true e := by
  obtain ⟨deep, target, s₁, htarget, hend⟩ := expr_ok h
  have hends := ih.conditional htarget
  rcases hend with ⟨hnone, rfl, rfl⟩ | ⟨op, value, hop, hvalue, rfl⟩
  · exact (hends ht).2 (by rw [hnone]; rfl) (.inr rfl)
  · simp only [Targets.expr, Bool.and_eq_true] at ht
    exact ⟨rfl, operands_of_assignment? hop, (hends ht.1.2).1 ht.1.1 (.inr (by rw [hop]; rfl)),
      ih.expr hvalue ht.2⟩

theorem conditional_succ (ih : Settles budget) (h : Parse.conditional s depth (budget + 1) = .ok (e, stop)) :
    Ends false e stop := by
  obtain ⟨test, s₁, htest, ⟨rfl, rfl⟩ | ⟨yes, colon, no, hquestion, hyes, hcolon, hno, rfl⟩⟩ := conditional_ok h
  · exact ih.level htest
  · intro ht
    simp only [Targets.expr, Bool.and_eq_true] at ht
    refine ⟨fun hr => (by cases hr), fun hnone _ => ⟨rfl, ?_, ?_, ?_⟩⟩
    · exact (ih.level htest ht.1.1).2 (by rw [kind_of_at hquestion]; rfl) (.inr rfl)
    · exact (ih.conditional hyes ht.1.2).2 (by rw [kind_of_at hcolon]; rfl) (.inr rfl)
    · exact (ih.conditional hno ht.2).2 hnone (.inr rfl)

theorem level_succ (ih : Settles budget) (h : Parse.level n s depth (budget + 1) = .ok (e, stop)) :
    Ends false e stop := by
  obtain ⟨deep, left, s₁, hleft, hrest⟩ := level_ok h
  exact ih.operators (ih.operand hleft) hrest

theorem operand_succ (ih : Settles budget) (h : Parse.operand n s depth (budget + 1) = .ok (e, stop)) :
    Ends false e stop := by
  rcases operand_ok h with ⟨-, h⟩ | ⟨-, h⟩
  · exact ih.level h
  · exact ih.unary h

theorem operators_succ (ih : Settles budget) {left : Expr} (hleft : Ends false left s)
    (h : Parse.operators n left s depth (budget + 1) = .ok (e, stop)) : Ends false e stop := by
  have hsettled {b : Binary} (hop : binary? n s.kind = some b) (ht : Targets.expr left = true) :
      Settled.expr true left :=
    (hleft ht).2 (by rw [binary?_eq_some hop]; rfl) (.inr rfl)
  rcases operators_ok h with ⟨-, rfl, rfl⟩ | ⟨op, right, s₁, hop, hright, h⟩ | ⟨right, s₁, hop, hright, h⟩ |
    ⟨right, s₁, hop, hright, h⟩
  · exact hleft
  · refine ih.operators (fun ht => ⟨fun hr => (by cases hr), fun hstop _ => ?_⟩) h
    simp only [Targets.expr, Bool.and_eq_true] at ht
    exact ⟨rfl, operands_of_binary? hop, hsettled hop ht.1, (ih.operand hright ht.2).2 hstop (.inr rfl)⟩
  · refine ih.operators (fun ht => ⟨fun hr => (by cases hr), fun hstop _ => ?_⟩) h
    simp only [Targets.expr, Bool.and_eq_true] at ht
    exact ⟨rfl, hsettled hop ht.1, (ih.level hright ht.2).2 hstop (.inr rfl)⟩
  · refine ih.operators (fun ht => ⟨fun hr => (by cases hr), fun hstop _ => ?_⟩) h
    simp only [Targets.expr, Bool.and_eq_true] at ht
    exact ⟨rfl, hsettled hop ht.1, (ih.level hright ht.2).2 hstop (.inr rfl)⟩

theorem unary_succ (ih : Settles budget) {updated : Bool}
    (h : Parse.unary s depth updated (budget + 1) = .ok (e, stop)) : Ends updated e stop := by
  rcases unary_ok h with ⟨op, deep, inner, hop, hinner, rfl⟩ | ⟨first, s₁, inner, s₂, hfirst, hinner, hend⟩
  · have hends := ih.unary hinner
    rw [← updates_of_unary? hop] at hends
    intro ht
    have hsub : Targets.expr inner = true := by
      simp only [Targets.expr, Bool.and_eq_true] at ht
      exact ht.2
    refine ⟨fun hr => (by cases hr), fun hnone _ => ⟨rfl, operands_of_unary? hop, ?_⟩⟩
    cases hupdates : updates op with
    | true =>
      rw [hupdates] at hends
      exact (hends hsub).1 (isReference_of_updates ht hupdates) (.inl rfl)
    | false =>
      rw [hupdates] at hends
      exact (hends hsub).2 hnone (.inr rfl)
  · obtain ⟨hchained, hstops⟩ := ih.accesses (ih.primary hfirst) hinner
    unfold Chained at hchained
    rw [isSome_fetch?, hstops] at hchained
    rcases hend with ⟨hop, rfl, rfl⟩ | ⟨op, hop, rfl, rfl⟩
    · intro ht
      have hsettled := hchained ht
      rw [hop] at hsettled
      refine ⟨fun href hwanted => ?_, fun hnone hgiven => ?_⟩
      · rw [href] at hsettled
        rcases hwanted with hwanted | hwanted <;> simpa [hwanted] using hsettled
      · rcases hgiven with hgiven | hgiven <;> simpa [hnone, hgiven] using hsettled
    · intro ht
      have hupdates := updates_of_update? hop
      have href := isReference_of_updates ht hupdates
      have hsub : Targets.expr inner = true := by
        simp only [Targets.expr, Bool.and_eq_true] at ht
        exact ht.2
      refine ⟨fun hr => (by cases hr), fun _ _ => ⟨rfl, operands_of_update? hop, ?_⟩⟩
      have hsettled := hchained hsub
      rw [href, hop] at hsettled
      rw [hupdates]
      simpa using hsettled

theorem accesses_succ (ih : Settles budget) {first : Expr} {updated : Bool} (hfirst : Chained updated first s)
    (h : Parse.accesses first s depth updated (budget + 1) = .ok (e, stop)) :
    Chained updated e stop ∧ continues stop = false := by
  rcases accesses_ok h with ⟨hs, rfl, rfl⟩ | ⟨hs, name, line, s₁, h⟩ | ⟨hs, key, s₁, line, s₂, hkey, h⟩ |
    ⟨hs, args, s₁, line, closeLine, s₂, hargs, h⟩
  · exact ⟨hfirst, hs⟩
  · refine ih.accesses (fun ht => ?_) h
    exact ⟨rfl, hfirst.settled hs ht⟩
  · refine ih.accesses (fun ht => ?_) h
    simp only [Targets.expr, Bool.and_eq_true] at ht
    exact ⟨rfl, hfirst.settled hs ht.1, ih.expr hkey ht.2⟩
  · refine ih.accesses (chained_of_settled rfl fun ht => ?_) h
    simp only [Targets.expr, Bool.and_eq_true] at ht
    exact ⟨rfl, hfirst.settled hs ht.1, ih.arguments hargs ht.2⟩

theorem arguments_succ (ih : Settles budget) {args : Exprs}
    (h : Parse.arguments s depth (budget + 1) = .ok (args, stop)) (ht : Targets.exprs args = true) :
    Settled.exprs args := by
  rcases arguments_ok h with rfl | ⟨first, s₁, s₂, rest, s₃, hfirst, hrest, rfl⟩
  · trivial
  · simp only [Targets.exprs, Bool.and_eq_true] at ht
    exact ⟨ih.expr hfirst ht.1, ih.arguments hrest ht.2⟩

theorem primary_succ (ih : Settles budget) {updated : Bool}
    (h : Parse.primary s depth updated (budget + 1) = .ok (e, stop)) : Chained updated e stop := by
  rcases primary_ok h with ⟨all, line, s₁, hall, rfl⟩ | ⟨all, line, s₁, hall, rfl⟩ | h | ⟨inner, s₁, hinner, rfl⟩ |
    ⟨name, line, rfl⟩ | ⟨l, line, rfl⟩
  · exact chained_of_settled rfl fun ht => ⟨rfl, ih.entries hall ht⟩
  · exact chained_of_settled rfl fun ht => ⟨rfl, ih.elements hall ht⟩
  · obtain ⟨hne, hsettled⟩ := ih.function h
    exact chained_of_settled hne hsettled
  · exact chained_of_settled rfl fun ht => ⟨rfl, ih.expr hinner ht⟩
  · exact fun _ => rfl
  · exact chained_of_settled rfl fun _ => rfl

theorem entries_succ (ih : Settles budget) {all : Entries}
    (h : Parse.entries s depth (budget + 1) = .ok (all, stop)) (ht : Targets.entries all = true) :
    Settled.entries all := by
  rcases entries_ok h with rfl | ⟨key, keyLine, s₁, value, s₂, line, s₃, rest, s₄, hvalue, hrest, rfl⟩
  · trivial
  · simp only [Targets.entries, Bool.and_eq_true] at ht
    exact ⟨ih.expr hvalue ht.1, ih.entries hrest ht.2⟩

theorem elements_succ (ih : Settles budget) {all : Elements}
    (h : Parse.elements s depth (budget + 1) = .ok (all, stop)) (ht : Targets.elements all = true) :
    Settled.elements all := by
  rcases elements_ok h with rfl | ⟨startLine, value, s₁, line, s₂, rest, s₃, hvalue, hrest, rfl⟩
  · trivial
  · simp only [Targets.elements, Bool.and_eq_true] at ht
    exact ⟨ih.expr hvalue ht.1, ih.elements hrest ht.2⟩

theorem function_succ (ih : Settles budget) (h : Parse.function s depth (budget + 1) = .ok (e, stop)) :
    e.isReference = false ∧ (Targets.expr e = true → Settled.expr true e) := by
  obtain ⟨name, line, paramsLine, params, s₁, deep, code, s₂, endLine, hcode, rfl⟩ := function_ok h
  exact ⟨rfl, fun ht => ⟨rfl, ih.body hcode ht⟩⟩

theorem body_succ (ih : Settles budget) {braces : Bool} {code : Body}
    (h : Parse.body s braces depth (budget + 1) = .ok (code, stop)) (ht : Targets.body code = true) :
    Settled.body code := by
  rcases body_ok h with ⟨line, rfl⟩ | h | ⟨first, s₁, rest, hfirst, hrest, rfl⟩
  · trivial
  · exact ih.body h ht
  · simp only [Targets.body, Bool.and_eq_true] at ht
    exact ⟨ih.statement hfirst ht.1, ih.statements hrest ht.2⟩

theorem statements_succ (ih : Settles budget) {braces : Bool} {all : Stmts}
    (h : Parse.statements s braces depth (budget + 1) = .ok (all, stop)) (ht : Targets.stmts all = true) :
    Settled.stmts all := by
  rcases statements_ok h with rfl | h | ⟨line, next, s₁, rest, hnext, hrest, rfl⟩
  · trivial
  · exact ih.statements h ht
  · simp only [Targets.stmts, Bool.and_eq_true] at ht
    exact ⟨ih.statement hnext ht.1, ih.statements hrest ht.2⟩

theorem statement_succ (ih : Settles budget) {t : Stmt}
    (h : Parse.statement s depth (budget + 1) = .ok (t, stop)) (ht : Targets.stmt t = true) :
    Settled.stmt t := by
  rcases statement_ok h with ⟨line, rfl | rfl | rfl | rfl⟩ | ⟨first, s₁, rest, hfirst, hrest, rfl⟩ |
    ⟨line, deep, code, s₁, endLine, hcode, rfl⟩ | ⟨value, endLine, hvalue, rfl⟩ | ⟨s₁, h⟩ | ⟨s₁, h⟩ |
    ⟨line, s₁, test, s₂, bodyLine, s₃, code, endLine, htest, hcode, rfl⟩ | h | ⟨first, s₁, rest, hfirst, hrest, rfl⟩
  iterate 4 trivial
  · simp only [Targets.stmt, Bool.and_eq_true] at ht
    exact ⟨ih.declarator hfirst ht.1, ih.declarators hrest ht.2⟩
  · exact ih.body hcode ht
  · exact ih.expr hvalue ht
  · exact ih.forIn h ht
  · exact ih.forClauses h ht
  · simp only [Targets.stmt, Bool.and_eq_true] at ht
    exact ⟨ih.expr htest ht.1, ih.loopBody hcode ht.2⟩
  · exact ih.ifStatement h ht
  · simp only [Targets.stmt, Bool.and_eq_true] at ht
    exact ⟨ih.expr hfirst ht.1, ih.commas hrest ht.2⟩

theorem commas_succ (ih : Settles budget) {all : Commas}
    (h : Parse.commas s depth (budget + 1) = .ok (all, stop)) (ht : Targets.commas all = true) :
    Settled.commas all := by
  rcases commas_ok h with rfl | ⟨line, next, s₁, rest, hnext, hrest, rfl⟩
  · trivial
  · simp only [Targets.commas, Bool.and_eq_true] at ht
    exact ⟨ih.expr hnext ht.1, ih.commas hrest ht.2⟩

theorem declarator_succ (ih : Settles budget) {d : Declarator}
    (h : Parse.declarator s depth (budget + 1) = .ok (d, stop)) (ht : Targets.declarator d = true) :
    Settled.declarator d := by
  rcases declarator_ok h with ⟨name, line, endLine, rfl⟩ | ⟨name, line, valueLine, s₁, value, endLine, hvalue, rfl⟩
  · trivial
  · exact ih.expr hvalue ht

theorem declarators_succ (ih : Settles budget) {all : Declarators}
    (h : Parse.declarators s depth (budget + 1) = .ok (all, stop)) (ht : Targets.declarators all = true) :
    Settled.declarators all := by
  rcases declarators_ok h with rfl | ⟨line, d, s₁, rest, hd, hrest, rfl⟩
  · trivial
  · simp only [Targets.declarators, Bool.and_eq_true] at ht
    exact ⟨ih.declarator hd ht.1, ih.declarators hrest ht.2⟩

theorem ifStatement_succ (ih : Settles budget) {t : Stmt}
    (h : Parse.ifStatement s depth (budget + 1) = .ok (t, stop)) (ht : Targets.stmt t = true) :
    Settled.stmt t := by
  obtain ⟨s₁, test, s₂, line, s₃, yes, s₄, htest, hyes, rfl | ⟨s₅, elseLine, no, hno, rfl⟩⟩ := ifStatement_ok h
  · simp only [Targets.stmt, Bool.and_eq_true] at ht
    exact ⟨ih.expr htest ht.1, ih.statement hyes ht.2⟩
  · simp only [Targets.stmt, Bool.and_eq_true] at ht
    exact ⟨ih.expr htest ht.1.1, ih.statement hyes ht.1.2, ih.statement hno ht.2⟩

theorem loopBody_succ (ih : Settles budget) {code : LoopBody}
    (h : Parse.loopBody s depth (budget + 1) = .ok (code, stop)) (ht : Targets.loopBody code = true) :
    Settled.loopBody code := by
  rcases loopBody_ok h with ⟨s₁, deep, all, s₂, hall, rfl⟩ | ⟨one, hone, rfl⟩
  · exact ih.body hall ht
  · exact ih.statement hone ht

theorem clause_succ (ih : Settles budget) {closing : Punct} {c : Clause}
    (h : Parse.clause s closing depth (budget + 1) = .ok (c, stop)) (ht : Targets.clause c = true) :
    Settled.clause c := by
  rcases clause_ok h with ⟨line, rfl⟩ | ⟨inner, hinner, rfl⟩
  · trivial
  · exact ih.expr hinner ht

theorem forClauses_succ (ih : Settles budget) {t : Stmt}
    (h : Parse.forClauses s depth (budget + 1) = .ok (t, stop)) (ht : Targets.stmt t = true) :
    Settled.stmt t := by
  obtain ⟨line, start, hstart, s₁, testLine, test, s₂, s₃, step, s₄, s₅, bodyLine, code, endLine, htest, hstep, hcode,
    rfl⟩ := forClauses_ok h
  simp only [Targets.stmt, Bool.and_eq_true] at ht
  refine ⟨?_, ih.clause htest ht.1.1.2, ih.clause hstep ht.1.2, ih.loopBody hcode ht.2⟩
  have hs := ht.1.1.1
  rcases hstart with ⟨line, rfl⟩ | ⟨first, s₁, rest, s₂, hfirst, hrest, rfl⟩ | ⟨first, s₁, hfirst, rfl⟩
  · trivial
  · simp only [Targets.forStart, Bool.and_eq_true] at hs
    exact ⟨ih.declarator hfirst hs.1, ih.declarators hrest hs.2⟩
  · exact ih.expr hfirst hs

theorem forIn_succ (ih : Settles budget) {t : Stmt}
    (h : Parse.forIn s depth (budget + 1) = .ok (t, stop)) (ht : Targets.stmt t = true) :
    Settled.stmt t := by
  obtain ⟨line, declared, name, nameLine, s₁, object, s₂, s₃, bodyLine, code, endLine, hobject, hcode, rfl⟩ :=
    forIn_ok h
  simp only [Targets.stmt, Bool.and_eq_true] at ht
  exact ⟨ih.expr hobject ht.1, ih.loopBody hcode ht.2⟩

end Settles

open Settles in
theorem settles (budget : Nat) : Settles budget := by
  induction budget with
  | zero =>
    exact ⟨fun h _ => (nomatch h), fun h => (nomatch h), fun h => (nomatch h), fun h => (nomatch h),
      fun _ h => (nomatch h), fun h => (nomatch h), fun _ h => (nomatch h), fun h _ => (nomatch h),
      fun h => (nomatch h), fun h _ => (nomatch h), fun h _ => (nomatch h), fun h => (nomatch h),
      fun h _ => (nomatch h), fun h _ => (nomatch h), fun h _ => (nomatch h), fun h _ => (nomatch h),
      fun h _ => (nomatch h), fun h _ => (nomatch h), fun h _ => (nomatch h), fun h _ => (nomatch h),
      fun h _ => (nomatch h), fun h _ => (nomatch h), fun h _ => (nomatch h)⟩
  | succ budget ih =>
    exact ⟨expr_succ ih, conditional_succ ih, level_succ ih, operand_succ ih, operators_succ ih, unary_succ ih,
      accesses_succ ih, arguments_succ ih, primary_succ ih, entries_succ ih, elements_succ ih, function_succ ih,
      body_succ ih, statements_succ ih, statement_succ ih, commas_succ ih, declarator_succ ih,
      declarators_succ ih, ifStatement_succ ih, loopBody_succ ih, forClauses_succ ih, clause_succ ih,
      forIn_succ ih⟩

end Parse

/-- A source that assigns to references only is read as the compiler counts on. -/
theorem settled_of_parse {source : String} {s : Script} (hparse : parseScript source = .ok s)
    (ht : Targets.script s = true) : Settled.body s.body := by
  obtain ⟨first, rest, stop, -, hbody⟩ := parseScript_tokens hparse
  exact (Parse.settles _).body hbody ht

end ScriptEngine.Source
