import ScriptEngine.Proofs.Source.Reading
/-!
How operators are grouped.

There are ten levels of binary operators between assignments and conditionals on one side and the operators with one
operand on the other. `Grouped` says of a tree that every operand is held together tightly enough to stand where it does
without parentheses. What the reader makes is grouped (`grouped_of_parse`): binary operators of one level from the
left, and assignments, conditionals, `&&` and `||` from the right.
-/

namespace ScriptEngine.Code

/-- The level of a binary operator; other operators are beyond all levels. -/
def Operator.level : Operator → Nat
  | .bitOr => 2
  | .bitXor => 3
  | .bitAnd => 4
  | .eq | .ne | .strictEq | .strictNe => 5
  | .lt | .le | .gt | .ge => 6
  | .shl | .shr | .ushr => 7
  | .add | .sub => 8
  | .mul | .div | .rem => 9
  | _ => 10

/-- Whether the operator stands behind its operand. -/
def Operator.isPostfix : Operator → Bool
  | .postInc | .postDec => true
  | _ => false

end ScriptEngine.Code

namespace ScriptEngine.Source

open Code (Operator)

/-- How tightly an expression is held together. `||` and `&&` are the two loosest levels of binary operators. -/
def Expr.tightness : Expr → Nat
  | .assign _ _ _ _ => 0
  | .conditional _ _ _ _ _ => 1
  | .either _ _ _ => 2
  | .both _ _ _ => 3
  | .binary op _ _ _ => op.level + 2
  | .unary _ _ _ => 12
  | _ => 13

namespace Grouped

mutual

/-- All operands in an expression are held together tightly enough. -/
def expr : Expr → Prop
  | .literal _ _ | .variable _ _ _ => True
  | .paren inner => expr inner
  | .member object _ _ _ => 13 ≤ object.tightness ∧ expr object
  | .index object key _ _ => 13 ≤ object.tightness ∧ expr object ∧ expr key
  | .call callee _ args _ => 13 ≤ callee.tightness ∧ expr callee ∧ exprs args
  | .unary op inner _ => (if op.isPostfix then 13 else 12) ≤ inner.tightness ∧ expr inner
  | .binary op left right _ =>
    op.level < 10 ∧ op.level + 2 ≤ left.tightness ∧ op.level + 2 < right.tightness ∧ expr left ∧ expr right
  | .both left right _ => 3 < left.tightness ∧ 3 ≤ right.tightness ∧ expr left ∧ expr right
  | .either left right _ => 2 < left.tightness ∧ 2 ≤ right.tightness ∧ expr left ∧ expr right
  | .conditional test yes no _ _ =>
    1 < test.tightness ∧ 1 ≤ yes.tightness ∧ 1 ≤ no.tightness ∧ expr test ∧ expr yes ∧ expr no
  | .assign _ target value _ => 0 < target.tightness ∧ expr target ∧ expr value
  | .function _ _ _ _ code _ => body code
  | .object _ all => entries all
  | .array _ all => elements all

def exprs : Exprs → Prop
  | .nil => True
  | .cons first rest => expr first ∧ exprs rest

def entries : Entries → Prop
  | .nil => True
  | .cons _ _ value _ rest => expr value ∧ entries rest

def elements : Elements → Prop
  | .nil => True
  | .cons _ value _ rest => expr value ∧ elements rest

/-- All operands in a statement are held together tightly enough. -/
def stmt : Stmt → Prop
  | .empty _ | .returnNone _ | .break _ | .continue _ => True
  | .declare first rest => declarator first ∧ declarators rest
  | .block _ code _ => body code
  | .returnValue value _ => expr value
  | .exprs first rest => expr first ∧ commas rest
  | .ifThen test _ yes => expr test ∧ stmt yes
  | .ifElse test _ yes _ no => expr test ∧ stmt yes ∧ stmt no
  | .while _ test _ code _ => expr test ∧ loopBody code
  | .for _ start _ test step _ code _ => forStart start ∧ clause test ∧ clause step ∧ loopBody code
  | .forIn _ _ _ _ object _ code _ => expr object ∧ loopBody code

def declarator : Declarator → Prop
  | .plain _ _ _ => True
  | .init _ _ _ value _ => expr value

def declarators : Declarators → Prop
  | .nil => True
  | .cons _ d rest => declarator d ∧ declarators rest

def commas : Commas → Prop
  | .nil => True
  | .cons _ next rest => expr next ∧ commas rest

def body : Body → Prop
  | .none _ => True
  | .some first rest => stmt first ∧ stmts rest

def stmts : Stmts → Prop
  | .nil => True
  | .cons _ next rest => stmt next ∧ stmts rest

def loopBody : LoopBody → Prop
  | .braces code => body code
  | .single s => stmt s

def forStart : ForStart → Prop
  | .none _ => True
  | .declare first rest => declarator first ∧ declarators rest
  | .expr start => expr start

def clause : Clause → Prop
  | .none _ => True
  | .expr inner => expr inner

end

/-- All operands in a program are held together tightly enough. -/
def script (s : Script) : Prop :=
  body s.body

end Grouped

/-! ## What the reader makes -/

namespace Parse

theorem level_of_binary? {n : Nat} {kind : TokenKind} {op : Operator} (h : binary? n kind = some (.plain op)) :
    op.level = n ∧ 2 ≤ n ∧ n < 10 := by
  unfold binary? at h
  split at h <;> cases h <;> exact ⟨rfl, by decide, by decide⟩

theorem eq_of_both {n : Nat} {kind : TokenKind} (h : binary? n kind = some .both) : n = 1 := by
  unfold binary? at h
  split at h <;> cases h
  rfl

theorem eq_of_either {n : Nat} {kind : TokenKind} (h : binary? n kind = some .either) : n = 0 := by
  unfold binary? at h
  split at h <;> cases h
  rfl

theorem isPostfix_of_unary? {kind : TokenKind} {op : Operator} (h : unary? kind = some op) : op.isPostfix = false := by
  unfold unary? at h
  split at h <;> cases h <;> rfl

theorem isPostfix_of_update? {kind : TokenKind} {op : Operator} (h : update? kind = some op) : op.isPostfix = true := by
  unfold update? at h
  split at h <;> cases h <;> rfl

/-- An expression is grouped, and held together at least so tightly. -/
def Holds (tightness : Nat) (e : Expr) : Prop :=
  tightness ≤ e.tightness ∧ Grouped.expr e

/-- What reading gives within a budget, for each kind of tree. -/
structure Groups (budget : Nat) : Prop where
  expr : ∀ {s depth e stop}, Parse.expr s depth budget = .ok (e, stop) → Grouped.expr e
  conditional : ∀ {s depth e stop}, Parse.conditional s depth budget = .ok (e, stop) → Holds 1 e
  /-- Behind the operands of a level there is no operator of the level. -/
  level : ∀ {n s depth e stop}, n < levels → Parse.level n s depth budget = .ok (e, stop) →
    Holds (n + 2) e ∧ binary? n stop.kind = none
  operand : ∀ {n s depth e stop}, n < levels → Parse.operand n s depth budget = .ok (e, stop) → Holds (n + 3) e
  /-- On the two levels that are grouped from the right, what is on the left is an operand. -/
  operators : ∀ {n left s depth e stop}, n < levels → Holds (n + 2) left →
    (n < 2 → binary? n s.kind ≠ none → n + 3 ≤ left.tightness) →
    Parse.operators n left s depth budget = .ok (e, stop) → Holds (n + 2) e ∧ binary? n stop.kind = none
  unary : ∀ {s depth updated e stop}, Parse.unary s depth updated budget = .ok (e, stop) → Holds 12 e
  accesses : ∀ {first s depth updated e stop}, Holds 13 first →
    Parse.accesses first s depth updated budget = .ok (e, stop) → Holds 13 e
  arguments : ∀ {s depth args stop}, Parse.arguments s depth budget = .ok (args, stop) → Grouped.exprs args
  primary : ∀ {s depth updated e stop}, Parse.primary s depth updated budget = .ok (e, stop) → Holds 13 e
  entries : ∀ {s depth all stop}, Parse.entries s depth budget = .ok (all, stop) → Grouped.entries all
  elements : ∀ {s depth all stop}, Parse.elements s depth budget = .ok (all, stop) → Grouped.elements all
  function : ∀ {s depth e stop}, Parse.function s depth budget = .ok (e, stop) → Holds 13 e
  body : ∀ {s braces depth code stop}, Parse.body s braces depth budget = .ok (code, stop) → Grouped.body code
  statements : ∀ {s braces depth all stop}, Parse.statements s braces depth budget = .ok (all, stop) →
    Grouped.stmts all
  statement : ∀ {s depth t stop}, Parse.statement s depth budget = .ok (t, stop) → Grouped.stmt t
  commas : ∀ {s depth all stop}, Parse.commas s depth budget = .ok (all, stop) → Grouped.commas all
  declarator : ∀ {s depth d stop}, Parse.declarator s depth budget = .ok (d, stop) → Grouped.declarator d
  declarators : ∀ {s depth all stop}, Parse.declarators s depth budget = .ok (all, stop) → Grouped.declarators all
  ifStatement : ∀ {s depth t stop}, Parse.ifStatement s depth budget = .ok (t, stop) → Grouped.stmt t
  loopBody : ∀ {s depth code stop}, Parse.loopBody s depth budget = .ok (code, stop) → Grouped.loopBody code
  forClauses : ∀ {s depth t stop}, Parse.forClauses s depth budget = .ok (t, stop) → Grouped.stmt t
  clause : ∀ {s closing depth c stop}, Parse.clause s closing depth budget = .ok (c, stop) → Grouped.clause c
  forIn : ∀ {s depth t stop}, Parse.forIn s depth budget = .ok (t, stop) → Grouped.stmt t

namespace Groups

variable {budget depth n : Nat} {s stop : Stream} {e : Expr}

theorem expr_succ (ih : Groups budget) (h : Parse.expr s depth (budget + 1) = .ok (e, stop)) : Grouped.expr e := by
  obtain ⟨deep, target, s₁, htarget, ⟨-, rfl, rfl⟩ | ⟨op, value, hop, hvalue, rfl⟩⟩ := expr_ok h
  · exact (ih.conditional htarget).2
  · exact ⟨(ih.conditional htarget).1, (ih.conditional htarget).2, ih.expr hvalue⟩

theorem conditional_succ (ih : Groups budget) (h : Parse.conditional s depth (budget + 1) = .ok (e, stop)) :
    Holds 1 e := by
  obtain ⟨test, s₁, htest, hend⟩ := conditional_ok h
  have hlevel := (ih.level (by decide) htest).1
  rcases hend with ⟨rfl, rfl⟩ | ⟨yes, colon, no, -, hyes, -, hno, rfl⟩
  · exact ⟨Nat.le_trans (Nat.le_succ 1) hlevel.1, hlevel.2⟩
  · have hyes := ih.conditional hyes
    have hno := ih.conditional hno
    exact ⟨Nat.le_refl 1, hlevel.1, hyes.1, hno.1, hlevel.2, hyes.2, hno.2⟩

theorem level_succ (ih : Groups budget) (hn : n < levels) (h : Parse.level n s depth (budget + 1) = .ok (e, stop)) :
    Holds (n + 2) e ∧ binary? n stop.kind = none := by
  obtain ⟨deep, left, s₁, hleft, hrest⟩ := level_ok h
  have hleft := ih.operand hn hleft
  exact ih.operators hn ⟨Nat.le_trans (Nat.le_succ _) hleft.1, hleft.2⟩ (fun _ _ => hleft.1) hrest

theorem operand_succ (ih : Groups budget) (hn : n < levels) (h : Parse.operand n s depth (budget + 1) = .ok (e, stop)) :
    Holds (n + 3) e := by
  rcases operand_ok h with ⟨hlt, h⟩ | ⟨-, h⟩
  · exact (ih.level hlt h).1
  · have hunary := ih.unary h
    refine ⟨Nat.le_trans ?_ hunary.1, hunary.2⟩
    unfold levels at hn
    omega

theorem operators_succ (ih : Groups budget) {left : Expr} (hn : n < levels) (hleft : Holds (n + 2) left)
    (hfirst : n < 2 → binary? n s.kind ≠ none → n + 3 ≤ left.tightness)
    (h : Parse.operators n left s depth (budget + 1) = .ok (e, stop)) :
    Holds (n + 2) e ∧ binary? n stop.kind = none := by
  rcases operators_ok h with ⟨hnone, rfl, rfl⟩ | ⟨op, right, s₁, hop, hright, h⟩ | ⟨right, s₁, hop, hright, h⟩ |
    ⟨right, s₁, hop, hright, h⟩
  · exact ⟨hleft, hnone⟩
  · obtain ⟨hlevel, htwo, hten⟩ := level_of_binary? hop
    have hright := ih.operand hn hright
    refine ih.operators hn ?_ (fun hlt => absurd hlt (Nat.not_lt_of_le htwo)) h
    subst hlevel
    exact ⟨Nat.le_refl _, hten, hleft.1, hright.1, hleft.2, hright.2⟩
  · obtain rfl := eq_of_both hop
    have hoperand := hfirst (by decide) (by rw [hop]; simp)
    obtain ⟨hright, hnone⟩ := ih.level hn hright
    refine ih.operators hn ?_ (fun _ hsome => absurd hnone hsome) h
    exact ⟨Nat.le_refl 3, hoperand, hright.1, hleft.2, hright.2⟩
  · obtain rfl := eq_of_either hop
    have hoperand := hfirst (by decide) (by rw [hop]; simp)
    obtain ⟨hright, hnone⟩ := ih.level hn hright
    refine ih.operators hn ?_ (fun _ hsome => absurd hnone hsome) h
    exact ⟨Nat.le_refl 2, hoperand, hright.1, hleft.2, hright.2⟩

theorem unary_succ (ih : Groups budget) {updated : Bool}
    (h : Parse.unary s depth updated (budget + 1) = .ok (e, stop)) : Holds 12 e := by
  rcases unary_ok h with ⟨op, deep, inner, hop, hinner, rfl⟩ | ⟨first, s₁, inner, s₂, hfirst, hinner, hend⟩
  · have hinner := ih.unary hinner
    refine ⟨Nat.le_refl 12, ?_, hinner.2⟩
    rw [isPostfix_of_unary? hop]
    exact hinner.1
  · have hheld := ih.accesses (ih.primary hfirst) hinner
    rcases hend with ⟨-, rfl, rfl⟩ | ⟨op, hop, rfl, rfl⟩
    · exact ⟨Nat.le_trans (Nat.le_succ 12) hheld.1, hheld.2⟩
    · refine ⟨Nat.le_refl 12, ?_, hheld.2⟩
      rw [isPostfix_of_update? hop]
      exact hheld.1

theorem accesses_succ (ih : Groups budget) {first : Expr} {updated : Bool} (hfirst : Holds 13 first)
    (h : Parse.accesses first s depth updated (budget + 1) = .ok (e, stop)) : Holds 13 e := by
  rcases accesses_ok h with ⟨-, rfl, rfl⟩ | ⟨-, name, line, s₁, h⟩ | ⟨-, key, s₁, line, s₂, hkey, h⟩ |
    ⟨-, args, s₁, line, closeLine, s₂, hargs, h⟩
  · exact hfirst
  · refine ih.accesses ?_ h
    exact ⟨Nat.le_refl 13, hfirst⟩
  · refine ih.accesses ?_ h
    exact ⟨Nat.le_refl 13, hfirst.1, hfirst.2, ih.expr hkey⟩
  · refine ih.accesses ?_ h
    exact ⟨Nat.le_refl 13, hfirst.1, hfirst.2, ih.arguments hargs⟩

theorem arguments_succ (ih : Groups budget) {args : Exprs}
    (h : Parse.arguments s depth (budget + 1) = .ok (args, stop)) : Grouped.exprs args := by
  rcases arguments_ok h with rfl | ⟨first, s₁, s₂, rest, s₃, hfirst, hrest, rfl⟩
  · trivial
  · exact ⟨ih.expr hfirst, ih.arguments hrest⟩

theorem primary_succ (ih : Groups budget) {updated : Bool}
    (h : Parse.primary s depth updated (budget + 1) = .ok (e, stop)) : Holds 13 e := by
  rcases primary_ok h with ⟨all, line, s₁, hall, rfl⟩ | ⟨all, line, s₁, hall, rfl⟩ | h | ⟨inner, s₁, hinner, rfl⟩ |
    ⟨name, line, rfl⟩ | ⟨l, line, rfl⟩
  · exact ⟨Nat.le_refl 13, ih.entries hall⟩
  · exact ⟨Nat.le_refl 13, ih.elements hall⟩
  · exact ih.function h
  · have hgrouped := ih.expr hinner
    exact ⟨Nat.le_refl 13, hgrouped⟩
  · exact ⟨Nat.le_refl 13, trivial⟩
  · exact ⟨Nat.le_refl 13, trivial⟩

theorem entries_succ (ih : Groups budget) {all : Entries}
    (h : Parse.entries s depth (budget + 1) = .ok (all, stop)) : Grouped.entries all := by
  rcases entries_ok h with rfl | ⟨key, keyLine, s₁, value, s₂, line, s₃, rest, s₄, hvalue, hrest, rfl⟩
  · trivial
  · exact ⟨ih.expr hvalue, ih.entries hrest⟩

theorem elements_succ (ih : Groups budget) {all : Elements}
    (h : Parse.elements s depth (budget + 1) = .ok (all, stop)) : Grouped.elements all := by
  rcases elements_ok h with rfl | ⟨startLine, value, s₁, line, s₂, rest, s₃, hvalue, hrest, rfl⟩
  · trivial
  · exact ⟨ih.expr hvalue, ih.elements hrest⟩

theorem function_succ (ih : Groups budget) (h : Parse.function s depth (budget + 1) = .ok (e, stop)) : Holds 13 e := by
  obtain ⟨name, line, paramsLine, params, s₁, deep, code, s₂, endLine, hcode, rfl⟩ := function_ok h
  exact ⟨Nat.le_refl 13, ih.body hcode⟩

theorem body_succ (ih : Groups budget) {braces : Bool} {code : Body}
    (h : Parse.body s braces depth (budget + 1) = .ok (code, stop)) : Grouped.body code := by
  rcases body_ok h with ⟨line, rfl⟩ | h | ⟨first, s₁, rest, hfirst, hrest, rfl⟩
  · trivial
  · exact ih.body h
  · exact ⟨ih.statement hfirst, ih.statements hrest⟩

theorem statements_succ (ih : Groups budget) {braces : Bool} {all : Stmts}
    (h : Parse.statements s braces depth (budget + 1) = .ok (all, stop)) : Grouped.stmts all := by
  rcases statements_ok h with rfl | h | ⟨line, next, s₁, rest, hnext, hrest, rfl⟩
  · trivial
  · exact ih.statements h
  · exact ⟨ih.statement hnext, ih.statements hrest⟩

theorem statement_succ (ih : Groups budget) {t : Stmt} (h : Parse.statement s depth (budget + 1) = .ok (t, stop)) :
    Grouped.stmt t := by
  rcases statement_ok h with ⟨line, rfl | rfl | rfl | rfl⟩ | ⟨first, s₁, rest, hfirst, hrest, rfl⟩ |
    ⟨line, deep, code, s₁, endLine, hcode, rfl⟩ | ⟨value, endLine, hvalue, rfl⟩ | ⟨s₁, h⟩ | ⟨s₁, h⟩ |
    ⟨line, s₁, test, s₂, bodyLine, s₃, code, endLine, htest, hcode, rfl⟩ | h | ⟨first, s₁, rest, hfirst, hrest, rfl⟩
  iterate 4 trivial
  · exact ⟨ih.declarator hfirst, ih.declarators hrest⟩
  · exact ih.body hcode
  · exact ih.expr hvalue
  · exact ih.forIn h
  · exact ih.forClauses h
  · exact ⟨ih.expr htest, ih.loopBody hcode⟩
  · exact ih.ifStatement h
  · exact ⟨ih.expr hfirst, ih.commas hrest⟩

theorem commas_succ (ih : Groups budget) {all : Commas} (h : Parse.commas s depth (budget + 1) = .ok (all, stop)) :
    Grouped.commas all := by
  rcases commas_ok h with rfl | ⟨line, next, s₁, rest, hnext, hrest, rfl⟩
  · trivial
  · exact ⟨ih.expr hnext, ih.commas hrest⟩

theorem declarator_succ (ih : Groups budget) {d : Declarator}
    (h : Parse.declarator s depth (budget + 1) = .ok (d, stop)) : Grouped.declarator d := by
  rcases declarator_ok h with ⟨name, line, endLine, rfl⟩ | ⟨name, line, valueLine, s₁, value, endLine, hvalue, rfl⟩
  · trivial
  · exact ih.expr hvalue

theorem declarators_succ (ih : Groups budget) {all : Declarators}
    (h : Parse.declarators s depth (budget + 1) = .ok (all, stop)) : Grouped.declarators all := by
  rcases declarators_ok h with rfl | ⟨line, d, s₁, rest, hd, hrest, rfl⟩
  · trivial
  · exact ⟨ih.declarator hd, ih.declarators hrest⟩

theorem ifStatement_succ (ih : Groups budget) {t : Stmt}
    (h : Parse.ifStatement s depth (budget + 1) = .ok (t, stop)) : Grouped.stmt t := by
  obtain ⟨s₁, test, s₂, line, s₃, yes, s₄, htest, hyes, rfl | ⟨s₅, elseLine, no, hno, rfl⟩⟩ := ifStatement_ok h
  · exact ⟨ih.expr htest, ih.statement hyes⟩
  · exact ⟨ih.expr htest, ih.statement hyes, ih.statement hno⟩

theorem loopBody_succ (ih : Groups budget) {code : LoopBody}
    (h : Parse.loopBody s depth (budget + 1) = .ok (code, stop)) : Grouped.loopBody code := by
  rcases loopBody_ok h with ⟨s₁, deep, all, s₂, hall, rfl⟩ | ⟨one, hone, rfl⟩
  · exact ih.body hall
  · exact ih.statement hone

theorem clause_succ (ih : Groups budget) {closing : Punct} {c : Clause}
    (h : Parse.clause s closing depth (budget + 1) = .ok (c, stop)) : Grouped.clause c := by
  rcases clause_ok h with ⟨line, rfl⟩ | ⟨inner, hinner, rfl⟩
  · trivial
  · exact ih.expr hinner

theorem forClauses_succ (ih : Groups budget) {t : Stmt} (h : Parse.forClauses s depth (budget + 1) = .ok (t, stop)) :
    Grouped.stmt t := by
  obtain ⟨line, start, hstart, s₁, testLine, test, s₂, s₃, step, s₄, s₅, bodyLine, code, endLine, htest, hstep, hcode,
    rfl⟩ := forClauses_ok h
  refine ⟨?_, ih.clause htest, ih.clause hstep, ih.loopBody hcode⟩
  rcases hstart with ⟨line, rfl⟩ | ⟨first, s₁, rest, s₂, hfirst, hrest, rfl⟩ | ⟨first, s₁, hfirst, rfl⟩
  · trivial
  · exact ⟨ih.declarator hfirst, ih.declarators hrest⟩
  · exact ih.expr hfirst

theorem forIn_succ (ih : Groups budget) {t : Stmt} (h : Parse.forIn s depth (budget + 1) = .ok (t, stop)) :
    Grouped.stmt t := by
  obtain ⟨line, declared, name, nameLine, s₁, object, s₂, s₃, bodyLine, code, endLine, hobject, hcode, rfl⟩ :=
    forIn_ok h
  exact ⟨ih.expr hobject, ih.loopBody hcode⟩

end Groups

open Groups in
theorem groups (budget : Nat) : Groups budget := by
  induction budget with
  | zero =>
    exact ⟨fun h => (nomatch h), fun h => (nomatch h), fun _ h => (nomatch h), fun _ h => (nomatch h),
      fun _ _ _ h => (nomatch h), fun h => (nomatch h), fun _ h => (nomatch h), fun h => (nomatch h),
      fun h => (nomatch h), fun h => (nomatch h), fun h => (nomatch h), fun h => (nomatch h), fun h => (nomatch h),
      fun h => (nomatch h), fun h => (nomatch h), fun h => (nomatch h), fun h => (nomatch h), fun h => (nomatch h),
      fun h => (nomatch h), fun h => (nomatch h), fun h => (nomatch h), fun h => (nomatch h), fun h => (nomatch h)⟩
  | succ budget ih =>
    exact ⟨expr_succ ih, conditional_succ ih, level_succ ih, operand_succ ih, operators_succ ih, unary_succ ih,
      accesses_succ ih, arguments_succ ih, primary_succ ih, entries_succ ih, elements_succ ih, function_succ ih,
      body_succ ih, statements_succ ih, statement_succ ih, commas_succ ih, declarator_succ ih, declarators_succ ih,
      ifStatement_succ ih, loopBody_succ ih, forClauses_succ ih, clause_succ ih, forIn_succ ih⟩

end Parse

/-- What is read is grouped by the levels of its operators. -/
theorem grouped_of_parse {source : String} {s : Script} (hparse : parseScript source = .ok s) : Grouped.script s := by
  obtain ⟨first, rest, stop, -, hbody⟩ := parseScript_tokens hparse
  exact (Parse.groups _).body hbody

end ScriptEngine.Source
