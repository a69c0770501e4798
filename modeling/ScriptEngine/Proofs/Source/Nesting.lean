import ScriptEngine.Proofs.Source.Precedence
/-!
How deep a text nests.

`Nesting` counts how many levels a tree needs open at once: one for an assignment and for each level of binary
operators, one for an operator in front of an operand, and one for a block, a function body and a loop body in braces.
The reader takes a text at a depth exactly if its tree still fits below `maxDepth`, and what does not fit is too deep
(`measures`). The branches of conditionals and choices and loop bodies without braces need no level; `free` is what
they are made to count.
-/

namespace ScriptEngine.Source

open Code (Operator)

namespace Nesting

/-- How many levels are open in front of what is held together so tightly. -/
def opened (tightness : Nat) : Nat :=
  min tightness 1 + (min tightness 12 - 2)

/-- How many levels are opened in front of an expression where any held together so tightly may stand. -/
def between (tightness : Nat) (e : Expr) : Nat :=
  opened e.tightness - opened tightness

variable (free : Nat)

mutual

/-- How many levels an expression opens, those in front of it left out. -/
def expr : Expr → Nat
  | .literal _ _ | .variable _ _ _ => 0
  | .paren inner => between 0 inner + expr inner
  | .member object _ _ _ => expr object
  | .index object key _ _ => max (expr object) (between 0 key + expr key)
  | .call callee _ args _ => max (expr callee) (exprs args)
  | .unary op inner _ => (if op.isPostfix then 0 else 1) + expr inner
  -- The level is open for both operands; what stands on the left may be operators of the same level, in one loop.
  | .binary op left right _ =>
    max (between (op.level + 2) left + expr left) (1 + (between (op.level + 3) right + expr right))
  | .both left right _ => max (between 3 left + expr left) (1 + (between 3 right + expr right))
  | .either left right _ => max (between 2 left + expr left) (1 + (between 2 right + expr right))
  | .conditional test yes no _ _ =>
    max (between 2 test + expr test) (max (between 1 yes + expr yes) (between 1 no + expr no) + free)
  | .assign _ target value _ => max (1 + (between 1 target + expr target)) (1 + (between 0 value + expr value))
  | .function _ _ _ _ code _ => 1 + body code
  | .object _ all => entries all
  | .array _ all => elements all

def exprs : Exprs → Nat
  | .nil => 0
  | .cons first rest => max (between 0 first + expr first) (exprs rest)

def entries : Entries → Nat
  | .nil => 0
  | .cons _ _ value _ rest => max (between 0 value + expr value) (entries rest)

def elements : Elements → Nat
  | .nil => 0
  | .cons _ value _ rest => max (between 0 value + expr value) (elements rest)

/-- How many levels a statement opens. -/
def stmt : Stmt → Nat
  | .empty _ | .returnNone _ | .break _ | .continue _ => 0
  | .declare first rest => max (declarator first) (declarators rest)
  | .block _ code _ => 1 + body code
  | .returnValue value _ => between 0 value + expr value
  | .exprs first rest => max (between 0 first + expr first) (commas rest)
  | .ifThen test _ yes => max (between 0 test + expr test) (stmt yes + free)
  | .ifElse test _ yes _ no => max (between 0 test + expr test) (max (stmt yes) (stmt no) + free)
  | .while _ test _ code _ => max (between 0 test + expr test) (loopBody code)
  | .for _ start _ test step _ code _ => max (forStart start) (max (clause test) (max (clause step) (loopBody code)))
  | .forIn _ _ _ _ object _ code _ => max (between 0 object + expr object) (loopBody code)

def declarator : Declarator → Nat
  | .plain _ _ _ => 0
  | .init _ _ _ value _ => between 0 value + expr value

def declarators : Declarators → Nat
  | .nil => 0
  | .cons _ d rest => max (declarator d) (declarators rest)

def commas : Commas → Nat
  | .nil => 0
  | .cons _ next rest => max (between 0 next + expr next) (commas rest)

def body : Body → Nat
  | .none _ => 0
  | .some first rest => max (stmt first) (stmts rest)

def stmts : Stmts → Nat
  | .nil => 0
  | .cons _ next rest => max (stmt next) (stmts rest)

def loopBody : LoopBody → Nat
  | .braces code => 1 + body code
  | .single s => stmt s + free

def forStart : ForStart → Nat
  | .none _ => 0
  | .declare first rest => max (declarator first) (declarators rest)
  | .expr start => between 0 start + expr start

def clause : Clause → Nat
  | .none _ => 0
  | .expr inner => between 0 inner + expr inner

end

/-- How many levels a program opens. -/
def script (s : Script) : Nat :=
  body free s.body

/-- How many levels an expression opens where any held together so tightly may stand. -/
def whole (tightness : Nat) (e : Expr) : Nat :=
  between tightness e + expr 0 e

variable {e : Expr} {n : Nat}

theorem whole_tightness (e : Expr) : whole e.tightness e = expr 0 e := by
  simp [whole, between]

theorem whole_zero (h : 1 ≤ e.tightness) : whole 0 e = 1 + whole 1 e := by
  simp only [whole, between, opened]
  omega

theorem whole_one (h : 2 ≤ e.tightness) : whole 1 e = whole 2 e := by
  simp only [whole, between, opened]
  omega

theorem whole_level (hn : n < Parse.levels) (h : n + 3 ≤ e.tightness) : whole (n + 2) e = 1 + whole (n + 3) e := by
  unfold Parse.levels at hn
  simp only [whole, between, opened]
  omega

theorem whole_unary (hn : Parse.levels ≤ n + 1) : whole (n + 3) e = expr 0 e := by
  unfold Parse.levels at hn
  simp only [whole, between, opened]
  omega

end Nesting

/-! ## What the reader makes of a depth -/

namespace Parse

open Nesting (whole whole_tightness whole_zero whole_one whole_level whole_unary)

/-- A result that needs so many levels open at once. -/
def within {α : Type} (need : Nat) (result : α) : Except Stop α :=
  if need ≤ maxDepth then .ok result else .error (.rejected .tooDeep)

theorem ok_eq_within {α : Type} {need : Nat} {result : α} (h : need ≤ maxDepth) : .ok result = within need result :=
  (if_pos h).symm

section Binding

variable {α β : Type} {x : Except Stop α} {f : α → Except Stop β} {d m n : Nat} {a : α} {b : β}

/-- What comes first needs no more than the whole. -/
theorem bind_within (hx : x = within m a) (hle : m ≤ n) (hf : m ≤ maxDepth → f a = within n b) :
    x >>= f = within n b := by
  subst hx
  by_cases hm : m ≤ maxDepth
  · rw [← ok_eq_within hm]
    exact hf hm
  · rw [within, if_neg hm, within, if_neg (fun hn => hm (Nat.le_trans hle hn))]
    rfl

/-- One part after another, at one depth. -/
theorem bind_max (hx : x = within (d + m) a) (hf : f a = within (d + n) b) : x >>= f = within (d + max m n) b := by
  refine bind_within hx (by omega) fun hm => ?_
  rw [hf]
  by_cases hn : d + n ≤ maxDepth
  · rw [← ok_eq_within hn, ← ok_eq_within (by omega)]
  · rw [within, if_neg hn, within, if_neg (by omega)]

/-- The last part. -/
theorem bind_last (hx : x = within m a) (hf : f a = .ok b) : x >>= f = within m b :=
  bind_within hx (Nat.le_refl m) fun hm => hf.trans (ok_eq_within hm)

/-- What does not depend on the depth. -/
theorem bind_same {r : Except Stop β} (hx : x = .ok a) (hf : f a = r) : x >>= f = r := by
  subst hx
  exact hf

/-- What is one level deeper. -/
theorem bind_deeper {f : Nat → Except Stop β} (hn : 1 ≤ n) (hf : d + 1 ≤ maxDepth → f (d + 1) = within (d + n) b) :
    deeper d >>= f = within (d + n) b :=
  bind_within (m := d + 1) rfl (Nat.add_le_add_left hn d) hf

theorem bind_ite {c : Prop} [Decidable c] (x y : Except Stop α) (f : α → Except Stop β) :
    (if c then x >>= f else y >>= f) = (if c then x else y) >>= f := by
  split <;> rfl

end Binding

/-- Reading at a depth: what is read fits, or it is too deep. -/
def Opens {α : Type} (read : Nat → Except Stop α) (levels : Nat) (result : α) : Prop :=
  ∀ depth ≤ maxDepth, read depth = within (depth + levels) result

theorem Opens.deeper {α : Type} {read : Nat → Except Stop α} {n d : Nat} {result : α} (h : Opens read n result)
    (hd : d + 1 ≤ maxDepth) : read (d + 1) = within (d + (1 + n)) result := by
  rw [← Nat.add_assoc]
  exact h _ hd

/-- What reading gives within a budget, for each kind of tree. -/
structure Measures (budget : Nat) : Prop where
  expr : ∀ {s depth e stop}, Parse.expr s depth budget = .ok (e, stop) →
    Opens (Parse.expr s · budget) (whole 0 e) (e, stop)
  conditional : ∀ {s depth e stop}, Parse.conditional s depth budget = .ok (e, stop) →
    Opens (Parse.conditional s · budget) (whole 1 e) (e, stop)
  level : ∀ {n s depth e stop}, n < levels → Parse.level n s depth budget = .ok (e, stop) →
    Opens (Parse.level n s · budget) (whole (n + 2) e) (e, stop)
  operand : ∀ {n s depth e stop}, Parse.operand n s depth budget = .ok (e, stop) →
    Opens (Parse.operand n s · budget) (whole (n + 3) e) (e, stop)
  /-- The level itself is open already. -/
  operators : ∀ {n left s depth e stop}, n < levels → Parse.operators n left s depth budget = .ok (e, stop) →
    ∃ more, whole (n + 2) e = max (whole (n + 2) left) more ∧ ∀ depth, depth + 1 ≤ maxDepth →
      Parse.operators n left s (depth + 1) budget = within (depth + more) (e, stop)
  unary : ∀ {s depth updated e stop}, Parse.unary s depth updated budget = .ok (e, stop) →
    Opens (Parse.unary s · updated budget) (Nesting.expr 0 e) (e, stop)
  accesses : ∀ {first s depth updated e stop}, Parse.accesses first s depth updated budget = .ok (e, stop) →
    ∃ more, Nesting.expr 0 e = max (Nesting.expr 0 first) more ∧
      Opens (Parse.accesses first s · updated budget) more (e, stop)
  arguments : ∀ {s depth args stop}, Parse.arguments s depth budget = .ok (args, stop) →
    Opens (Parse.arguments s · budget) (Nesting.exprs 0 args) (args, stop)
  primary : ∀ {s depth updated e stop}, Parse.primary s depth updated budget = .ok (e, stop) →
    Opens (Parse.primary s · updated budget) (Nesting.expr 0 e) (e, stop)
  entries : ∀ {s depth all stop}, Parse.entries s depth budget = .ok (all, stop) →
    Opens (Parse.entries s · budget) (Nesting.entries 0 all) (all, stop)
  elements : ∀ {s depth all stop}, Parse.elements s depth budget = .ok (all, stop) →
    Opens (Parse.elements s · budget) (Nesting.elements 0 all) (all, stop)
  function : ∀ {s depth e stop}, Parse.function s depth budget = .ok (e, stop) →
    Opens (Parse.function s · budget) (Nesting.expr 0 e) (e, stop)
  body : ∀ {s braces depth code stop}, Parse.body s braces depth budget = .ok (code, stop) →
    Opens (Parse.body s braces · budget) (Nesting.body 0 code) (code, stop)
  statements : ∀ {s braces depth all stop}, Parse.statements s braces depth budget = .ok (all, stop) →
    Opens (Parse.statements s braces · budget) (Nesting.stmts 0 all) (all, stop)
  statement : ∀ {s depth t stop}, Parse.statement s depth budget = .ok (t, stop) →
    Opens (Parse.statement s · budget) (Nesting.stmt 0 t) (t, stop)
  commas : ∀ {s depth all stop}, Parse.commas s depth budget = .ok (all, stop) →
    Opens (Parse.commas s · budget) (Nesting.commas 0 all) (all, stop)
  declarator : ∀ {s depth d stop}, Parse.declarator s depth budget = .ok (d, stop) →
    Opens (Parse.declarator s · budget) (Nesting.declarator 0 d) (d, stop)
  declarators : ∀ {s depth all stop}, Parse.declarators s depth budget = .ok (all, stop) →
    Opens (Parse.declarators s · budget) (Nesting.declarators 0 all) (all, stop)
  ifStatement : ∀ {s depth t stop}, Parse.ifStatement s depth budget = .ok (t, stop) →
    Opens (Parse.ifStatement s · budget) (Nesting.stmt 0 t) (t, stop)
  loopBody : ∀ {s depth code stop}, Parse.loopBody s depth budget = .ok (code, stop) →
    Opens (Parse.loopBody s · budget) (Nesting.loopBody 0 code) (code, stop)
  forClauses : ∀ {s depth t stop}, Parse.forClauses s depth budget = .ok (t, stop) →
    Opens (Parse.forClauses s · budget) (Nesting.stmt 0 t) (t, stop)
  clause : ∀ {s closing depth c stop}, Parse.clause s closing depth budget = .ok (c, stop) →
    Opens (Parse.clause s closing · budget) (Nesting.clause 0 c) (c, stop)
  forIn : ∀ {s depth t stop}, Parse.forIn s depth budget = .ok (t, stop) →
    Opens (Parse.forIn s · budget) (Nesting.stmt 0 t) (t, stop)

namespace Measures

variable {budget depth n : Nat} {s stop : Stream} {e : Expr}

theorem expr_succ (ih : Measures budget) (h : Parse.expr s depth (budget + 1) = .ok (e, stop)) :
    Opens (Parse.expr s · (budget + 1)) (whole 0 e) (e, stop) := by
  intro d hd
  simp only [Parse.expr] at h ⊢
  obtain ⟨deep, -, h⟩ := ok_of_bind h
  obtain ⟨⟨target, s₁⟩, htarget, h⟩ := ok_of_bind h
  dsimp only at h
  split at h
  · rename_i hop
    cases h
    rw [whole_zero ((groups budget).conditional htarget).1]
    refine bind_deeper (Nat.le_add_right 1 _) fun hdeep => ?_
    refine bind_last ((ih.conditional htarget).deeper hdeep) ?_
    simp only [hop]
    rfl
  · rename_i op hop
    obtain ⟨⟨value, s₂⟩, hvalue, h⟩ := ok_of_bind h
    dsimp only at h
    cases h
    have hneed : whole 0 (.assign op target value stop.line) = max (1 + whole 1 target) (1 + whole 0 value) :=
      whole_tightness _
    rw [hneed]
    refine bind_deeper (by omega) fun hdeep => ?_
    refine bind_max ((ih.conditional htarget).deeper hdeep) ?_
    simp only [hop]
    exact bind_last ((ih.expr hvalue).deeper hdeep) rfl

theorem conditional_succ (ih : Measures budget) (h : Parse.conditional s depth (budget + 1) = .ok (e, stop)) :
    Opens (Parse.conditional s · (budget + 1)) (whole 1 e) (e, stop) := by
  intro d hd
  simp only [Parse.conditional] at h ⊢
  obtain ⟨⟨test, s₁⟩, htest, h⟩ := ok_of_bind h
  have hlevel : Parse.level 0 s d budget = within (d + whole 2 test) (test, s₁) := ih.level (by decide) htest d hd
  dsimp only at h
  split at h
  · rename_i hquestion
    obtain ⟨⟨yes, colon⟩, hyes, h⟩ := ok_of_bind h
    obtain ⟨s₂, hcolon, h⟩ := ok_of_bind h
    obtain ⟨⟨no, s₃⟩, hno, h⟩ := ok_of_bind h
    dsimp only at h hcolon
    cases h
    have hneed : whole 1 (.conditional test yes no s₁.advance.line colon.line)
        = max (whole 2 test) (max (whole 1 yes) (whole 1 no)) :=
      whole_tightness _
    rw [hneed]
    refine bind_max hlevel ?_
    simp only [hquestion, if_true]
    refine bind_max (ih.conditional hyes d hd) ?_
    refine bind_same hcolon ?_
    exact bind_last (ih.conditional hno d hd) rfl
  · rename_i hquestion
    cases h
    rw [whole_one ((groups budget).level (by decide) htest).1.1]
    refine bind_last hlevel ?_
    simp only [hquestion]
    rfl

theorem level_succ (ih : Measures budget) (hn : n < levels) (h : Parse.level n s depth (budget + 1) = .ok (e, stop)) :
    Opens (Parse.level n s · (budget + 1)) (whole (n + 2) e) (e, stop) := by
  intro d hd
  simp only [Parse.level] at h ⊢
  obtain ⟨deep, -, h⟩ := ok_of_bind h
  obtain ⟨⟨left, s₁⟩, hleft, h⟩ := ok_of_bind h
  obtain ⟨more, hmore, hrest⟩ := ih.operators hn h
  rw [hmore, whole_level hn ((groups budget).operand hn hleft).1]
  refine bind_deeper (by omega) fun hdeep => ?_
  exact bind_max ((ih.operand hleft).deeper hdeep) (hrest d hdeep)

theorem operand_succ (ih : Measures budget) (h : Parse.operand n s depth (budget + 1) = .ok (e, stop)) :
    Opens (Parse.operand n s · (budget + 1)) (whole (n + 3) e) (e, stop) := by
  intro d hd
  simp only [Parse.operand] at h ⊢
  split at h
  · rename_i hlt
    rw [if_pos hlt]
    exact ih.level hlt h d hd
  · rename_i hlt
    rw [if_neg hlt, whole_unary (Nat.le_of_not_lt hlt)]
    exact ih.unary h d hd

theorem operators_succ (ih : Measures budget) {left : Expr} (hn : n < levels)
    (h : Parse.operators n left s depth (budget + 1) = .ok (e, stop)) :
    ∃ more, whole (n + 2) e = max (whole (n + 2) left) more ∧ ∀ d, d + 1 ≤ maxDepth →
      Parse.operators n left s (d + 1) (budget + 1) = within (d + more) (e, stop) := by
  simp only [Parse.operators] at h ⊢
  split at h
  · cases h
    exact ⟨0, (Nat.max_zero _).symm, fun d hdeep => ok_eq_within (Nat.le_of_succ_le hdeep)⟩
  · rename_i op hop
    obtain ⟨⟨right, s₁⟩, hright, h⟩ := ok_of_bind h
    have hjoined : whole (n + 2) (.binary op left right s₁.line)
        = max (whole (n + 2) left) (1 + whole (n + 3) right) := by
      obtain ⟨rfl, -, -⟩ := level_of_binary? hop
      exact whole_tightness _
    obtain ⟨more, hmore, hrest⟩ := ih.operators hn h
    refine ⟨max (1 + whole (n + 3) right) more, by rw [hmore, hjoined, Nat.max_assoc], fun d hdeep => ?_⟩
    exact bind_max ((ih.operand hright).deeper hdeep) (hrest d hdeep)
  · rename_i hop
    obtain ⟨⟨right, s₁⟩, hright, h⟩ := ok_of_bind h
    have hjoined : whole (n + 2) (.both left right s.advance.line)
        = max (whole (n + 2) left) (1 + whole (n + 2) right) := by
      obtain rfl := eq_of_both hop
      exact whole_tightness _
    obtain ⟨more, hmore, hrest⟩ := ih.operators hn h
    refine ⟨max (1 + whole (n + 2) right) more, by rw [hmore, hjoined, Nat.max_assoc], fun d hdeep => ?_⟩
    exact bind_max ((ih.level hn hright).deeper hdeep) (hrest d hdeep)
  · rename_i hop
    obtain ⟨⟨right, s₁⟩, hright, h⟩ := ok_of_bind h
    have hjoined : whole (n + 2) (.either left right s.advance.line)
        = max (whole (n + 2) left) (1 + whole (n + 2) right) := by
      obtain rfl := eq_of_either hop
      exact whole_tightness _
    obtain ⟨more, hmore, hrest⟩ := ih.operators hn h
    refine ⟨max (1 + whole (n + 2) right) more, by rw [hmore, hjoined, Nat.max_assoc], fun d hdeep => ?_⟩
    exact bind_max ((ih.level hn hright).deeper hdeep) (hrest d hdeep)

theorem unary_succ (ih : Measures budget) {updated : Bool}
    (h : Parse.unary s depth updated (budget + 1) = .ok (e, stop)) :
    Opens (Parse.unary s · updated (budget + 1)) (Nesting.expr 0 e) (e, stop) := by
  intro d hd
  simp only [Parse.unary] at h ⊢
  split at h
  · rename_i op hop
    obtain ⟨deep, -, h⟩ := ok_of_bind h
    obtain ⟨⟨inner, s₁⟩, hinner, h⟩ := ok_of_bind h
    dsimp only at h
    cases h
    have hneed : Nesting.expr 0 (.unary op inner stop.line) = 1 + Nesting.expr 0 inner := by
      simp [Nesting.expr, isPostfix_of_unary? hop]
    rw [hneed]
    refine bind_deeper (Nat.le_add_right 1 _) fun hdeep => ?_
    exact bind_last ((ih.unary hinner).deeper hdeep) rfl
  · obtain ⟨⟨first, s₁⟩, hfirst, h⟩ := ok_of_bind h
    obtain ⟨⟨inner, s₂⟩, hinner, h⟩ := ok_of_bind h
    dsimp only at hinner h
    obtain ⟨more, hmore, hrest⟩ := ih.accesses hinner
    have hneed : Nesting.expr 0 e = Nesting.expr 0 inner := by
      split at h
      · rename_i op hop
        cases h
        simp [Nesting.expr, isPostfix_of_update? hop]
      · cases h
        rfl
    rw [hneed, hmore]
    refine bind_max (ih.primary hfirst d hd) ?_
    exact bind_last (hrest d hd) h

theorem accesses_succ (ih : Measures budget) {first : Expr} {updated : Bool}
    (h : Parse.accesses first s depth updated (budget + 1) = .ok (e, stop)) :
    ∃ more, Nesting.expr 0 e = max (Nesting.expr 0 first) more ∧
      Opens (Parse.accesses first s · updated (budget + 1)) more (e, stop) := by
  simp only [Parse.accesses] at h ⊢
  split at h
  · rename_i hdot
    simp only [hdot, if_true]
    split at h
    · cases h
    · exact ih.accesses h
  · rename_i hdot
    simp only [hdot]
    split at h
    · rename_i hbracket
      simp only [hbracket, if_true]
      obtain ⟨⟨key, close⟩, hkey, h⟩ := ok_of_bind h
      obtain ⟨s₁, hclose, h⟩ := ok_of_bind h
      obtain ⟨more, hmore, hrest⟩ := ih.accesses h
      refine ⟨max (whole 0 key) more, hmore.trans (Nat.max_assoc _ _ _), fun d hd => ?_⟩
      refine bind_max (ih.expr hkey d hd) ?_
      exact bind_same hclose (hrest d hd)
    · rename_i hbracket
      simp only [hbracket]
      split at h
      · rename_i hparen
        simp only [hparen, if_true]
        obtain ⟨⟨args, close⟩, hargs, h⟩ := ok_of_bind h
        obtain ⟨s₁, hclose, h⟩ := ok_of_bind h
        obtain ⟨more, hmore, hrest⟩ := ih.accesses h
        refine ⟨max (Nesting.exprs 0 args) more, hmore.trans (Nat.max_assoc _ _ _), fun d hd => ?_⟩
        refine bind_max (ih.arguments hargs d hd) ?_
        exact bind_same hclose (hrest d hd)
      · rename_i hparen
        simp only [hparen]
        cases h
        exact ⟨0, (Nat.max_zero _).symm, fun d hd => ok_eq_within hd⟩

theorem arguments_succ (ih : Measures budget) {args : Exprs}
    (h : Parse.arguments s depth (budget + 1) = .ok (args, stop)) :
    Opens (Parse.arguments s · (budget + 1)) (Nesting.exprs 0 args) (args, stop) := by
  intro d hd
  simp only [Parse.arguments, bind_ite] at h ⊢
  split at h
  · rename_i hclose
    rw [if_pos hclose]
    cases h
    exact ok_eq_within hd
  · rename_i hclose
    rw [if_neg hclose]
    obtain ⟨⟨first, s₁⟩, hfirst, h⟩ := ok_of_bind h
    obtain ⟨s₂, hbehind, h⟩ := ok_of_bind h
    obtain ⟨⟨rest, s₃⟩, hrest, h⟩ := ok_of_bind h
    cases h
    refine bind_max (ih.expr hfirst d hd) ?_
    refine bind_same hbehind ?_
    exact bind_last (ih.arguments hrest d hd) rfl

theorem primary_succ (ih : Measures budget) {updated : Bool}
    (h : Parse.primary s depth updated (budget + 1) = .ok (e, stop)) :
    Opens (Parse.primary s · updated (budget + 1)) (Nesting.expr 0 e) (e, stop) := by
  intro d hd
  simp only [Parse.primary] at h ⊢
  split at h
  · obtain ⟨⟨all, s₁⟩, hall, h⟩ := ok_of_bind h
    cases h
    exact bind_last (ih.entries hall d hd) rfl
  · obtain ⟨⟨all, s₁⟩, hall, h⟩ := ok_of_bind h
    cases h
    exact bind_last (ih.elements hall d hd) rfl
  · exact ih.function h d hd
  · obtain ⟨⟨inner, s₁⟩, hinner, h⟩ := ok_of_bind h
    obtain ⟨s₂, hclose, h⟩ := ok_of_bind h
    cases h
    exact bind_last (ih.expr hinner d hd) (bind_same hclose rfl)
  · cases h
    exact ok_eq_within hd
  · obtain ⟨l, hl, h⟩ := ok_of_bind h
    refine bind_same hl ?_
    cases l with
    | none => cases h
    | some l =>
      cases h
      exact ok_eq_within hd

theorem entries_succ (ih : Measures budget) {all : Entries}
    (h : Parse.entries s depth (budget + 1) = .ok (all, stop)) :
    Opens (Parse.entries s · (budget + 1)) (Nesting.entries 0 all) (all, stop) := by
  intro d hd
  simp only [Parse.entries, bind_ite] at h ⊢
  split at h
  · rename_i hclose
    rw [if_pos hclose]
    cases h
    exact ok_eq_within hd
  · rename_i hclose
    rw [if_neg hclose]
    split at h
    · cases h
    · obtain ⟨s₁, hcolon, h⟩ := ok_of_bind h
      obtain ⟨⟨value, s₂⟩, hvalue, h⟩ := ok_of_bind h
      obtain ⟨s₃, hbehind, h⟩ := ok_of_bind h
      obtain ⟨⟨rest, s₄⟩, hrest, h⟩ := ok_of_bind h
      cases h
      refine bind_same hcolon ?_
      refine bind_max (ih.expr hvalue d hd) ?_
      refine bind_same hbehind ?_
      exact bind_last (ih.entries hrest d hd) rfl

theorem elements_succ (ih : Measures budget) {all : Elements}
    (h : Parse.elements s depth (budget + 1) = .ok (all, stop)) :
    Opens (Parse.elements s · (budget + 1)) (Nesting.elements 0 all) (all, stop) := by
  intro d hd
  simp only [Parse.elements, bind_ite] at h ⊢
  split at h
  · rename_i hclose
    rw [if_pos hclose]
    cases h
    exact ok_eq_within hd
  · rename_i hclose
    rw [if_neg hclose]
    obtain ⟨⟨value, s₁⟩, hvalue, h⟩ := ok_of_bind h
    obtain ⟨s₂, hbehind, h⟩ := ok_of_bind h
    obtain ⟨⟨rest, s₃⟩, hrest, h⟩ := ok_of_bind h
    cases h
    refine bind_max (ih.expr hvalue d hd) ?_
    refine bind_same hbehind ?_
    exact bind_last (ih.elements hrest d hd) rfl

theorem function_succ (ih : Measures budget) (h : Parse.function s depth (budget + 1) = .ok (e, stop)) :
    Opens (Parse.function s · (budget + 1)) (Nesting.expr 0 e) (e, stop) := by
  intro d hd
  simp only [Parse.function] at h ⊢
  obtain ⟨first, hfirst, h⟩ := ok_of_bind h
  obtain ⟨⟨names, close⟩, hnames, h⟩ := ok_of_bind h
  obtain ⟨brace, hbrace, h⟩ := ok_of_bind h
  obtain ⟨deep, -, h⟩ := ok_of_bind h
  obtain ⟨inner, hinner, h⟩ := ok_of_bind h
  obtain ⟨⟨code, s₁⟩, hcode, h⟩ := ok_of_bind h
  obtain ⟨s₂, hclose, h⟩ := ok_of_bind h
  cases h
  refine bind_same hfirst (bind_same hnames (bind_same hbrace ?_))
  refine bind_deeper (Nat.le_add_right 1 _) fun hdeep => ?_
  refine bind_same hinner ?_
  exact bind_last ((ih.body hcode).deeper hdeep) (bind_same hclose rfl)

theorem body_succ (ih : Measures budget) {braces : Bool} {code : Body}
    (h : Parse.body s braces depth (budget + 1) = .ok (code, stop)) :
    Opens (Parse.body s braces · (budget + 1)) (Nesting.body 0 code) (code, stop) := by
  intro d hd
  simp only [Parse.body] at h ⊢
  split at h
  · rename_i hend
    rw [if_pos hend]
    cases h
    exact ok_eq_within hd
  · rename_i hend
    rw [if_neg hend]
    split at h
    · rename_i hsemicolon
      rw [if_pos hsemicolon]
      exact ih.body h d hd
    · rename_i hsemicolon
      rw [if_neg hsemicolon]
      obtain ⟨⟨first, s₁⟩, hfirst, h⟩ := ok_of_bind h
      obtain ⟨⟨rest, s₂⟩, hrest, h⟩ := ok_of_bind h
      cases h
      refine bind_max (ih.statement hfirst d hd) ?_
      exact bind_last (ih.statements hrest d hd) rfl

theorem statements_succ (ih : Measures budget) {braces : Bool} {all : Stmts}
    (h : Parse.statements s braces depth (budget + 1) = .ok (all, stop)) :
    Opens (Parse.statements s braces · (budget + 1)) (Nesting.stmts 0 all) (all, stop) := by
  intro d hd
  simp only [Parse.statements] at h ⊢
  split at h
  · rename_i hend
    rw [if_pos hend]
    cases h
    exact ok_eq_within hd
  · rename_i hend
    rw [if_neg hend]
    split at h
    · rename_i hsemicolon
      rw [if_pos hsemicolon]
      exact ih.statements h d hd
    · rename_i hsemicolon
      rw [if_neg hsemicolon]
      obtain ⟨⟨next, s₁⟩, hnext, h⟩ := ok_of_bind h
      obtain ⟨⟨rest, s₂⟩, hrest, h⟩ := ok_of_bind h
      cases h
      refine bind_max (ih.statement hnext d hd) ?_
      exact bind_last (ih.statements hrest d hd) rfl

theorem statement_succ (ih : Measures budget) {t : Stmt} (h : Parse.statement s depth (budget + 1) = .ok (t, stop)) :
    Opens (Parse.statement s · (budget + 1)) (Nesting.stmt 0 t) (t, stop) := by
  intro d hd
  simp only [Parse.statement] at h ⊢
  split at h
  · cases h
    exact ok_eq_within hd
  · obtain ⟨⟨first, s₁⟩, hfirst, h⟩ := ok_of_bind h
    obtain ⟨⟨rest, s₂⟩, hrest, h⟩ := ok_of_bind h
    cases h
    refine bind_max (ih.declarator hfirst d hd) ?_
    exact bind_last (ih.declarators hrest d hd) rfl
  · obtain ⟨deep, -, h⟩ := ok_of_bind h
    obtain ⟨⟨code, s₁⟩, hcode, h⟩ := ok_of_bind h
    obtain ⟨s₂, hclose, h⟩ := ok_of_bind h
    cases h
    refine bind_deeper (Nat.le_add_right 1 _) fun hdeep => ?_
    exact bind_last ((ih.body hcode).deeper hdeep) (bind_same hclose rfl)
  · split at h
    · rename_i hend
      rw [if_pos hend]
      cases h
      exact ok_eq_within hd
    · rename_i hend
      rw [if_neg hend]
      obtain ⟨⟨value, s₁⟩, hvalue, h⟩ := ok_of_bind h
      cases h
      exact bind_last (ih.expr hvalue d hd) rfl
  · obtain ⟨s₁, hparen, h⟩ := ok_of_bind h
    refine bind_same hparen ?_
    split at h
    · rename_i hin
      rw [if_pos hin]
      exact ih.forIn h d hd
    · rename_i hin
      rw [if_neg hin]
      exact ih.forClauses h d hd
  · obtain ⟨s₁, hparen, h⟩ := ok_of_bind h
    obtain ⟨⟨test, s₂⟩, htest, h⟩ := ok_of_bind h
    obtain ⟨s₃, hclose, h⟩ := ok_of_bind h
    obtain ⟨⟨code, s₄⟩, hcode, h⟩ := ok_of_bind h
    cases h
    refine bind_same hparen ?_
    refine bind_max (ih.expr htest d hd) ?_
    refine bind_same hclose ?_
    exact bind_last (ih.loopBody hcode d hd) rfl
  · exact ih.ifStatement h d hd
  · cases h
    exact ok_eq_within hd
  · cases h
    exact ok_eq_within hd
  · split at h
    · cases h
    · rename_i hleft
      rw [if_neg hleft]
      obtain ⟨⟨first, s₁⟩, hfirst, h⟩ := ok_of_bind h
      obtain ⟨⟨rest, s₂⟩, hrest, h⟩ := ok_of_bind h
      cases h
      refine bind_max (ih.expr hfirst d hd) ?_
      exact bind_last (ih.commas hrest d hd) rfl

theorem commas_succ (ih : Measures budget) {all : Commas} (h : Parse.commas s depth (budget + 1) = .ok (all, stop)) :
    Opens (Parse.commas s · (budget + 1)) (Nesting.commas 0 all) (all, stop) := by
  intro d hd
  simp only [Parse.commas] at h ⊢
  split at h
  · rename_i hcomma
    rw [if_pos hcomma]
    obtain ⟨⟨next, s₁⟩, hnext, h⟩ := ok_of_bind h
    obtain ⟨⟨rest, s₂⟩, hrest, h⟩ := ok_of_bind h
    cases h
    refine bind_max (ih.expr hnext d hd) ?_
    exact bind_last (ih.commas hrest d hd) rfl
  · rename_i hcomma
    rw [if_neg hcomma]
    cases h
    exact ok_eq_within hd

theorem declarator_succ (ih : Measures budget) {a : Declarator}
    (h : Parse.declarator s depth (budget + 1) = .ok (a, stop)) :
    Opens (Parse.declarator s · (budget + 1)) (Nesting.declarator 0 a) (a, stop) := by
  intro d hd
  simp only [Parse.declarator] at h ⊢
  split at h
  · rename_i hname
    rw [if_pos hname]
    split at h
    · rename_i hassign
      rw [if_pos hassign]
      obtain ⟨⟨value, s₁⟩, hvalue, h⟩ := ok_of_bind h
      cases h
      exact bind_last (ih.expr hvalue d hd) rfl
    · rename_i hassign
      rw [if_neg hassign]
      cases h
      exact ok_eq_within hd
  · cases h

theorem declarators_succ (ih : Measures budget) {all : Declarators}
    (h : Parse.declarators s depth (budget + 1) = .ok (all, stop)) :
    Opens (Parse.declarators s · (budget + 1)) (Nesting.declarators 0 all) (all, stop) := by
  intro d hd
  simp only [Parse.declarators] at h ⊢
  split at h
  · rename_i hcomma
    rw [if_pos hcomma]
    obtain ⟨⟨next, s₁⟩, hnext, h⟩ := ok_of_bind h
    obtain ⟨⟨rest, s₂⟩, hrest, h⟩ := ok_of_bind h
    cases h
    refine bind_max (ih.declarator hnext d hd) ?_
    exact bind_last (ih.declarators hrest d hd) rfl
  · rename_i hcomma
    rw [if_neg hcomma]
    cases h
    exact ok_eq_within hd

theorem ifStatement_succ (ih : Measures budget) {t : Stmt}
    (h : Parse.ifStatement s depth (budget + 1) = .ok (t, stop)) :
    Opens (Parse.ifStatement s · (budget + 1)) (Nesting.stmt 0 t) (t, stop) := by
  intro d hd
  simp only [Parse.ifStatement] at h ⊢
  obtain ⟨s₁, hparen, h⟩ := ok_of_bind h
  obtain ⟨⟨test, s₂⟩, htest, h⟩ := ok_of_bind h
  obtain ⟨s₃, hclose, h⟩ := ok_of_bind h
  obtain ⟨⟨yes, s₄⟩, hyes, h⟩ := ok_of_bind h
  dsimp only at h
  -- A semicolon in front of the other branch is skipped before there is a choice between the two forms.
  generalize hbehind : (if (s₄.at_ .semicolon && s₄.advance.atWord .else) = true then s₄.advance else s₄) = behind at h
  split at h
  · rename_i helse
    obtain ⟨⟨no, s₅⟩, hno, h⟩ := ok_of_bind h
    cases h
    subst hbehind
    refine bind_same hparen ?_
    refine bind_max (ih.expr htest d hd) ?_
    refine bind_same hclose ?_
    refine bind_max (ih.statement hyes d hd) ?_
    refine (if_pos helse).trans ?_
    exact bind_last (ih.statement hno d hd) rfl
  · rename_i helse
    cases h
    subst hbehind
    refine bind_same hparen ?_
    refine bind_max (ih.expr htest d hd) ?_
    refine bind_same hclose ?_
    exact bind_last (ih.statement hyes d hd) (if_neg helse)

theorem loopBody_succ (ih : Measures budget) {code : LoopBody}
    (h : Parse.loopBody s depth (budget + 1) = .ok (code, stop)) :
    Opens (Parse.loopBody s · (budget + 1)) (Nesting.loopBody 0 code) (code, stop) := by
  intro d hd
  simp only [Parse.loopBody] at h ⊢
  split at h
  · rename_i hbrace
    rw [if_pos hbrace]
    obtain ⟨deep, -, h⟩ := ok_of_bind h
    obtain ⟨⟨all, s₁⟩, hall, h⟩ := ok_of_bind h
    obtain ⟨s₂, hclose, h⟩ := ok_of_bind h
    cases h
    refine bind_deeper (Nat.le_add_right 1 _) fun hdeep => ?_
    exact bind_last ((ih.body hall).deeper hdeep) (bind_same hclose rfl)
  · rename_i hbrace
    rw [if_neg hbrace]
    obtain ⟨⟨one, s₁⟩, hone, h⟩ := ok_of_bind h
    cases h
    exact bind_last (ih.statement hone d hd) rfl

theorem clause_succ (ih : Measures budget) {closing : Punct} {c : Clause}
    (h : Parse.clause s closing depth (budget + 1) = .ok (c, stop)) :
    Opens (Parse.clause s closing · (budget + 1)) (Nesting.clause 0 c) (c, stop) := by
  intro d hd
  simp only [Parse.clause] at h ⊢
  split at h
  · rename_i hclose
    rw [if_pos hclose]
    cases h
    exact ok_eq_within hd
  · rename_i hclose
    rw [if_neg hclose]
    obtain ⟨⟨inner, s₁⟩, hinner, h⟩ := ok_of_bind h
    cases h
    exact bind_last (ih.expr hinner d hd) rfl

theorem forIn_succ (ih : Measures budget) {t : Stmt} (h : Parse.forIn s depth (budget + 1) = .ok (t, stop)) :
    Opens (Parse.forIn s · (budget + 1)) (Nesting.stmt 0 t) (t, stop) := by
  intro d hd
  simp only [Parse.forIn] at h ⊢
  obtain ⟨s₁, hin, h⟩ := ok_of_bind h
  obtain ⟨⟨object, s₂⟩, hobject, h⟩ := ok_of_bind h
  obtain ⟨s₃, hclose, h⟩ := ok_of_bind h
  obtain ⟨⟨code, s₄⟩, hcode, h⟩ := ok_of_bind h
  cases h
  refine bind_same hin ?_
  refine bind_max (ih.expr hobject d hd) ?_
  refine bind_same hclose ?_
  exact bind_last (ih.loopBody hcode d hd) rfl

/-- A counting loop behind what it starts with. -/
theorem forClauses_behind_succ (ih : Measures budget) {t : Stmt} {line : Nat} {start : ForStart}
    (h : (do
        let s ← s.expect .semicolon
        let test ← Parse.clause s .semicolon depth budget
        let s₁ ← test.2.expect .semicolon
        let step ← Parse.clause s₁ .parenClose depth budget
        let s₂ ← step.2.expect .parenClose
        let code ← Parse.loopBody s₂ depth budget
        return (Stmt.for line start s.line test.1 step.1 s₂.line code.1 code.2.line, code.2)) = .ok (t, stop)) :
    ∃ more, Nesting.stmt 0 t = max (Nesting.forStart 0 start) more ∧ ∀ d ≤ maxDepth, (do
        let s ← s.expect .semicolon
        let test ← Parse.clause s .semicolon d budget
        let s₁ ← test.2.expect .semicolon
        let step ← Parse.clause s₁ .parenClose d budget
        let s₂ ← step.2.expect .parenClose
        let code ← Parse.loopBody s₂ d budget
        return (Stmt.for line start s.line test.1 step.1 s₂.line code.1 code.2.line, code.2))
          = within (d + more) (t, stop) := by
  obtain ⟨s₁, hfirst, h⟩ := ok_of_bind h
  obtain ⟨⟨test, s₂⟩, htest, h⟩ := ok_of_bind h
  obtain ⟨s₃, hsecond, h⟩ := ok_of_bind h
  obtain ⟨⟨step, s₄⟩, hstep, h⟩ := ok_of_bind h
  obtain ⟨s₅, hclose, h⟩ := ok_of_bind h
  obtain ⟨⟨code, s₆⟩, hcode, h⟩ := ok_of_bind h
  cases h
  refine ⟨_, rfl, fun d hd => ?_⟩
  refine bind_same hfirst ?_
  refine bind_max (ih.clause htest d hd) ?_
  refine bind_same hsecond ?_
  refine bind_max (ih.clause hstep d hd) ?_
  refine bind_same hclose ?_
  exact bind_last (ih.loopBody hcode d hd) rfl

theorem forClauses_succ (ih : Measures budget) {t : Stmt}
    (h : Parse.forClauses s depth (budget + 1) = .ok (t, stop)) :
    Opens (Parse.forClauses s · (budget + 1)) (Nesting.stmt 0 t) (t, stop) := by
  intro d hd
  simp only [Parse.forClauses] at h ⊢
  split at h
  · rename_i hnone
    rw [if_pos hnone]
    obtain ⟨more, hmore, hrest⟩ := forClauses_behind_succ ih h
    rw [hmore, show Nesting.forStart 0 (.none s.line) = 0 from rfl, Nat.zero_max]
    exact hrest d hd
  · rename_i hnone
    rw [if_neg hnone]
    split at h
    · rename_i hlet
      rw [if_pos hlet]
      obtain ⟨⟨first, s₁⟩, hfirst, h⟩ := ok_of_bind h
      obtain ⟨⟨rest, s₂⟩, hrest, h⟩ := ok_of_bind h
      obtain ⟨more, hmore, hbehind⟩ := forClauses_behind_succ ih h
      rw [hmore, show Nesting.forStart 0 (.declare first rest)
        = max (Nesting.declarator 0 first) (Nesting.declarators 0 rest) from rfl, Nat.max_assoc]
      refine bind_max (ih.declarator hfirst d hd) ?_
      refine bind_max (ih.declarators hrest d hd) ?_
      exact hbehind d hd
    · rename_i hlet
      rw [if_neg hlet]
      obtain ⟨⟨first, s₁⟩, hfirst, h⟩ := ok_of_bind h
      obtain ⟨more, hmore, hbehind⟩ := forClauses_behind_succ ih h
      rw [hmore]
      refine bind_max (ih.expr hfirst d hd) ?_
      exact hbehind d hd

end Measures

end Parse

end ScriptEngine.Source
