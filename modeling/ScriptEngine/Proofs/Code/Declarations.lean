import ScriptEngine.Proofs.Code.Balance
import ScriptEngine.Proofs.Code.Nests
/-!
Where a program declares variables, and in which scopes.

`Sites` lists the variables that a program declares without a value directly in a loop or a block. Every program has
nests (`fits_expr`, `fits_stmt` and their companions, one for each kind of tree), in which between the item that opens
the scope of a loop or a block and the declarations directly in it lies that one scope (`exists_nests`).
-/

namespace ScriptEngine.Code

open Source (Expr Exprs Entries Elements Stmt Declarator Declarators Commas Body Stmts LoopBody ForStart
  Clause Name)

/-! ## Where declarations are -/

namespace Declared

/-- What one variable of a declaration declares without a value: where, and the name. -/
def declarator : Declarator → Nat → List (Nat × Name)
  | .plain name _ _, a => [(a, name)]
  | .init _ _ _ _ _, _ => []

def declarators : Declarators → Nat → List (Nat × Name)
  | .nil, _ => []
  | .cons _ d rest, a => declarator d (a + 1) ++ declarators rest (a + 1 + (Shape.declarator d).length)

mutual

/-- What a statement declares without a value in the scopes that are open where it starts. -/
def stmt : Stmt → Nat → List (Nat × Name)
  | .declare first rest, a => declarator first a ++ declarators rest (a + (Shape.declarator first).length)
  | .ifThen test _ yes, a => stmt yes (a + (Shape.expr test).length + 1)
  | .ifElse test _ yes _ no, a =>
    stmt yes (a + (Shape.expr test).length + 1)
      ++ stmt no (a + (Shape.expr test).length + 1 + (Shape.stmt yes).length + 1 + 1)
  | .empty _, _ | .block _ _ _, _ | .returnNone _, _ | .returnValue _ _, _ | .break _, _ | .continue _, _
  | .exprs _ _, _ | .while _ _ _ _ _, _ | .for _ _ _ _ _ _ _ _, _ | .forIn _ _ _ _ _ _ _ _, _ => []

def body : Body → Nat → List (Nat × Name)
  | .none _, _ => []
  | .some first rest, a => stmt first a ++ stmts rest (a + (Shape.stmt first).length)

def stmts : Stmts → Nat → List (Nat × Name)
  | .nil, _ => []
  | .cons _ next rest, a => stmt next (a + 1) ++ stmts rest (a + 1 + (Shape.stmt next).length)

end

def loopBody : LoopBody → Nat → List (Nat × Name)
  | .braces code, a => body code a
  | .single s, a => stmt s a

/-- In the scope that is opened at an item. -/
def sites (scope : Nat) (here : List (Nat × Name)) : List Site :=
  here.map fun d => ⟨scope, d.1, d.2⟩

end Declared

namespace Sites

open Spans (naming)

mutual

/-- The sites in an expression whose items start at an index: those of the functions in it. -/
def expr : Expr → Nat → List Site
  | .literal _ _, _ | .variable _ _ _, _ => []
  | .paren inner, a => expr inner a
  | .member object _ _ _, a => expr object a
  | .index object key _ _, a => expr object a ++ expr key (a + (Shape.expr object).length)
  | .call callee _ args _, a => expr callee a ++ exprs args (a + (Shape.expr callee).length + 1)
  | .unary _ inner _, a => expr inner a
  | .binary _ left right _, a => expr left a ++ expr right (a + (Shape.expr left).length)
  | .both left right _, a | .either left right _, a =>
    expr left a ++ expr right (a + (Shape.expr left).length + 1 + 1)
  | .conditional test yes no _ _, a =>
    expr test a ++ (expr yes (a + (Shape.expr test).length + 1)
      ++ expr no (a + (Shape.expr test).length + 1 + (Shape.expr yes).length + 1 + 1))
  | .assign _ target value _, a => expr target a ++ expr value (a + (Shape.expr target).length)
  | .function name _ _ params code _, a =>
    body code (a + (naming name).length + 1 + 1 + (Shape.setArgs params 0).length)
  | .object _ all, a => entries all (a + 1)
  | .array _ all, a => elements all (a + 1)

def exprs : Exprs → Nat → List Site
  | .nil, _ => []
  | .cons first rest, a => expr first a ++ exprs rest (a + (Shape.expr first).length)

def entries : Entries → Nat → List Site
  | .nil, _ => []
  | .cons _ _ value _ rest, a => expr value (a + 3) ++ entries rest (a + ((Shape.expr value).length + 5))

def elements : Elements → Nat → List Site
  | .nil, _ => []
  | .cons _ value _ rest, a => expr value (a + 1) ++ elements rest (a + ((Shape.expr value).length + 2))

/-- The sites in a statement. -/
def stmt : Stmt → Nat → List Site
  | .empty _, _ | .returnNone _, _ | .break _, _ | .continue _, _ => []
  | .declare first rest, a => declarator first a ++ declarators rest (a + (Shape.declarator first).length)
  | .block _ code _, a => Declared.sites a (Declared.body code (a + 1)) ++ body code (a + 1)
  | .returnValue value _, a => expr value a
  | .exprs first rest, a => expr first a ++ commas rest (a + (Shape.expr first).length)
  | .ifThen test _ yes, a => expr test a ++ stmt yes (a + (Shape.expr test).length + 1)
  | .ifElse test _ yes _ no, a =>
    let first := a + (Shape.expr test).length + 1
    expr test a ++ (stmt yes first ++ stmt no (first + (Shape.stmt yes).length + 1 + 1))
  | .while _ test _ code _, a =>
    let inside := a + 1 + 1 + (Shape.expr test).length + 1
    Declared.sites a (Declared.loopBody code inside) ++ (expr test (a + 1 + 1) ++ loopBody code inside)
  | .for _ start _ test step _ code _, a =>
    let first := a + 1 + 1 + (Shape.forStart start).length + 1 + 1
    let second := first + (Shape.clause step .pushUndef (@rfl Bool true)).length + 1
    let inside := second + (Shape.clause test .pushTrue (@rfl Bool true)).length + 1
    Declared.sites a (Declared.loopBody code inside)
      ++ (forStart start (a + 1 + 1) ++ (clause step first ++ (clause test second ++ loopBody code inside)))
  | .forIn _ declared name _ object _ code _, a =>
    let first := a + 1 + (if declared then Shape.declare name else []).length + 1
    let inside := first + (Shape.expr object).length + 1 + 1 + 2 + 1
    Declared.sites a (Declared.loopBody code inside) ++ (expr object first ++ loopBody code inside)

def declarator : Declarator → Nat → List Site
  | .plain _ _ _, _ => []
  | .init name _ _ value _, a => expr value (a + (Shape.declare name ++ Shape.reference name).length)

def declarators : Declarators → Nat → List Site
  | .nil, _ => []
  | .cons _ d rest, a => declarator d (a + 1) ++ declarators rest (a + 1 + (Shape.declarator d).length)

def commas : Commas → Nat → List Site
  | .nil, _ => []
  | .cons _ next rest, a => expr next (a + 1) ++ commas rest (a + 1 + (Shape.expr next).length)

def body : Body → Nat → List Site
  | .none _, _ => []
  | .some first rest, a => stmt first a ++ stmts rest (a + (Shape.stmt first).length)

def stmts : Stmts → Nat → List Site
  | .nil, _ => []
  | .cons _ next rest, a => stmt next (a + 1) ++ stmts rest (a + 1 + (Shape.stmt next).length)

def loopBody : LoopBody → Nat → List Site
  | .braces code, a => body code a
  | .single s, a => stmt s a

def forStart : ForStart → Nat → List Site
  | .none _, _ => []
  | .declare first rest, a => declarator first a ++ declarators rest (a + (Shape.declarator first).length)
  | .expr start, a => expr start a

def clause : Clause → Nat → List Site
  | .none _, _ => []
  | .expr inner, a => expr inner a

end

end Sites

/-! ## Single instructions -/

section Flat

variable {a : Nat} {N : Nest}

/-- An instruction that opens and closes nothing. -/
theorem fits_flat (ins : Instr) (complete : ins.isPlain = true := by rfl)
    (h : ∀ nests : Nests, ins.Nests nests N N := by intro _; rfl) : Fits a N [.plain ins complete] [] [] :=
  .instr fun nests _ => h nests

theorem Fits.then {items : List Item} {here : List (Nat × Name)} {sites : List Site} (h : Fits a N items here sites)
    (ins : Instr) (complete : ins.isPlain = true := by rfl)
    (hins : ∀ nests : Nests, ins.Nests nests N N := by intro _; rfl) :
    Fits a N (items ++ [.plain ins complete]) here sites :=
  (h.append (fits_flat ins complete hins)).cast rfl (List.append_nil here).symm (List.append_nil sites).symm

theorem Fits.behind {items : List Item} {here : List (Nat × Name)} {sites : List Site} (ins : Instr)
    (h : Fits (a + 1) N items here sites) (complete : ins.isPlain = true := by rfl)
    (hins : ∀ nests : Nests, ins.Nests nests N N := by intro _; rfl) :
    Fits a N (.plain ins complete :: items) here sites :=
  (fits_flat ins complete hins).append h

theorem fits_literal (l : Source.Literal) : Fits a N [.plain (Literal.push l) (Literal.isPlain_push l)] [] [] := by
  refine .instr fun nests _ => ?_
  cases l
  case number n =>
    show (Literal.pushNumber n).Nests nests N N
    unfold Literal.pushNumber
    split
    · split <;> rfl
    · rfl
  all_goals rfl

theorem fits_fetch (get : Option Nat) : Fits a N (Shape.fetch get) [] [] := by
  cases get with
  | none => exact .nothing a N
  | some line => exact fits_flat .get

theorem fits_declare (name : Name) : Fits a N (Shape.declare name) [] [] :=
  ((fits_flat (.pushStr name)).then .pushScope).then .create

theorem fits_reference (name : Name) : Fits a N (Shape.reference name) [] [] :=
  (fits_flat (.pushStr name)).then .findScope

theorem fits_setArgs (params : List (Name × Nat)) (index : Nat) : Fits a N (Shape.setArgs params index) [] [] := by
  induction params generalizing a index with
  | nil => exact .nothing a N
  | cons param params ih => exact .behind (.setArg index param.1) (ih (index + 1))

/-- A declaration without a value. -/
theorem fits_plain (name : Name) : Fits a N (Shape.declare name ++ [.plain .pushUndef]) [(a, name)] [] := by
  obtain ⟨inner, h⟩ := (fits_declare (a := a) (N := N) name).then .pushUndef
  refine ⟨inner, h.length, h.first, fun {nests} hground hcovers hend => ?_⟩
  have hsuit := h.suit hground hcovers hend
  refine ⟨hsuit.agree, fun d hd => ?_, hsuit.sites⟩
  obtain rfl := List.mem_singleton.mp hd
  exact ⟨congrArg Nest.scopes (h.start hcovers hend), [], _, rfl, rfl⟩

/-- A function with a name is assigned to its variable. -/
theorem fits_named {name : Option Name} {items : List Item} {sites : List Site}
    (h : Fits (a + (Spans.naming name).length) N items [] sites) : Fits a N (Shape.named name items) [] sites := by
  cases name with
  | none => exact h
  | some name => exact (((fits_declare name).append (fits_reference name)).append h).then (.expr .assign)

theorem fits_return : Fits a N [.plain .return] [] [] :=
  .instr fun _ _ => trivial

/-- What a round of a loop ends with. -/
theorem Fits.thenAgain {items : List Item} {here : List (Nat × Name)} {sites : List Site}
    (h : Fits a N items here sites) : Fits a N (items ++ [.plain .drop, .plain .continue]) here sites :=
  (h.append ((fits_flat .drop).append .again)).cast rfl (List.append_nil here).symm (List.append_nil sites).symm

end Flat

/-! ## Trees -/

mutual

theorem fits_expr : ∀ (e : Expr) (a : Nat) (N : Nest), Fits a N (Shape.expr e) [] (Sites.expr e a)
  | .literal l _, a, N => fits_literal l
  | .variable name _ get, a, N => (fits_reference name).append (fits_fetch get)
  | .paren inner, a, N => fits_expr inner a N
  | .member object name _ get, a, N => by
    have hname := ((fits_expr object a N).then (.pushStr name)).then .swap
    exact (hname.append (fits_fetch get)).cast (by simp [Shape.expr]) rfl (by simp [Sites.expr])
  | .index object key _ get, a, N => by
    have hboth := ((fits_expr object a N).append (fits_expr key _ N)).then .swap
    exact (hboth.append (fits_fetch get)).cast rfl rfl (by simp [Sites.expr])
  | .call callee _ args _, a, N => by
    have hbegin := (fits_expr callee a N).then .args
    exact ((hbegin.append (fits_exprs args _ N)).then .call).cast rfl rfl (by simp [Sites.expr, Nat.add_assoc])
  | .unary op inner _, a, N => (fits_expr inner a N).then (.expr op)
  | .binary op left right _, a, N => ((fits_expr left a N).append (fits_expr right _ N)).then (.expr op)
  | .both left right _, a, N =>
    (fits_expr left a N).append (((fits_expr right _ N).behind .drop).guarded (by decide))
  | .either left right _, a, N =>
    (fits_expr left a N).append (((fits_expr right _ N).behind .drop).guarded (by decide))
  | .conditional test yes no _ _, a, N =>
    (fits_expr test a N).append ((fits_expr yes _ N).choice ((fits_expr no _ N).behind .drop))
  | .assign op target new _, a, N => ((fits_expr target a N).append (fits_expr new _ N)).then (.expr op)
  | .function name _ _ params code _, a, N => by
    have hparams := fits_setArgs (a := a + (Spans.naming name).length + 1 + 1) (N := Nest.entry.opened) params 0
    exact fits_named ((hparams.append (fits_body code _ _)).apart.function.cast (by simp) rfl rfl)
  | .object _ all, a, N => (fits_entries all (a + 1) N).behind .pushObj
  | .array _ all, a, N => (fits_elements all (a + 1) N).behind .pushArray

theorem fits_exprs : ∀ (args : Exprs) (a : Nat) (N : Nest), Fits a N (Shape.exprs args) [] (Sites.exprs args a)
  | .nil, a, N => .nothing a N
  | .cons first rest, a, N => (fits_expr first a N).append (fits_exprs rest _ N)

theorem fits_entries : ∀ (all : Entries) (a : Nat) (N : Nest), Fits a N (Shape.entries all) [] (Sites.entries all a)
  | .nil, a, N => .nothing a N
  | .cons key _ value _ rest, a, N => by
    have hkey := ((fits_flat (a := a) (N := N) .dup).then (.pushStr key)).then .swap
    have hvalue := ((hkey.append (fits_expr value _ N)).then (.expr .assign)).then .drop
    exact (hvalue.append (fits_entries rest _ N)).cast (by simp [Shape.entries]) rfl (by simp [Sites.entries])

theorem fits_elements : ∀ (all : Elements) (a : Nat) (N : Nest),
    Fits a N (Shape.elements all) [] (Sites.elements all a)
  | .nil, a, N => .nothing a N
  | .cons _ value _ rest, a, N => by
    have hvalue := ((fits_expr value (a + 1) N).behind .dup).then .append
    exact (hvalue.append (fits_elements rest _ N)).cast (by simp [Shape.elements]) rfl (by simp [Sites.elements])

theorem fits_stmt : ∀ (s : Stmt) (a : Nat) (N : Nest), Fits a N (Shape.stmt s) (Declared.stmt s a) (Sites.stmt s a)
  | .empty _, a, N => fits_flat .pushUndef
  | .declare first rest, a, N => (fits_declarator first a N).append (fits_declarators rest _ N)
  | .block _ code _, a, N => (fits_body code (a + 1) N.opened).scope
  | .returnNone _, a, N =>
    ((fits_flat .pushUndef).then .setRetVal).append fits_return
  | .returnValue value _, a, N => by
    have hvalue := ((fits_expr value a N).then .setRetVal).append fits_return
    exact hvalue.cast (by simp [Shape.stmt]) rfl (by simp [Sites.stmt])
  | .break _, a, N => .leave
  | .continue _, a, N => .again
  | .exprs first rest, a, N => (fits_expr first a N).append (fits_commas rest _ N)
  | .ifThen test _ yes, a, N => (fits_expr test a N).append ((fits_stmt yes _ N).guarded (by decide))
  | .ifElse test _ yes _ no, a, N =>
    (fits_expr test a N).append ((fits_stmt yes _ N).choice ((fits_stmt no _ N).behind .drop))
  | .while _ test _ code _, a, N => by
    have hloop := Fits.loop (a := a + 1) (N := N.opened)
      (fun exit => fits_expr test (a + 1 + 1) (N.opened.looped exit _))
      fun exit => (fits_loopBody code _ (N.opened.looped exit _)).thenAgain
    exact hloop.scope
  | .for _ start _ test step _ code _, a, N => by
    have hloop := Fits.countingLoop (a := a + 1) (N := N.opened)
      (fun exit next => ((fits_forStart start (a + 1 + 1) (N.opened.looped exit next)).then .drop))
      (fun exit next =>
        ((fits_clause step .pushUndef rfl (fun _ _ => fits_flat .pushUndef) _ (N.opened.looped exit next)).then .drop))
      (fun exit next => fits_clause test .pushTrue rfl (fun _ _ => fits_flat .pushTrue) _ (N.opened.looped exit next))
      fun exit next => (fits_loopBody code _ (N.opened.looped exit next)).thenAgain
    exact hloop.scope.cast rfl rfl (by simp [Sites.stmt, Declared.sites, Nat.add_assoc])
  | .forIn _ declared name _ object _ code _, a, N => by
    have hname : Fits (a + 1) N.opened (if declared then Shape.declare name else []) [] [] := by
      cases declared
      · exact .nothing _ _
      · exact fits_declare name
    have hobject := ((hname.then (.pushStr name)).append (fits_expr object _ N.opened)).then .pushUndef
    have hloop := hobject.append (Fits.loop
      (fun exit => (fits_flat (N := N.opened.looped exit _) .forInNext).then .dup)
      fun exit => (fits_loopBody code _ (N.opened.looped exit _)).thenAgain)
    have hbehind := ((((hloop.then .drop).then .drop).then .drop).then .drop).then .pushUndef
    exact hbehind.scope.cast (by simp [Shape.stmt]) rfl
      (by simp [Sites.stmt, Declared.sites, Nat.add_assoc, Nat.add_comm, Nat.add_left_comm])

theorem fits_declarator : ∀ (d : Declarator) (a : Nat) (N : Nest),
    Fits a N (Shape.declarator d) (Declared.declarator d a) (Sites.declarator d a)
  | .plain name _ _, a, N => fits_plain name
  | .init name _ _ value _, a, N =>
    (((fits_declare name).append (fits_reference name)).append (fits_expr value _ N)).then (.expr .assign)

theorem fits_declarators : ∀ (ds : Declarators) (a : Nat) (N : Nest),
    Fits a N (Shape.declarators ds) (Declared.declarators ds a) (Sites.declarators ds a)
  | .nil, a, N => .nothing a N
  | .cons _ d rest, a, N => by
    have hall := ((fits_declarator d (a + 1) N).behind .drop).append (fits_declarators rest _ N)
    exact hall.cast rfl (by simp [Declared.declarators, Nat.add_assoc, Nat.add_comm])
      (by simp [Sites.declarators, Nat.add_assoc, Nat.add_comm])

theorem fits_commas : ∀ (cs : Commas) (a : Nat) (N : Nest), Fits a N (Shape.commas cs) [] (Sites.commas cs a)
  | .nil, a, N => .nothing a N
  | .cons _ next rest, a, N => by
    have hall := ((fits_expr next (a + 1) N).behind .drop).append (fits_commas rest _ N)
    exact hall.cast rfl rfl (by simp [Sites.commas, Nat.add_assoc, Nat.add_comm])

theorem fits_body : ∀ (code : Body) (a : Nat) (N : Nest),
    Fits a N (Shape.body code) (Declared.body code a) (Sites.body code a)
  | .none _, a, N => fits_flat .pushUndef
  | .some first rest, a, N => (fits_stmt first a N).append (fits_stmts rest _ N)

theorem fits_stmts : ∀ (ss : Stmts) (a : Nat) (N : Nest),
    Fits a N (Shape.stmts ss) (Declared.stmts ss a) (Sites.stmts ss a)
  | .nil, a, N => .nothing a N
  | .cons _ next rest, a, N => by
    have hall := ((fits_stmt next (a + 1) N).behind .drop).append (fits_stmts rest _ N)
    exact hall.cast rfl (by simp [Declared.stmts, Nat.add_assoc, Nat.add_comm])
      (by simp [Sites.stmts, Nat.add_assoc, Nat.add_comm])

theorem fits_loopBody : ∀ (code : LoopBody) (a : Nat) (N : Nest),
    Fits a N (Shape.loopBody code) (Declared.loopBody code a) (Sites.loopBody code a)
  | .braces code, a, N => fits_body code a N
  | .single s, a, N => fits_stmt s a N

theorem fits_forStart : ∀ (start : ForStart) (a : Nat) (N : Nest),
    Fits a N (Shape.forStart start) [] (Sites.forStart start a)
  | .none _, a, N => fits_flat .pushUndef
  | .declare first rest, a, N => ((fits_declarator first a N).append (fits_declarators rest _ N)).apart
  | .expr start, a, N => fits_expr start a N

theorem fits_clause : ∀ (c : Clause) (absent : Instr) (complete : absent.isPlain = true)
    (_ : ∀ a N, Fits a N [.plain absent complete] [] []) (a : Nat) (N : Nest),
    Fits a N (Shape.clause c absent complete) [] (Sites.clause c a)
  | .none _, _, _, habsent, a, N => habsent a N
  | .expr inner, _, _, _, a, N => fits_expr inner a N

end

/-- Nests of a program: nothing is open when it starts, all its items agree with them, and from where a loop or a block
opens its scope to a declaration directly in it that one scope is opened. -/
structure Nests.Of (s : Source.Script) (nests : Nests) : Prop where
  start : nests 0 = .entry
  agrees : ∀ {i : Nat} {item : Item}, (Shape.script s)[i]? = some item → item.Nests nests i
  sites : ∀ site ∈ Sites.body s.body 0, (nests site.start).scopes = (nests site.scope).scopes + 1
    ∧ Contains 0 (Shape.script s) site.scope [.plain .newScope]
    ∧ Contains 0 (Shape.script s) site.start (Shape.declare site.name)

/-- Every program has nests. -/
theorem exists_nests (s : Source.Script) : ∃ nests, Nests.Of s nests := by
  obtain ⟨inner, h⟩ := fits_body s.body 0 .entry
  let nests : Nests := fun k => inner.getD k .entry
  have hcovers : ∀ (front back : List Nest), inner = front ++ back → nests.Covers front.length back := by
    intro front back
    induction back generalizing front with
    | nil => exact fun _ => trivial
    | cons N rest ih =>
      intro hinner
      have hrest := ih (front ++ [N]) (by simp [hinner])
      rw [List.length_append, List.length_singleton] at hrest
      refine ⟨?_, hrest⟩
      show inner.getD front.length .entry = N
      simp [hinner]
  have hend : nests (0 + (Shape.body s.body).length) = .entry := by
    show inner.getD _ .entry = .entry
    simp [← h.length]
  have hbody := h.suit trivial (hcovers [] inner rfl) hend
  have hexit : Item.Nests nests (0 + (Shape.body s.body).length) (.plain .exit) := trivial
  have hall := hbody.append (Nests.suit_singleton hexit)
  refine ⟨nests, h.start (hcovers [] inner rfl) hend, fun {i item} hitem => ?_, fun site hsite => ?_⟩
  · have hagrees := hall.agree.item hitem
    rwa [Nat.zero_add] at hagrees
  · exact hall.sites site (List.mem_append_left _ hsite)

end ScriptEngine.Code
