import ScriptEngine.Proofs.Code.Levels
import ScriptEngine.Proofs.Source.Targets
/-!
The levels of a compiled program.

Every expression leaves one value, or two where it is the target of an assignment, and every statement
leaves one (`lays_expr`, `lays_stmt`, and their companions for the other kinds of tree). `Spans` lists the
items at which the statements of a tree start and end.
-/

namespace ScriptEngine.Code

open Source (Expr Exprs Entries Elements Stmt Declarator Declarators Commas Body Stmts LoopBody ForStart
  Clause Name)

/-! ## Where statements are -/

namespace Spans

/-- The items of a statement, and those of the statements in it. -/
def mark (s : Stmt) (a : Nat) (inner : List (Nat × Nat)) : List (Nat × Nat) :=
  (a, a + (Shape.stmt s).length) :: inner

/-- What stands in front of the code of a function. -/
def naming : Option Name → List Item
  | some name => Shape.declare name ++ Shape.reference name
  | none => []

mutual

/-- The statements in an expression whose items start at an index: those of the functions in it. -/
def expr : Expr → Nat → List (Nat × Nat)
  | .literal _ _, _ | .variable _ _ _, _ => []
  | .paren inner, a => expr inner a
  | .member object _ _ _, a => expr object a
  | .index object key _ _, a => expr object a ++ expr key (a + (Shape.expr object).length)
  | .call callee _ args _, a =>
    expr callee a ++ exprs args (a + (Shape.expr callee ++ [Item.plain .args (@rfl Bool true)]).length)
  | .unary _ inner _, a => expr inner a
  | .binary _ left right _, a => expr left a ++ expr right (a + (Shape.expr left).length)
  | .both left right _, a | .either left right _, a =>
    expr left a ++ expr right (a + (Shape.expr left).length + 1 + 1)
  | .conditional test yes no _ _, a =>
    expr test a ++ (expr yes (a + (Shape.expr test).length + 1)
      ++ expr no (a + (Shape.expr test).length + 1 + (Shape.expr yes).length + 1 + 1))
  | .assign _ target value _, a => expr target a ++ expr value (a + (Shape.expr target).length)
  | .function name _ _ params code _, a =>
    body code (a + (naming name).length + 1 + (Item.plain .newScope (@rfl Bool true) :: Shape.setArgs params 0).length)
  | .object _ all, a => entries all (a + 1)
  | .array _ all, a => elements all (a + 1)

def exprs : Exprs → Nat → List (Nat × Nat)
  | .nil, _ => []
  | .cons first rest, a => expr first a ++ exprs rest (a + (Shape.expr first).length)

def entries : Entries → Nat → List (Nat × Nat)
  | .nil, _ => []
  | .cons _ _ value _ rest, a => expr value (a + 3) ++ entries rest (a + ((Shape.expr value).length + 5))

def elements : Elements → Nat → List (Nat × Nat)
  | .nil, _ => []
  | .cons _ value _ rest, a => expr value (a + 1) ++ elements rest (a + ((Shape.expr value).length + 2))

/-- The statements in a statement. -/
def stmt : Stmt → Nat → List (Nat × Nat)
  | .empty _, _ | .returnNone _, _ | .break _, _ | .continue _, _ => []
  | .declare first rest, a => declarator first a ++ declarators rest (a + (Shape.declarator first).length)
  | .block _ code _, a => body code (a + 1)
  | .returnValue value _, a => expr value a
  | .exprs first rest, a => expr first a ++ commas rest (a + (Shape.expr first).length)
  | .ifThen test _ yes, a =>
    expr test a ++ mark yes (a + (Shape.expr test).length + 1) (stmt yes (a + (Shape.expr test).length + 1))
  | .ifElse test _ yes _ no, a =>
    let first := a + (Shape.expr test).length + 1
    let second := first + (Shape.stmt yes).length + 1 + 1
    expr test a ++ (mark yes first (stmt yes first) ++ mark no second (stmt no second))
  | .while _ test _ code _, a =>
    expr test (a + 1 + 1) ++ loopBody code (a + 1 + 1 + (Shape.expr test).length + 1)
  | .for _ start _ test step _ code _, a =>
    let first := a + 1 + 1 + (Shape.forStart start ++ [Item.plain .drop (@rfl Bool true)]).length + 1
    let second := first + (Shape.clause step .pushUndef (@rfl Bool true) ++ [Item.plain .drop (@rfl Bool true)]).length
    forStart start (a + 1 + 1) ++ (clause step first ++ (clause test second
      ++ loopBody code (second + (Shape.clause test .pushTrue (@rfl Bool true)).length + 1)))
  | .forIn _ declared name _ object _ code _, a =>
    let first := a + (Item.plain .newScope (@rfl Bool true) :: (if declared then Shape.declare name else [])).length + 1
    expr object first ++ loopBody code (first + (Shape.expr object).length + 1 + 1 + 2 + 1)

def declarator : Declarator → Nat → List (Nat × Nat)
  | .plain _ _ _, _ => []
  | .init name _ _ value _, a => expr value (a + (Shape.declare name ++ Shape.reference name).length)

def declarators : Declarators → Nat → List (Nat × Nat)
  | .nil, _ => []
  | .cons _ d rest, a => declarator d (a + 1) ++ declarators rest (a + 1 + (Shape.declarator d).length)

def commas : Commas → Nat → List (Nat × Nat)
  | .nil, _ => []
  | .cons _ next rest, a => expr next (a + 1) ++ commas rest (a + 1 + (Shape.expr next).length)

def body : Body → Nat → List (Nat × Nat)
  | .none _, _ => []
  | .some first rest, a => mark first a (stmt first a) ++ stmts rest (a + (Shape.stmt first).length)

def stmts : Stmts → Nat → List (Nat × Nat)
  | .nil, _ => []
  | .cons _ next rest, a =>
    mark next (a + 1) (stmt next (a + 1)) ++ stmts rest (a + 1 + (Shape.stmt next).length)

def loopBody : LoopBody → Nat → List (Nat × Nat)
  | .braces code, a => body code a
  | .single s, a => mark s a (stmt s a)

def forStart : ForStart → Nat → List (Nat × Nat)
  | .none _, _ => []
  | .declare first rest, a => declarator first a ++ declarators rest (a + (Shape.declarator first).length)
  | .expr start, a => expr start a

def clause : Clause → Nat → List (Nat × Nat)
  | .none _, _ => []
  | .expr inner, a => expr inner a

end

end Spans

/-! ## Single instructions -/

section Flat

variable {a : Nat} {L : Level}

theorem lays_flat (ins : Instr) (complete : ins.isPlain = true := by rfl) (h : ins.isFlat = true := by rfl) :
    Lays a (L.more ins.takes) [.plain ins complete] [] (L.more ins.leaves) := by
  refine .instr fun levels _ => ?_
  rw [Instr.agrees_of_isFlat h]
  refine ⟨Nat.le_add_left _ _, ?_⟩
  simp only [Level.more, Nat.add_sub_cancel]

theorem lays_drop : Lays a L.push [.plain .drop] [] L :=
  lays_flat .drop

theorem Lays.thenDrop {M : Level} {items : List Item} {marks : List (Nat × Nat)} (h : Lays a L items marks M.push)
    (hloops : M.loops = L.loops := by rfl) : Lays a L (items ++ [.plain .drop]) marks M :=
  (h.append lays_drop hloops).cast rfl (List.append_nil marks).symm

theorem lays_pushUndef : Lays a L [.plain .pushUndef] [] L.push :=
  lays_flat (L := L) .pushUndef

theorem lays_operator (op : Operator) : Lays a (L.more op.operands) [.plain (.expr op)] [] L.push :=
  lays_flat (.expr op)

theorem lays_literal (l : Source.Literal) :
    Lays a L [.plain (Literal.push l) (Literal.isPlain_push l)] [] L.push := by
  refine .instr fun levels _ => ?_
  cases l
  case number n =>
    show (Literal.pushNumber n).Agrees levels L L.push
    unfold Literal.pushNumber
    split
    · split <;> exact ⟨Nat.zero_le _, rfl⟩
    · exact ⟨Nat.zero_le _, rfl⟩
  all_goals exact ⟨Nat.zero_le _, rfl⟩

theorem lays_fetch (get : Option Nat) :
    Lays a (L.more 2) (Shape.fetch get) [] (L.more (cond get.isSome 1 2)) := by
  cases get with
  | none => exact .nothing a _
  | some line => exact lays_flat .get

theorem lays_declare (name : Name) : Lays a L (Shape.declare name) [] L :=
  ((lays_flat (L := L) (.pushStr name)).append (lays_flat (L := L.push) .pushScope)).append
    (lays_flat (L := L) .create)

theorem lays_reference (name : Name) : Lays a L (Shape.reference name) [] (L.more 2) :=
  (lays_flat (L := L) (.pushStr name)).append (lays_flat (L := L) .findScope)

theorem lays_setArgs (params : List (Name × Nat)) (index : Nat) : Lays a L (Shape.setArgs params index) [] L := by
  induction params generalizing a index with
  | nil => exact .nothing a L
  | cons param params ih => exact (lays_flat (L := L) (.setArg index param.1)).append (ih (index + 1))

end Flat

/-! ## Trees -/

/-- A function with a name is assigned to its variable. -/
theorem lays_named {name : Option Name} {a : Nat} {L : Level} {items : List Item} {marks : List (Nat × Nat)}
    (h : ∀ L, Lays (a + (Spans.naming name).length) L items marks L.push) :
    Lays a L (Shape.named name items) marks L.push := by
  cases name with
  | none => exact h L
  | some name =>
    have hnaming := (lays_declare (a := a) (L := L) name).append (lays_reference name)
    have hvalue := (hnaming.append (h (L.more 2))).append (lays_operator (L := L) .assign)
    exact hvalue.cast rfl (List.append_nil marks).symm

/-- In a scope that was opened. -/
def Level.scoped (L : Level) : Level :=
  { L with scopes := L.scopes + 1 }

theorem atStatement_scoped {L : Level} (h : L.AtStatement) : L.scoped.AtStatement :=
  ⟨h.pending, fun hloops => ⟨(h.loop hloops).1, Nat.le_succ_of_le (h.loop hloops).2⟩⟩

theorem lays_newScope {a : Nat} {L : Level} :
    Lays a L [.plain .newScope] [] L.scoped :=
  .instr fun _ _ => rfl

theorem lays_delScope {a : Nat} {L : Level} :
    Lays a L.scoped [.plain .delScope] [] L :=
  .instr fun _ _ => ⟨Nat.le_add_left _ _, rfl⟩

/-- The callee is noted when its arguments begin. -/
theorem lays_args {a : Nat} {L : Level} :
    Lays a L.push [.plain .args] [] { L.push with pending := L.height :: L.pending } :=
  .instr fun _ _ => ⟨Nat.le_add_left _ _, rfl⟩

/-- A call takes its callee and all arguments. -/
theorem lays_call {a : Nat} {L : Level} (n : Nat) :
    Lays a (Level.more { L.push with pending := L.height :: L.pending } n) [.plain .call] [] L.push :=
  .instr fun _ _ => ⟨L.height, L.pending, rfl, Nat.lt_of_lt_of_le (Nat.lt_succ_self _) (Nat.le_add_right _ _), rfl⟩

/-- The next name is put below the object and the place in it. -/
theorem lays_next {a : Nat} {L : Level} :
    Lays a (L.more 3) [.plain .forInNext, .plain .dup] [] (L.more 3).push :=
  (lays_flat (L := L) .forInNext).append (lays_flat (L := L.more 2) .dup)

/-- Behind a walk over an object its name, the object and the place in it are dropped. -/
theorem lays_walked {a : Nat} {L : Level} :
    Lays a (L.scoped.more 4)
      [.plain .drop, .plain .drop, .plain .drop, .plain .drop, .plain .pushUndef, .plain .delScope] [] L.push := by
  have htwo := (lays_drop (a := a) (L := L.scoped.more 3)).append (lays_drop (L := L.scoped.more 2))
  have hfour := (htwo.append (lays_drop (L := L.scoped.more 1))).append (lays_drop (L := L.scoped))
  exact (hfour.append lays_pushUndef).append (lays_delScope (L := L.push))

/-- A return goes nowhere within a call. -/
theorem lays_return {a : Nat} {L : Level} (h : L.pending = []) (M : Level) :
    Lays a L [.plain .return] [] M :=
  .instr fun _ _ => h

open Source in
mutual

theorem lays_expr : ∀ (e : Expr) {value : Bool} (_ : Settled.expr value e) (a : Nat) (L : Level),
    Lays a L (Shape.expr e) (Spans.expr e a) (L.more (cond value 1 2))
  | .literal l line, value, h, a, L => by
    obtain rfl := h
    exact lays_literal l
  | .variable name line get, value, h, a, L => by
    obtain rfl := h
    exact (lays_reference name).append (lays_fetch get)
  | .paren inner, value, h, a, L => by
    obtain ⟨rfl, h⟩ := h
    exact lays_expr inner h a L
  | .member object name line get, value, h, a, L => by
    obtain ⟨rfl, h⟩ := h
    have hname := (lays_expr object h a L).append (lays_flat (L := L.push) (.pushStr name))
    have hswap := (hname.append (lays_flat (L := L) .swap)).append (lays_fetch get)
    exact hswap.cast (by simp [Shape.expr]) (by simp [Spans.expr])
  | .index object key line get, value, h, a, L => by
    obtain ⟨rfl, hobject, hkey⟩ := h
    have hboth := (lays_expr object hobject a L).append (lays_expr key hkey _ L.push)
    have hswap := (hboth.append (lays_flat (L := L) .swap)).append (lays_fetch get)
    exact hswap.cast rfl (by simp [Spans.expr])
  | .call callee line args closeLine, value, h, a, L => by
    obtain ⟨rfl, hcallee, hargs⟩ := h
    have hbegin := (lays_expr callee hcallee a L).append lays_args
    obtain ⟨n, hrest⟩ := lays_exprs args hargs _ { L.push with pending := L.height :: L.pending }
    exact ((hbegin.append hrest).append (lays_call n)).cast rfl (by simp [Spans.expr])
  | .unary op inner line, value, h, a, L => by
    obtain ⟨rfl, hoperands, h⟩ := h
    have hinner := lays_expr inner h a L
    rw [← hoperands] at hinner
    exact (hinner.append (lays_operator op)).cast rfl (by simp [Spans.expr])
  | .binary op left right line, value, h, a, L => by
    obtain ⟨rfl, hoperands, hleft, hright⟩ := h
    have hboth : Lays a L _ _ (L.more 2) := (lays_expr left hleft a L).append (lays_expr right hright _ L.push)
    rw [← hoperands] at hboth
    exact (hboth.append (lays_operator op)).cast rfl (by simp [Spans.expr])
  | .both left right line, value, h, a, L => by
    obtain ⟨rfl, hleft, hright⟩ := h
    have hsecond := (lays_drop (a := a + (Shape.expr left).length + 1) (L := L)).append (lays_expr right hright _ L)
    exact (lays_expr left hleft a L).append (hsecond.guardedKept (.inr rfl))
  | .either left right line, value, h, a, L => by
    obtain ⟨rfl, hleft, hright⟩ := h
    have hsecond := (lays_drop (a := a + (Shape.expr left).length + 1) (L := L)).append (lays_expr right hright _ L)
    exact (lays_expr left hleft a L).append (hsecond.guardedKept (.inl rfl))
  | .conditional test yes no line colonLine, value, h, a, L => by
    obtain ⟨rfl, htest, hyes, hno⟩ := h
    have hsecond := (lays_drop (L := L)).append (lays_expr no hno
      (a + (Shape.expr test).length + 1 + (Shape.expr yes).length + 1 + 1) L)
    exact (lays_expr test htest a L).append ((lays_expr yes hyes _ L).choice hsecond)
  | .assign op target new line, value, h, a, L => by
    obtain ⟨rfl, hoperands, htarget, hnew⟩ := h
    have hboth : Lays a L _ _ (L.more 3) := (lays_expr target htarget a L).append (lays_expr new hnew _ (L.more 2))
    rw [← hoperands] at hboth
    exact (hboth.append (lays_operator op)).cast rfl (by simp [Spans.expr])
  | .function name line paramsLine params code endLine, value, h, a, L => by
    obtain ⟨rfl, hcode⟩ := h
    refine lays_named fun L => ?_
    have hopen := (lays_newScope (a := a + (Spans.naming name).length + 1) (L := .entry)).append
      (lays_setArgs params 0)
    have hbody := hopen.append (lays_body code hcode _ (atStatement_scoped Level.atStatement_entry))
    exact hbody.function rfl
  | .object line all, value, h, a, L => by
    obtain ⟨rfl, hall⟩ := h
    exact (lays_flat (L := L) .pushObj).append (lays_entries all hall (a + 1) L)
  | .array line all, value, h, a, L => by
    obtain ⟨rfl, hall⟩ := h
    exact (lays_flat (L := L) .pushArray).append (lays_elements all hall (a + 1) L)

theorem lays_exprs : ∀ (args : Exprs) (_ : Settled.exprs args) (a : Nat) (L : Level),
    ∃ n, Lays a L (Shape.exprs args) (Spans.exprs args a) (L.more n)
  | .nil, _, a, L => ⟨0, .nothing a L⟩
  | .cons first rest, h, a, L => by
    obtain ⟨n, hrest⟩ := lays_exprs rest h.2 (a + (Shape.expr first).length) L.push
    refine ⟨1 + n, ?_⟩
    have hboth := (lays_expr first h.1 a L).append hrest
    have hmore : L.more (1 + n) = L.push.more n := by
      simp only [Level.push, Level.more, Nat.add_assoc]
    rw [hmore]
    exact hboth

theorem lays_entries : ∀ (all : Entries) (_ : Settled.entries all) (a : Nat) (L : Level),
    Lays a L.push (Shape.entries all) (Spans.entries all a) L.push
  | .nil, _, a, L => .nothing a L.push
  | .cons key keyLine value line rest, h, a, L => by
    have hkey := ((lays_flat (a := a) (L := L) .dup).append (lays_flat (L := L.more 2) (.pushStr key))).append
      (lays_flat (L := L.push) .swap)
    have hvalue := (hkey.append (lays_expr value h.1 _ (L.more 3))).append (lays_operator (L := L.push) .assign)
    have hall := (hvalue.append (lays_drop (L := L.push))).append (lays_entries rest h.2 _ L)
    exact hall.cast (by simp [Shape.entries]) (by simp [Spans.entries])

theorem lays_elements : ∀ (all : Elements) (_ : Settled.elements all) (a : Nat) (L : Level),
    Lays a L.push (Shape.elements all) (Spans.elements all a) L.push
  | .nil, _, a, L => .nothing a L.push
  | .cons startLine value line rest, h, a, L => by
    have hvalue := (lays_flat (a := a) (L := L) .dup).append (lays_expr value h.1 _ (L.more 2))
    have hall := (hvalue.append (lays_flat (L := L.push) .append)).append (lays_elements rest h.2 _ L)
    exact hall.cast (by simp [Shape.elements]) (by simp [Spans.elements])

theorem lays_stmt : ∀ (s : Stmt) (_ : Settled.stmt s) (a : Nat) {L : Level} (_ : L.AtStatement),
    Lays a L (Shape.stmt s) (Spans.stmt s a) L.push
  | .empty line, _, a, L, _ => lays_pushUndef
  | .declare first rest, h, a, L, hL =>
    (lays_declarator first h.1 a L).append (lays_declarators rest h.2 _ L)
  | .block line code endLine, h, a, L, hL => by
    have hcode := lays_newScope.append (lays_body code h (a + 1) (atStatement_scoped hL))
    exact (hcode.append (lays_delScope (L := L.push))).cast rfl (by simp [Spans.stmt])
  | .returnNone endLine, _, a, L, hL => by
    exact ((lays_pushUndef (a := a) (L := L)).append (lays_flat (L := L) .setRetVal)).append
      (lays_return hL.pending L.push)
  | .returnValue value endLine, h, a, L, hL => by
    have hvalue := (lays_expr value h a L).append (lays_flat (L := L) .setRetVal)
    exact (hvalue.append (lays_return hL.pending L.push)).cast (by simp [Shape.stmt]) (by simp [Spans.stmt])
  | .break line, _, a, L, hL => (lays_pushUndef (a := a) (L := L)).append (Lays.leave hL L.push)
  | .continue line, _, a, L, hL => Lays.again hL L.push
  | .exprs first rest, h, a, L, _ => (lays_expr first h.1 a L).append (lays_commas rest h.2 _ L)
  | .ifThen test line yes, h, a, L, hL =>
    (lays_expr test h.1 a L).append (lays_stmt yes h.2 _ hL).mark.guarded
  | .ifElse test line yes elseLine no, h, a, L, hL => by
    have hsecond := (lays_drop (L := L)).append (lays_stmt no h.2.2
      (a + (Shape.expr test).length + 1 + (Shape.stmt yes).length + 1 + 1) hL).mark
    exact (lays_expr test h.1 a L).append ((lays_stmt yes h.2.1 _ hL).mark.choice hsecond)
  | .while line test bodyLine code endLine, h, a, L, hL => by
    have hloop := Lays.loop (a := a + 1) (L := L.scoped) hL.pending
      (fun exit => lays_expr test h.1 (a + 1 + 1) (Lays.inLoop _ exit (a + 1 + 1)))
      fun exit => (lays_loopBody code h.2 _ (Lays.atStatement_inLoop (L := L.scoped) hL.pending exit (a + 1 + 1))).thenDrop
    have hall := (lays_newScope.append hloop).append (lays_delScope (L := L.push))
    exact hall.cast (by simp [Shape.stmt]) (by simp [Spans.stmt])
  | .for line start testLine test step bodyLine code endLine, h, a, L, hL => by
    have hloop := Lays.countingLoop (a := a + 1) (L := L.scoped) hL.pending
      (fun exit next => (lays_forStart start h.1 (a + 1 + 1) (Lays.inLoop _ exit next)).thenDrop)
      (fun exit next =>
        (lays_clause step .pushUndef rfl (fun _ _ => lays_pushUndef) h.2.2.1 _ (Lays.inLoop _ exit next)).thenDrop)
      (fun exit next => lays_clause test .pushTrue rfl (fun _ L => lays_flat (L := L) .pushTrue) h.2.1 _ (Lays.inLoop _ exit next))
      fun exit next =>
        (lays_loopBody code h.2.2.2 _ (Lays.atStatement_inLoop (L := L.scoped) hL.pending exit next)).thenDrop
    have hall := (lays_newScope.append hloop).append (lays_delScope (L := L.push))
    exact hall.cast (by simp [Shape.stmt]) (by simp [Spans.stmt])
  | .forIn line declared name nameLine object bodyLine code endLine, h, a, L, hL => by
    have hname : Lays (a + 1) L.scoped (if declared then Shape.declare name else []) [] L.scoped := by
      cases declared
      · exact .nothing _ _
      · exact lays_declare name
    have hnamed := (lays_newScope.append hname).append (lays_flat (L := L.scoped) (.pushStr name))
    have hobject := (hnamed.append (lays_expr object h.1 _ L.scoped.push)).append
      (lays_pushUndef (L := L.scoped.more 2))
    -- the name, the object and the place in it stay on the stack during the loop
    have hloop := hobject.append (Lays.loop (L := L.scoped.more 3) hL.pending
      (fun exit => lays_next (L := { Lays.inLoop (L.scoped.more 3) exit _ with height := L.height }))
      fun exit => (lays_loopBody code h.2 _ (Lays.atStatement_inLoop (L := L.scoped.more 3) hL.pending exit
        _)).thenDrop)
    exact (hloop.append lays_walked).cast (by simp [Shape.stmt])
      (by simp [Spans.stmt, Nat.add_assoc, Nat.add_comm, Nat.add_left_comm])

theorem lays_declarator : ∀ (d : Declarator) (_ : Settled.declarator d) (a : Nat) (L : Level),
    Lays a L (Shape.declarator d) (Spans.declarator d a) L.push
  | .plain name line endLine, _, a, L => (lays_declare name).append lays_pushUndef
  | .init name line valueLine value endLine, h, a, L => by
    have htarget := (lays_declare (a := a) (L := L) name).append (lays_reference name)
    have hvalue := (htarget.append (lays_expr value h _ (L.more 2))).append (lays_operator (L := L) .assign)
    exact hvalue.cast rfl (by simp [Spans.declarator])

theorem lays_declarators : ∀ (ds : Declarators) (_ : Settled.declarators ds) (a : Nat) (L : Level),
    Lays a L.push (Shape.declarators ds) (Spans.declarators ds a) L.push
  | .nil, _, a, L => .nothing a L.push
  | .cons commaLine d rest, h, a, L => by
    have hall := (lays_drop.append (lays_declarator d h.1 (a + 1) L)).append (lays_declarators rest h.2 _ L)
    exact hall.cast (by simp [Shape.declarators]) (by simp [Spans.declarators, Nat.add_assoc, Nat.add_comm])

theorem lays_commas : ∀ (cs : Commas) (_ : Settled.commas cs) (a : Nat) (L : Level),
    Lays a L.push (Shape.commas cs) (Spans.commas cs a) L.push
  | .nil, _, a, L => .nothing a L.push
  | .cons commaLine next rest, h, a, L => by
    have hall := (lays_drop.append (lays_expr next h.1 (a + 1) L)).append (lays_commas rest h.2 _ L)
    exact hall.cast (by simp [Shape.commas]) (by simp [Spans.commas, Nat.add_assoc, Nat.add_comm])

theorem lays_body : ∀ (code : Body) (_ : Settled.body code) (a : Nat) {L : Level} (_ : L.AtStatement),
    Lays a L (Shape.body code) (Spans.body code a) L.push
  | .none line, _, a, L, _ => lays_pushUndef
  | .some first rest, h, a, L, hL =>
    (lays_stmt first h.1 a hL).mark.append (lays_stmts rest h.2 _ hL)

theorem lays_stmts : ∀ (ss : Stmts) (_ : Settled.stmts ss) (a : Nat) {L : Level} (_ : L.AtStatement),
    Lays a L.push (Shape.stmts ss) (Spans.stmts ss a) L.push
  | .nil, _, a, L, _ => .nothing a L.push
  | .cons line next rest, h, a, L, hL => by
    have hall := (lays_drop.append (lays_stmt next h.1 (a + 1) hL).mark).append (lays_stmts rest h.2 _ hL)
    exact hall.cast (by simp [Shape.stmts]) (by simp [Spans.stmts, Spans.mark, Nat.add_assoc, Nat.add_comm])

theorem lays_loopBody : ∀ (b : LoopBody) (_ : Settled.loopBody b) (a : Nat) {L : Level} (_ : L.AtStatement),
    Lays a L (Shape.loopBody b) (Spans.loopBody b a) L.push
  | .braces code, h, a, _, hL => lays_body code h a hL
  | .single s, h, a, _, hL => (lays_stmt s h a hL).mark

theorem lays_forStart : ∀ (start : ForStart) (_ : Settled.forStart start) (a : Nat) (L : Level),
    Lays a L (Shape.forStart start) (Spans.forStart start a) L.push
  | .none line, _, a, L => lays_pushUndef
  | .declare first rest, h, a, L =>
    (lays_declarator first h.1 a L).append (lays_declarators rest h.2 _ L)
  | .expr start, h, a, L => lays_expr start h a L

theorem lays_clause : ∀ (c : Clause) (absent : Instr) (complete : absent.isPlain = true)
    (_ : ∀ a L, Lays a L [.plain absent complete] [] L.push) (_ : Settled.clause c) (a : Nat) (L : Level),
    Lays a L (Shape.clause c absent complete) (Spans.clause c a) L.push
  | .none _, _, _, habsent, _, a, L => habsent a L
  | .expr inner, _, _, _, h, a, L => lays_expr inner h a L

end

/-- Levels of a program: nothing is there when it starts, all its items agree with them, and each of its
statements leaves one value more than it finds. -/
structure Levels.Of (s : Source.Script) (levels : Levels) : Prop where
  start : levels 0 = .entry
  agrees : ∀ {i : Nat} {item : Item}, (Shape.script s)[i]? = some item → item.Agrees levels i
  statements : ∀ {span : Nat × Nat}, span ∈ Spans.body s.body 0 →
    span.1 ≤ span.2 ∧ span.2 < (Shape.script s).length ∧ levels span.2 = (levels span.1).push

/-- A program whose expressions give what they are wanted for has levels. -/
theorem exists_levels {s : Source.Script} (h : Source.Settled.body s.body) : ∃ levels, Levels.Of s levels := by
  obtain ⟨levels, hstart, hend, hsuit⟩ := lays_body s.body h 0 Level.atStatement_entry
  have hbody := hsuit levels trivial fun k _ => congrArg levels (Nat.zero_add k)
  have hexit : Item.Agrees levels (0 + (Shape.body s.body).length) (.plain .exit) := by
    show 1 ≤ (levels (0 + (Shape.body s.body).length)).height
    rw [Nat.zero_add, hend]
    exact Nat.le_refl 1
  refine ⟨levels, hstart, fun {i item} hitem => ?_, fun {span} hspan => ?_⟩
  · have hagrees := (hbody.append (Levels.suit_singleton hexit)).agrees hitem
    rwa [Nat.zero_add] at hagrees
  · obtain ⟨-, horder, hhigh, hpush⟩ := hbody.marked hspan
    refine ⟨horder, ?_, hpush⟩
    rw [Shape.script, List.length_append, List.length_singleton]
    omega

end ScriptEngine.Code
