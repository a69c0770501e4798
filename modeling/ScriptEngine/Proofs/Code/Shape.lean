import ScriptEngine.Code.Compile
import ScriptEngine.Proofs.Code.Fragment
/-!
The items that a syntax tree is compiled to.

`Shape` follows the trees and knows nothing of bytes, widths and positions. That compiling writes just
these items, at every width and wherever the cursor stands, and on the lines that `Marks` gives, is
`emits_expr`, `emits_stmt` and their companions, one for each kind of tree.
-/

namespace ScriptEngine.Code

open Source (Expr Exprs Entries Elements Stmt Declarator Declarators Commas Body Stmts LoopBody ForStart
  Clause Name)

theorem Literal.isPlain_pushNumber (n : Number) : (Literal.pushNumber n).isPlain = true := by
  unfold Literal.pushNumber
  split
  · split
    case isTrue h =>
      exact decide_eq_true (Nat.lt_trans h (by decide))
    case isFalse => rfl
  · rfl

theorem Literal.isPlain_push (l : Source.Literal) : (Literal.push l).isPlain = true := by
  cases l
  case number n => exact Literal.isPlain_pushNumber n
  all_goals rfl

theorem Literal.counts_push (l : Source.Literal) (n : Nat) : (Literal.push l).Counts n := by
  cases l
  case number k =>
    show (Literal.pushNumber k).Counts n
    unfold Literal.pushNumber
    split
    · split <;> trivial
    · trivial
  all_goals trivial

namespace Shape

/-- A reference is read, or not. -/
def fetch : Option Nat → List Item
  | some _ => [.plain .get]
  | none => []

/-- A variable is declared in the innermost scope. -/
def declare (name : Name) : List Item :=
  [.plain (.pushStr name), .plain .pushScope, .plain .create]

/-- A reference to a variable. -/
def reference (name : Name) : List Item :=
  [.plain (.pushStr name), .plain .findScope]

/-- The parameters of a function are bound, from a position on. -/
def setArgs : List (Name × Nat) → Nat → List Item
  | [], _ => []
  | (name, _) :: rest, index => .plain (.setArg index name) :: setArgs rest (index + 1)

/-- A piece that a jump may pass over. -/
def guarded (j : Jump) (items : List Item) : List Item :=
  .jump j items.length :: items

/-- One of two pieces. -/
def choice (yes no : List Item) : List Item :=
  .jump .onFalse (yes.length + 1) :: (yes ++ .jump .always no.length :: no)

/-- A function, out of the way of what is around it. -/
def function (code : List Item) : List Item :=
  .jump .always code.length :: (code ++ [.func code.length])

/-- A loop with a test in front of its body. -/
def loop (test body : List Item) : List Item :=
  .loop (test.length + body.length + 2) 0
    :: (test ++ .jump .onFalse body.length :: (body ++ [.plain .break]))

/-- A loop with a start, and with a step in front of its test. -/
def countingLoop (start step test body : List Item) : List Item :=
  .loop (start.length + step.length + test.length + body.length + 3) (start.length + 1)
    :: (start ++ .jump .always step.length
      :: (step ++ (test ++ .jump .onFalse body.length :: (body ++ [.plain .break]))))

/-- A function with a name is a variable as well. -/
def named (name : Option Name) (value : List Item) : List Item :=
  match name with
  | some name => declare name ++ reference name ++ value ++ [.plain (.expr .assign)]
  | none => value

mutual

/-- The items of an expression. -/
def expr : Expr → List Item
  | .literal l _ => [.plain (Literal.push l) (Literal.isPlain_push l)]
  | .variable name _ get => reference name ++ fetch get
  | .paren inner => expr inner
  | .member object name _ get => expr object ++ [.plain (.pushStr name), .plain .swap] ++ fetch get
  | .index object key _ get => expr object ++ expr key ++ [.plain .swap] ++ fetch get
  | .call callee _ args _ => expr callee ++ [.plain .args] ++ exprs args ++ [.plain .call]
  | .unary op inner _ => expr inner ++ [.plain (.expr op)]
  | .binary op left right _ => expr left ++ expr right ++ [.plain (.expr op)]
  | .both left right _ => expr left ++ guarded .onFalseKept (.plain .drop :: expr right)
  | .either left right _ => expr left ++ guarded .onTrueKept (.plain .drop :: expr right)
  | .conditional test yes no _ _ => expr test ++ choice (expr yes) (.plain .drop :: expr no)
  | .assign op target value _ => expr target ++ expr value ++ [.plain (.expr op)]
  | .function name _ _ params code _ =>
    named name (function (.plain .newScope :: setArgs params 0 ++ body code ++ [.plain .return]))
  | .object _ all => .plain .pushObj :: entries all
  | .array _ all => .plain .pushArray :: elements all

/-- The items of arguments. -/
def exprs : Exprs → List Item
  | .nil => []
  | .cons first rest => expr first ++ exprs rest

/-- The items that add entries to an object. -/
def entries : Entries → List Item
  | .nil => []
  | .cons key _ value _ rest =>
    [.plain .dup, .plain (.pushStr key), .plain .swap] ++ expr value
      ++ [.plain (.expr .assign), .plain .drop] ++ entries rest

/-- The items that add elements to an array. -/
def elements : Elements → List Item
  | .nil => []
  | .cons _ value _ rest => .plain .dup :: expr value ++ [.plain .append] ++ elements rest

/-- The items of a statement. -/
def stmt : Stmt → List Item
  | .empty _ => [.plain .pushUndef]
  | .declare first rest => declarator first ++ declarators rest
  | .block _ code _ => .plain .newScope :: body code ++ [.plain .delScope]
  | .returnNone _ => [.plain .pushUndef, .plain .setRetVal, .plain .return]
  | .returnValue value _ => expr value ++ [.plain .setRetVal, .plain .return]
  | .break _ => [.plain .pushUndef, .plain .break]
  | .continue _ => [.plain .continue]
  | .exprs first rest => expr first ++ commas rest
  | .ifThen test _ yes => expr test ++ guarded .onFalse (stmt yes)
  | .ifElse test _ yes _ no => expr test ++ choice (stmt yes) (.plain .drop :: stmt no)
  | .while _ test _ code _ =>
    .plain .newScope :: loop (expr test) (loopBody code ++ [.plain .drop, .plain .continue])
      ++ [.plain .delScope]
  | .for _ start _ test step _ code _ =>
    .plain .newScope :: countingLoop (forStart start ++ [.plain .drop])
        (clause step .pushUndef ++ [.plain .drop]) (clause test .pushTrue)
        (loopBody code ++ [.plain .drop, .plain .continue])
      ++ [.plain .delScope]
  | .forIn _ declared name _ object _ code _ =>
    .plain .newScope :: (if declared then declare name else []) ++ .plain (.pushStr name) :: expr object
      ++ .plain .pushUndef :: loop [.plain .forInNext, .plain .dup]
        (loopBody code ++ [.plain .drop, .plain .continue])
      ++ [.plain .drop, .plain .drop, .plain .drop, .plain .drop, .plain .pushUndef, .plain .delScope]

/-- The items of one variable of a declaration. -/
def declarator : Declarator → List Item
  | .plain name _ _ => declare name ++ [.plain .pushUndef]
  | .init name _ _ value _ => declare name ++ reference name ++ expr value ++ [.plain (.expr .assign)]

/-- The items of further variables. -/
def declarators : Declarators → List Item
  | .nil => []
  | .cons _ d rest => .plain .drop :: declarator d ++ declarators rest

/-- The items of further expressions. -/
def commas : Commas → List Item
  | .nil => []
  | .cons _ next rest => .plain .drop :: expr next ++ commas rest

/-- The items of statements up to an end. -/
def body : Body → List Item
  | .none _ => [.plain .pushUndef]
  | .some first rest => stmt first ++ stmts rest

/-- The items of further statements. -/
def stmts : Stmts → List Item
  | .nil => []
  | .cons _ next rest => .plain .drop :: stmt next ++ stmts rest

/-- The items of the body of a loop. -/
def loopBody : LoopBody → List Item
  | .braces code => body code
  | .single s => stmt s

/-- The items that start a counting loop. -/
def forStart : ForStart → List Item
  | .none _ => [.plain .pushUndef]
  | .declare first rest => declarator first ++ declarators rest
  | .expr start => expr start

/-- The items of a clause, with an instruction in place of an absent one. -/
def clause (c : Clause) (absent : Instr) (complete : absent.isPlain = true := by rfl) : List Item :=
  match c with
  | .none _ => [.plain absent complete]
  | .expr inner => expr inner

end

/-- The items of a program. -/
def script (s : Source.Script) : List Item :=
  body s.body ++ [.plain .exit]

end Shape

/-! ## Compiling writes these items -/

theorem emits_fetch (get : Option Nat) : Emits 0 (fetch get) (Shape.fetch get) (Marks.fetch get) := by
  cases get with
  | none => exact Emits.nothing
  | some line => exact Emits.instr line .get rfl trivial

theorem emits_declare (name : Name) (line : Nat) :
    Emits 0 (declare name line) (Shape.declare name) (Marks.declare line) :=
  ((Emits.instr line (.pushStr name) rfl trivial).thenInstr line .pushScope).thenInstr line .create

theorem emits_reference (name : Name) (line : Nat) :
    Emits 0 (reference name line) (Shape.reference name) (Marks.reference line) :=
  (Emits.instr line (.pushStr name) rfl trivial).thenInstr line .findScope

/-- As many items have to stand in front of the parameters as their numbers start at. -/
theorem emits_setArgs (params : List (Name × Nat)) (index : Nat) :
    Emits index (setArgs params index) (Shape.setArgs params index) (Marks.setArgs params) := by
  induction params generalizing index with
  | nil => exact Emits.nothing
  | cons param params ih =>
    exact (Emits.instr param.2 (.setArg index param.1) rfl (Nat.le_refl index)).seq (ih (index + 1))

theorem emits_named {f : Emitter → Emitter} {items : List Item} {marks : Marks} (hf : Emits 0 f items marks)
    (name : Option Name) (line endLine : Nat) :
    Emits 0 (fun e =>
        let e := match name with
          | some name => reference name line (declare name line e)
          | none => e
        let e := f e
        match name with
        | some _ => e.instr endLine (.expr .assign)
        | none => e)
      (Shape.named name items) (.named name line endLine marks) := by
  cases name with
  | none => exact hf
  | some name =>
    exact (((emits_declare name line).andThen (emits_reference name line)).andThen hf).thenInstr endLine
      (.expr .assign)

mutual

theorem emits_expr : ∀ e : Expr, Emits 0 (ofExpr e) (Shape.expr e) (Marks.expr e)
  | .literal l line => Emits.instr line _ (Literal.isPlain_push l) (Literal.counts_push l 0)
  | .variable name line get => (emits_reference name line).andThen (emits_fetch get)
  | .paren inner => emits_expr inner
  | .member object name line get => by
    have hname := (Emits.instr (n := 0) line (.pushStr name) rfl trivial).thenInstr line .swap
    exact ((emits_expr object).andThen hname).andThen (emits_fetch get)
  | .index object key line get =>
    (((emits_expr object).andThen (emits_expr key)).thenInstr line .swap).andThen (emits_fetch get)
  | .call callee line args closeLine =>
    (((emits_expr callee).thenInstr line .args).andThen (emits_exprs args)).thenInstr closeLine .call
  | .unary op inner line => (emits_expr inner).thenInstr line (.expr op)
  | .binary op left right line =>
    ((emits_expr left).andThen (emits_expr right)).thenInstr line (.expr op)
  | .both left right line =>
    (emits_expr left).andThen (((Emits.instr line .drop rfl trivial).andThen (emits_expr right)).jumpOver
      .onFalseKept line)
  | .either left right line =>
    (emits_expr left).andThen (((Emits.instr line .drop rfl trivial).andThen (emits_expr right)).jumpOver
      .onTrueKept line)
  | .conditional test yes no line colonLine =>
    (emits_expr test).andThen ((emits_expr yes).choose line colonLine
      ((Emits.instr colonLine .drop rfl trivial).andThen (emits_expr no)))
  | .assign op target value line =>
    ((emits_expr target).andThen (emits_expr value)).thenInstr line (.expr op)
  | .function name line paramsLine params code endLine => by
    have hcode := ((((Emits.instr paramsLine .newScope rfl trivial).seq
      (emits_setArgs params 0 |>.mono (Nat.zero_le _))).andThen (emits_body code)).thenInstr endLine
        .return).function line endLine
    exact emits_named hcode name line endLine
  | .object line all => (Emits.instr line .pushObj rfl trivial).andThen (emits_entries all)
  | .array line all => (Emits.instr line .pushArray rfl trivial).andThen (emits_elements all)

theorem emits_exprs : ∀ args : Exprs, Emits 0 (ofExprs args) (Shape.exprs args) (Marks.exprs args)
  | .nil => Emits.nothing
  | .cons first rest => (emits_expr first).andThen (emits_exprs rest)

theorem emits_entries : ∀ all : Entries, Emits 0 (ofEntries all) (Shape.entries all) (Marks.entries all)
  | .nil => Emits.nothing
  | .cons key keyLine value line rest => by
    have hkey := ((Emits.instr keyLine .dup rfl trivial).thenInstr keyLine (.pushStr key)).thenInstr keyLine
      .swap
    have hvalue := (Emits.instr (n := 0) line (.expr .assign) rfl trivial).thenInstr line .drop
    exact ((hkey.andThen (emits_expr value)).andThen hvalue).andThen (emits_entries rest)

theorem emits_elements : ∀ all : Elements, Emits 0 (ofElements all) (Shape.elements all) (Marks.elements all)
  | .nil => Emits.nothing
  | .cons startLine value line rest =>
    (((Emits.instr startLine .dup rfl trivial).andThen (emits_expr value)).thenInstr line .append).andThen
      (emits_elements rest)

theorem emits_stmt : ∀ s : Stmt, Emits 0 (ofStmt s) (Shape.stmt s) (Marks.stmt s)
  | .empty line => Emits.instr line .pushUndef rfl trivial
  | .declare first rest => (emits_declarator first).andThen (emits_declarators rest)
  | .block line code endLine =>
    ((Emits.instr line .newScope rfl trivial).andThen (emits_body code)).thenInstr endLine .delScope
  | .returnNone endLine =>
    ((Emits.instr endLine .pushUndef rfl trivial).thenInstr endLine .setRetVal).thenInstr endLine .return
  | .returnValue value endLine => by
    have hreturn := (Emits.instr (n := 0) endLine .setRetVal rfl trivial).thenInstr endLine .return
    exact (emits_expr value).andThen hreturn
  | .break line => (Emits.instr line .pushUndef rfl trivial).thenInstr line .break
  | .continue line => Emits.instr line .continue rfl trivial
  | .exprs first rest => (emits_expr first).andThen (emits_commas rest)
  | .ifThen test line yes => (emits_expr test).andThen ((emits_stmt yes).jumpOver .onFalse line)
  | .ifElse test line yes elseLine no =>
    (emits_expr test).andThen ((emits_stmt yes).choose line elseLine
      ((Emits.instr elseLine .drop rfl trivial).andThen (emits_stmt no)))
  | .while line test bodyLine code endLine => by
    have hnext := (Emits.instr (n := 0) endLine .drop rfl trivial).thenInstr endLine .continue
    exact ((Emits.instr line .newScope rfl trivial).andThen ((emits_expr test).loop line bodyLine endLine
      ((emits_loopBody code).andThen hnext))).thenInstr endLine .delScope
  | .for line start testLine test step bodyLine code endLine => by
    have hnext := (Emits.instr (n := 0) endLine .drop rfl trivial).thenInstr endLine .continue
    exact ((Emits.instr line .newScope rfl trivial).andThen (Emits.countingLoop line testLine bodyLine endLine
      ((emits_forStart start).thenInstr testLine .drop) (emits_clause test .pushTrue rfl trivial)
      ((emits_clause step .pushUndef rfl trivial).thenInstr bodyLine .drop)
      ((emits_loopBody code).andThen hnext))).thenInstr endLine .delScope
  | .forIn line declared name nameLine object bodyLine code endLine => by
    have hdeclare : Emits 0 (fun e => if declared then declare name nameLine e else e)
        (if declared then Shape.declare name else []) (if declared then .declare nameLine else .nil) := by
      cases declared
      · exact Emits.nothing
      · exact emits_declare name nameLine
    have hnext := (Emits.instr (n := 0) endLine .drop rfl trivial).thenInstr endLine .continue
    have hwalk := (Emits.instr (n := 0) bodyLine .forInNext rfl trivial).thenInstr bodyLine .dup
    have hloop := hwalk.loop bodyLine bodyLine endLine ((emits_loopBody code).andThen hnext)
    have hend := ((((Emits.instr (n := 0) endLine .drop rfl trivial).thenInstr endLine .drop).thenInstr endLine
      .drop).thenInstr endLine .drop |>.thenInstr endLine .pushUndef).thenInstr endLine .delScope
    exact (((((Emits.instr line .newScope rfl trivial).andThen hdeclare).andThen
      ((Emits.instr nameLine (.pushStr name) rfl trivial).andThen (emits_expr object))).andThen
      ((Emits.instr bodyLine .pushUndef rfl trivial).andThen hloop)).andThen hend)

theorem emits_declarator : ∀ d : Declarator, Emits 0 (ofDeclarator d) (Shape.declarator d) (Marks.declarator d)
  | .plain name line endLine => (emits_declare name line).thenInstr endLine .pushUndef
  | .init name line valueLine value endLine =>
    (((emits_declare name line).andThen (emits_reference name valueLine)).andThen
      (emits_expr value)).thenInstr endLine (.expr .assign)

theorem emits_declarators : ∀ ds : Declarators, Emits 0 (ofDeclarators ds) (Shape.declarators ds) (Marks.declarators ds)
  | .nil => Emits.nothing
  | .cons commaLine d rest =>
    ((Emits.instr commaLine .drop rfl trivial).andThen (emits_declarator d)).andThen
      (emits_declarators rest)

theorem emits_commas : ∀ cs : Commas, Emits 0 (ofCommas cs) (Shape.commas cs) (Marks.commas cs)
  | .nil => Emits.nothing
  | .cons commaLine next rest =>
    ((Emits.instr commaLine .drop rfl trivial).andThen (emits_expr next)).andThen (emits_commas rest)

theorem emits_body : ∀ code : Body, Emits 0 (ofBody code) (Shape.body code) (Marks.body code)
  | .none line => Emits.instr line .pushUndef rfl trivial
  | .some first rest => (emits_stmt first).andThen (emits_stmts rest)

theorem emits_stmts : ∀ ss : Stmts, Emits 0 (ofStmts ss) (Shape.stmts ss) (Marks.stmts ss)
  | .nil => Emits.nothing
  | .cons line next rest =>
    ((Emits.instr line .drop rfl trivial).andThen (emits_stmt next)).andThen (emits_stmts rest)

theorem emits_loopBody : ∀ b : LoopBody, Emits 0 (ofLoopBody b) (Shape.loopBody b) (Marks.loopBody b)
  | .braces code => emits_body code
  | .single s => emits_stmt s

theorem emits_forStart : ∀ start : ForStart, Emits 0 (ofForStart start) (Shape.forStart start) (Marks.forStart start)
  | .none line => Emits.instr line .pushUndef rfl trivial
  | .declare first rest => (emits_declarator first).andThen (emits_declarators rest)
  | .expr start => emits_expr start

theorem emits_clause : ∀ (c : Clause) (absent : Instr) (complete : absent.isPlain = true)
    (_ : absent.Counts 0), Emits 0 (ofClause c absent) (Shape.clause c absent complete) (Marks.clause c)
  | .none line, absent, complete, counts => Emits.instr line absent complete counts
  | .expr inner, _, _, _ => emits_expr inner

end

/-- Compiling a program writes its items. -/
theorem emits_script (s : Source.Script) :
    Emits 0 (fun e => (ofBody s.body e).instr s.endLine .exit) (Shape.script s) (Marks.script s) :=
  (emits_body s.body).thenInstr s.endLine .exit

end ScriptEngine.Code
