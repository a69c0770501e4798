import ScriptEngine.Code.Emitter
import ScriptEngine.Source.Parse
/-!
From syntax trees to code.

Every expression and every statement leaves one value on the data stack; in a list of statements all
values but the last are dropped. A reference that is not read leaves a name and the object that holds
it instead. A jump that is taken on a false condition leaves a value, so a branch that is entered
starts by dropping one.

The step of a counting loop is written in front of its test, which is already there: the first round
jumps over the step, and every other one starts with it.
-/

namespace ScriptEngine.Code

open Source (Expr Exprs Entries Elements Stmt Declarator Declarators Commas Body Stmts LoopBody ForStart
  Clause Literal Name)

namespace Literal

/-- Whole numbers below this are pushed as integers. -/
def integerLimit : Nat := 1 <<< 63

/-- The instruction that pushes a number. -/
def pushNumber (n : Number) : Instr :=
  match n.nat? with
  | some k => if k < integerLimit then .pushInt k else .pushDbl n.bits
  | none => .pushDbl n.bits

/-- The instruction that pushes a constant. -/
def push : Source.Literal → Instr
  | .this => .pushThis
  | .true => .pushTrue
  | .false => .pushFalse
  | .null => .pushNull
  | .undefined => .pushUndef
  | .number n => pushNumber n
  | .string bytes => .pushStr bytes

end Literal

/-- Reads a reference, on the line given. -/
def fetch (line : Option Nat) (e : Emitter) : Emitter :=
  match line with
  | some line => e.instr line .get
  | none => e

/-- Declares a variable in the innermost scope. -/
def declare (name : Name) (line : Nat) (e : Emitter) : Emitter :=
  e.instrs line [.pushStr name, .pushScope, .create]

/-- Pushes a reference to a variable. -/
def reference (name : Name) (line : Nat) (e : Emitter) : Emitter :=
  e.instrs line [.pushStr name, .findScope]

/-- Binds the parameters of a function, from a position on. -/
def setArgs (params : List (Name × Nat)) (index : Nat) (e : Emitter) : Emitter :=
  match params with
  | [] => e
  | (name, line) :: rest => setArgs rest (index + 1) (e.instr line (.setArg index name))

mutual

/-- The code of an expression. -/
def ofExpr : Expr → Emitter → Emitter
  | .literal l line, e => e.instr line (Literal.push l)
  | .variable name line get, e => fetch get (reference name line e)
  | .paren inner, e => ofExpr inner e
  | .member object name line get, e =>
    fetch get ((ofExpr object e).instrs line [.pushStr name, .swap])
  | .index object key line get, e => fetch get ((ofExpr key (ofExpr object e)).instr line .swap)
  | .call callee line args closeLine, e =>
    (ofExprs args ((ofExpr callee e).instr line .args)).instr closeLine .call
  | .unary op inner line, e => (ofExpr inner e).instr line (.expr op)
  | .binary op left right line, e => (ofExpr right (ofExpr left e)).instr line (.expr op)
  | .both left right line, e =>
    let e := ofExpr left e
    let hole := e.cursor + 1
    let e := ofExpr right ((e.jump line .jmpNeutralFalse).instr line .drop)
    (e.patch hole e.cursor).1
  | .either left right line, e =>
    let e := ofExpr left e
    let hole := e.cursor + 1
    let e := ofExpr right ((e.jump line .jmpNeutralTrue).instr line .drop)
    (e.patch hole e.cursor).1
  | .conditional test yes no line colonLine, e =>
    let e := ofExpr test e
    let noHole := e.cursor + 1
    let e := ofExpr yes (e.jump line .jmpFalse)
    let endHole := e.cursor + 1
    let e := e.jump colonLine .jmp
    let noStart := e.cursor
    let e := ofExpr no (e.instr colonLine .drop)
    let (e, grown) := e.patch endHole e.cursor
    (e.patch noHole (grown.moved noStart)).1
  | .assign op target value line, e => (ofExpr value (ofExpr target e)).instr line (.expr op)
  | .function name line paramsLine params body endLine, e =>
    let e := match name with
      | some name => reference name line (declare name line e)
      | none => e
    let hole := e.cursor + 1
    let e := e.jump line .jmp
    let start := e.cursor
    let e := setArgs params 0 (e.instr paramsLine .newScope)
    let e := (ofBody body e).instr endLine .return
    let (e, grown) := e.patch hole e.cursor
    let e := e.instr endLine (.pushFunc (e.cursor - grown.moved start))
    match name with
    | some _ => e.instr endLine (.expr .assign)
    | none => e
  | .object line entries, e => ofEntries entries (e.instr line .pushObj)
  | .array line elements, e => ofElements elements (e.instr line .pushArray)

/-- The code of arguments, one value each. -/
def ofExprs : Exprs → Emitter → Emitter
  | .nil, e => e
  | .cons first rest, e => ofExprs rest (ofExpr first e)

/-- The code that adds entries to the object on the stack. -/
def ofEntries : Entries → Emitter → Emitter
  | .nil, e => e
  | .cons key keyLine value line rest, e =>
    let e := ofExpr value (e.instrs keyLine [.dup, .pushStr key, .swap])
    ofEntries rest (e.instrs line [.expr .assign, .drop])

/-- The code that adds elements to the array on the stack. -/
def ofElements : Elements → Emitter → Emitter
  | .nil, e => e
  | .cons startLine value line rest, e =>
    ofElements rest ((ofExpr value (e.instr startLine .dup)).instr line .append)

/-- The code of a statement. -/
def ofStmt : Stmt → Emitter → Emitter
  | .empty line, e => e.instr line .pushUndef
  | .declare first rest, e => ofDeclarators rest (ofDeclarator first e)
  | .block line body endLine, e => (ofBody body (e.instr line .newScope)).instr endLine .delScope
  | .returnNone endLine, e => e.instrs endLine [.pushUndef, .setRetVal, .return]
  | .returnValue value endLine, e => (ofExpr value e).instrs endLine [.setRetVal, .return]
  | .break line, e => e.instrs line [.pushUndef, .break]
  | .continue line, e => e.instr line .continue
  | .exprs first rest, e => ofCommas rest (ofExpr first e)
  | .ifThen test line yes, e =>
    let e := ofExpr test e
    let hole := e.cursor + 1
    let e := ofStmt yes (e.jump line .jmpFalse)
    (e.patch hole e.cursor).1
  | .ifElse test line yes elseLine no, e =>
    let e := ofExpr test e
    let noHole := e.cursor + 1
    let e := ofStmt yes (e.jump line .jmpFalse)
    let endHole := e.cursor + 1
    let e := e.jump elseLine .jmp
    let noStart := e.cursor
    let e := ofStmt no (e.instr elseLine .drop)
    let (e, grown) := e.patch endHole e.cursor
    (e.patch noHole (grown.moved noStart)).1
  | .while line test bodyLine body endLine, e =>
    let e := (e.instr line .newScope).op line .loop
    let breakHole := e.cursor
    -- The next round starts with the test, right behind the operands.
    let e := ofExpr test ((e.placeholder line).write line (Varint.encode 0))
    let stopHole := e.cursor + 1
    let e := (ofLoopBody body (e.jump bodyLine .jmpFalse)).instrs endLine [.drop, .continue]
    let e := (e.patch stopHole e.cursor).1.instr endLine .break
    (e.patch breakHole e.cursor).1.instr endLine .delScope
  | .for line start testLine test step bodyLine body endLine, e =>
    let e := (e.instr line .newScope).op line .loop
    let breakHole := e.cursor
    let e := e.placeholder line
    let continueHole := e.cursor
    let e := (ofForStart start (e.placeholder line)).instr testLine .drop
    let startHole := e.cursor + 1
    let e := e.jump testLine .jmp
    let stepStart := e.cursor
    let e := ofClause test .pushTrue e
    let testEnd := e.cursor
    let e := (ofClause step .pushUndef (e.seek stepStart)).instr bodyLine .drop
    let stepSize := e.cursor - stepStart
    let e := e.seek (testEnd + stepSize)
    let stopHole := e.cursor + 1
    let e := (ofLoopBody body (e.jump bodyLine .jmpFalse)).instrs endLine [.drop, .continue]
    let e := (e.patch stopHole e.cursor).1
    let (e, grown) := e.patch startHole (stepStart + stepSize)
    let e := (e.patch continueHole (grown.moved stepStart)).1.instr endLine .break
    -- Empty placeholders share a position; the one patched last lands in front.
    (e.patch breakHole e.cursor).1.instr endLine .delScope
  | .forIn line declared name nameLine object bodyLine body endLine, e =>
    let e := e.instr line .newScope
    let e := if declared then declare name nameLine e else e
    let e := (ofExpr object (e.instr nameLine (.pushStr name))).instr bodyLine .pushUndef
    let e := e.op bodyLine .loop
    let breakHole := e.cursor
    let e := (e.placeholder bodyLine).write bodyLine (Varint.encode 0)
    let e := e.instrs bodyLine [.forInNext, .dup]
    let stopHole := e.cursor + 1
    let e := (ofLoopBody body (e.jump bodyLine .jmpFalse)).instrs endLine [.drop, .continue]
    let e := (e.patch stopHole e.cursor).1.instr endLine .break
    -- The name, the object, the state of the walk and the value of the break go.
    (e.patch breakHole e.cursor).1.instrs endLine [.drop, .drop, .drop, .drop, .pushUndef, .delScope]

/-- The code of one variable of a declaration. -/
def ofDeclarator : Declarator → Emitter → Emitter
  | .plain name line endLine, e => (declare name line e).instr endLine .pushUndef
  | .init name line valueLine value endLine, e =>
    (ofExpr value (reference name valueLine (declare name line e))).instr endLine (.expr .assign)

/-- The code of further variables. -/
def ofDeclarators : Declarators → Emitter → Emitter
  | .nil, e => e
  | .cons commaLine d rest, e => ofDeclarators rest (ofDeclarator d (e.instr commaLine .drop))

/-- The code of further expressions. -/
def ofCommas : Commas → Emitter → Emitter
  | .nil, e => e
  | .cons commaLine next rest, e => ofCommas rest (ofExpr next (e.instr commaLine .drop))

/-- The code of statements up to an end. -/
def ofBody : Body → Emitter → Emitter
  | .none line, e => e.instr line .pushUndef
  | .some first rest, e => ofStmts rest (ofStmt first e)

/-- The code of further statements. -/
def ofStmts : Stmts → Emitter → Emitter
  | .nil, e => e
  | .cons line next rest, e => ofStmts rest (ofStmt next (e.instr line .drop))

/-- The code of the body of a loop. -/
def ofLoopBody : LoopBody → Emitter → Emitter
  | .braces body, e => ofBody body e
  | .single s, e => ofStmt s e

/-- The code that starts a counting loop. -/
def ofForStart : ForStart → Emitter → Emitter
  | .none line, e => e.instr line .pushUndef
  | .declare first rest, e => ofDeclarators rest (ofDeclarator first e)
  | .expr start, e => ofExpr start e

/-- The code of a clause, with an instruction in place of an absent one. -/
def ofClause : Clause → Instr → Emitter → Emitter
  | .none line, absent, e => e.instr line absent
  | .expr clause, _, e => ofExpr clause e

end

/-- The code of a program. -/
def ofScript (s : Source.Script) (width : Nat) : Emitter :=
  (ofBody s.body (.empty width)).instr s.endLine .exit

/-- Compiles a source text into a unit. `width` is how many bytes a jump reserves for its distance
before it is known. -/
def compile (filename source : String) (width : Nat) : Except Error (Array UInt8) :=
  if Emitter.maxWidth < width then
    .error (.arguments ("placeholder width " ++ toString width ++ " is out of range 0..="
      ++ toString Emitter.maxWidth))
  else
    match Source.parseScript source with
    | .error e => .error e
    | .ok script =>
      let e := ofScript script width
      assemble filename e.code.data.toList e.lineTable

end ScriptEngine.Code
