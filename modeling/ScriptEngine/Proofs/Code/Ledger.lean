import ScriptEngine.Code.Compile
/-!
Code in the making with a ledger of what is in flight.

While code is written, positions in it are held in three ways: a placeholder that is still open, a place
that is needed again later, and a distance that is finished and stands in the code. A `Ledger` is an emitter
together with the positions of all of these as they truly are. A `Spot` is such a true place: it moves
when bytes come in at it or in front of it, except that the place of an instruction which is still to be written is
where the cursor puts it.

Every operation on a ledger does to its emitter what the emitter's own operation does, moves what the
bytes that come in push up, and adds to `met` what has to hold there:

* a write at the cursor cuts no finished distance, and no open placeholder reaches behind the cursor;
* a patch fills the placeholder that was opened last, no other open one reaches behind where that starts, the
  number that it gets as target is where the instruction that is meant truly is, and its growth cuts no
  finished distance;
* afterwards every finished distance is read from the code as the one to its instruction (`Readable`), the
  new one among them;
* a position that the cursor is set to is where it was meant to be;
* every construct leaves what stood in front of the cursor and behind it as it was, and the cursor between its own
  bytes and those behind (`Extends`).

`Ledger.ofExpr`, `Ledger.ofStmt` and their companions follow the compiler. They do arithmetic on the same
numbers; the true places are used for nothing but to be compared with them.
-/

namespace ScriptEngine.Code

open Source (Expr Exprs Entries Elements Stmt Declarator Declarators Commas Body Stmts LoopBody ForStart
  Clause Name)

/-! ## Places in the code -/

/-- A place in the code. If the instruction that is meant is not `written` yet, it is the next one that is
written there. -/
structure Spot where
  position : Nat
  written : Bool

namespace Spot

/-- What is written at the cursor leaves the place where it is. -/
def Before (point : Nat) (s : Spot) : Prop :=
  s.position < point ∨ s.position = point ∧ s.written = false

instance (point : Nat) (s : Spot) : Decidable (s.Before point) := by
  unfold Before
  infer_instance

/-- Where the place is after bytes were written at the cursor. -/
def pushed (point growth : Nat) (s : Spot) : Spot :=
  if s.Before point then ⟨s.position, s.written || (s.position = point ∧ 0 < growth)⟩
  else ⟨s.position + growth, s.written⟩

/-- Where the place is after a patch. -/
def moved (p : Patch) (s : Spot) : Spot :=
  ⟨p.moved s.position, s.written⟩

end Spot

/-- Whether a distance leads on or back. -/
inductive Direction where
  | ahead
  | back

/-- A distance that stands in the code, and the instruction that it leads to. -/
structure Span where
  direction : Direction
  /-- Where its bytes are. -/
  operand : Nat
  size : Nat
  target : Spot

namespace Span

/-- A point lies between the two ends of a distance, or within the bytes that it is written in. -/
def CutAt (point : Nat) (s : Span) : Prop :=
  min s.operand s.target.position < point ∧ point < max (s.operand + s.size) s.target.position

/-- A distance ahead counts from the end of its bytes, one back from its operation code. -/
def Measures (distance : Nat) (s : Span) : Prop :=
  match s.direction with
  | .ahead => s.operand + s.size + distance = s.target.position
  | .back => s.target.position + distance + 1 = s.operand

/-- The number in the code is the distance to the instruction, in code that has addresses. -/
def Reads (code : ByteArray) (s : Span) : Prop :=
  code.size < UInt64.size →
    ∃ distance, Varint.decodeAt (fun i : Nat => code.data[i]?) s.operand = some (distance, s.size) ∧
      s.Measures distance

/-- Where a distance is after bytes were written at the cursor. -/
def pushed (point growth : Nat) (s : Span) : Span :=
  { s with
    operand := if point ≤ s.operand then s.operand + growth else s.operand
    target := s.target.pushed point growth }

/-- Where a distance is after a patch. -/
def moved (p : Patch) (s : Span) : Span :=
  { s with operand := p.moved s.operand, target := s.target.moved p }

/-- The distance that a patch puts in the place of a placeholder. -/
def filled (position width : Nat) (p : Patch) (meant : Spot) : Span :=
  ⟨.ahead, position, width + p.growth, meant.moved p⟩

end Span

/-- After what was written, the bytes in front of the place where it began and those behind the cursor are
what they were. -/
def Emitter.Extends (before after : Emitter) : Prop :=
  before.cursor ≤ after.cursor ∧
    after.code.data.toList.take before.cursor = before.code.data.toList.take before.cursor ∧
    after.code.data.toList.drop after.cursor = before.code.data.toList.drop before.cursor

/-! ## The operations -/

/-- What a position that is needed again later stands for. -/
inductive Held where
  | functionStart
  | elseStart
  | stepStart
  | testStart
  | testEnd
  deriving DecidableEq

/-- An emitter with all that is in flight, and what had to hold so far. -/
structure Ledger where
  emitter : Emitter
  /-- The open placeholders, the last one first. -/
  holes : List Nat
  /-- The places that are needed again, the last one first. -/
  places : List (Held × Spot)
  /-- The distances that are finished. -/
  spans : List Span
  met : Prop

namespace Ledger

/-- Nothing is written, and nothing is in flight. -/
def empty (width : Nat) : Ledger :=
  ⟨.empty width, [], [], [], True⟩

/-- Something has to hold. -/
def require (t : Ledger) (p : Prop) : Ledger :=
  { t with met := t.met ∧ p }

/-- All finished distances lead where they should. -/
def Readable (t : Ledger) : Prop :=
  ∀ s ∈ t.spans, s.Reads t.emitter.code

/-- Bytes come in at a point. -/
def Admits (t : Ledger) (point : Nat) : Prop :=
  ∀ s ∈ t.spans, ¬ s.CutAt point

/-- The instruction that is written next. -/
def here (t : Ledger) : Spot :=
  ⟨t.emitter.cursor, false⟩

/-- Writes bytes at the cursor. -/
def write (t : Ledger) (line : Nat) (bytes : List UInt8) : Ledger :=
  let point := t.emitter.cursor
  let t := t.require (t.Admits point ∧ ∀ hole ∈ t.holes, hole + t.emitter.width ≤ point)
  let t := { t with
    emitter := t.emitter.write line bytes
    places := t.places.map (Prod.map id (Spot.pushed point bytes.length))
    spans := t.spans.map (Span.pushed point bytes.length) }
  t.require t.Readable

/-- Writes an instruction, one piece after the other. -/
def instr (t : Ledger) (line : Nat) (i : Instr) : Ledger :=
  i.pieces.foldl (fun t bytes => t.write line bytes) t

/-- Writes instructions. -/
def instrs (t : Ledger) (line : Nat) (is : List Instr) : Ledger :=
  is.foldl (fun t i => t.instr line i) t

/-- Writes an operation code alone. -/
def op (t : Ledger) (line : Nat) (o : Op) : Ledger :=
  t.write line [o.toByte]

/-- Opens a placeholder where the cursor is. -/
def placeholder (t : Ledger) (line : Nat) : Ledger :=
  { t.write line (List.replicate t.emitter.width 0) with holes := t.emitter.cursor :: t.holes }

/-- Writes a jump whose distance is not known yet. -/
def jump (t : Ledger) (line : Nat) (o : Op) : Ledger :=
  (t.op line o).placeholder line

/-- A distance is finished. -/
def finish (t : Ledger) (s : Span) : Ledger :=
  let t := { t with spans := s :: t.spans }
  t.require t.Readable

/-- Puts a number in the place of the placeholder that was opened last and moves what is behind it. -/
def fill (t : Ledger) (position target : Nat) : Ledger :=
  let (e, grown) := t.emitter.patch position target
  { t with
    emitter := e
    holes := t.holes.tail
    places := t.places.map (Prod.map id (Spot.moved grown))
    spans := t.spans.map (Span.moved grown) }

/-- Fills a placeholder with the distance to a target, which should be where the instruction is that is
`meant`. -/
def patch (t : Ledger) (position target : Nat) (meant : Spot) : Ledger × Patch :=
  let point := position + t.emitter.width
  let t := t.require (t.Admits point ∧ t.holes.head? = some position ∧
    (∀ hole ∈ t.holes.tail, hole + t.emitter.width ≤ position) ∧ target = meant.position ∧ point ≤ target)
  let grown := (t.emitter.patch position target).2
  ((t.fill position target).finish (.filled position t.emitter.width grown meant), grown)

/-- Writes the instruction that pushes a function, whose code starts at the place that is `meant`. -/
def pushFunc (t : Ledger) (line : Nat) (back : Nat) (meant : Spot) : Ledger :=
  let start := t.emitter.cursor
  let t := (t.require (meant.position + back = start)).instr line (.pushFunc back)
  t.finish ⟨.back, start + 1, Varint.length back, meant⟩

/-- Notes the place of the instruction that is written next. -/
def hold (t : Ledger) (name : Held) : Ledger :=
  { t with places := (name, t.here) :: t.places }

/-- The place that was noted last under a name. -/
def place (t : Ledger) (name : Held) : Spot :=
  (t.places.lookup name).getD t.here

/-- A place is not needed any more. -/
def release (t : Ledger) (name : Held) : Ledger :=
  { t with places := t.places.eraseP fun entry => entry.1 = name }

/-- Sets the cursor to a position in the code, which should be the place that is `meant`. -/
def seek (t : Ledger) (position : Nat) (meant : Spot) : Ledger :=
  let t := t.require (position = meant.position ∧ position ≤ t.emitter.code.size)
  { t with emitter := t.emitter.seek position }

/-- A construct was written between what stood in front of the cursor and what stood behind it. -/
def since (t' t : Ledger) : Ledger :=
  t'.require (t.emitter.Extends t'.emitter)

/-! ## The compiler -/

/-- Reads a reference, on the line given. -/
def fetch (line : Option Nat) (t : Ledger) : Ledger :=
  match line with
  | some line => t.instr line .get
  | none => t

/-- Declares a variable in the innermost scope. -/
def declare (name : Name) (line : Nat) (t : Ledger) : Ledger :=
  t.instrs line [.pushStr name, .pushScope, .create]

/-- Pushes a reference to a variable. -/
def reference (name : Name) (line : Nat) (t : Ledger) : Ledger :=
  t.instrs line [.pushStr name, .findScope]

/-- Binds the parameters of a function, from a position on. -/
def setArgs (params : List (Name × Nat)) (index : Nat) (t : Ledger) : Ledger :=
  match params with
  | [] => t
  | (name, line) :: rest => setArgs rest (index + 1) (t.instr line (.setArg index name))

mutual

/-- The code of an expression. -/
def ofExpr (e : Expr) (t : Ledger) : Ledger :=
  (match e with
  | .literal l line => t.instr line (Literal.push l)
  | .variable name line get => fetch get (reference name line t)
  | .paren inner => ofExpr inner t
  | .member object name line get =>
    fetch get ((ofExpr object t).instrs line [.pushStr name, .swap])
  | .index object key line get => fetch get ((ofExpr key (ofExpr object t)).instr line .swap)
  | .call callee line args closeLine =>
    (ofExprs args ((ofExpr callee t).instr line .args)).instr closeLine .call
  | .unary op inner line => (ofExpr inner t).instr line (.expr op)
  | .binary op left right line => (ofExpr right (ofExpr left t)).instr line (.expr op)
  | .both left right line =>
    let t := ofExpr left t
    let hole := t.emitter.cursor + 1
    let t := ofExpr right ((t.jump line .jmpNeutralFalse).instr line .drop)
    (t.patch hole t.emitter.cursor t.here).1
  | .either left right line =>
    let t := ofExpr left t
    let hole := t.emitter.cursor + 1
    let t := ofExpr right ((t.jump line .jmpNeutralTrue).instr line .drop)
    (t.patch hole t.emitter.cursor t.here).1
  | .conditional test yes no line colonLine =>
    let t := ofExpr test t
    let noHole := t.emitter.cursor + 1
    let t := ofExpr yes (t.jump line .jmpFalse)
    let endHole := t.emitter.cursor + 1
    let t := t.jump colonLine .jmp
    let noStart := t.emitter.cursor
    let t := ofExpr no ((t.hold .elseStart).instr colonLine .drop)
    let (t, grown) := t.patch endHole t.emitter.cursor t.here
    (t.patch noHole (grown.moved noStart) (t.place .elseStart)).1.release .elseStart
  | .assign op target value line => (ofExpr value (ofExpr target t)).instr line (.expr op)
  | .function name line paramsLine params body endLine =>
    let t := match name with
      | some name => reference name line (declare name line t)
      | none => t
    let hole := t.emitter.cursor + 1
    let t := t.jump line .jmp
    let start := t.emitter.cursor
    let t := setArgs params 0 ((t.hold .functionStart).instr paramsLine .newScope)
    let t := (ofBody body t).instr endLine .return
    let (t, grown) := t.patch hole t.emitter.cursor t.here
    let t := (t.pushFunc endLine (t.emitter.cursor - grown.moved start) (t.place .functionStart)).release
      .functionStart
    match name with
    | some _ => t.instr endLine (.expr .assign)
    | none => t
  | .object line entries => ofEntries entries (t.instr line .pushObj)
  | .array line elements => ofElements elements (t.instr line .pushArray)).since t

/-- The code of arguments, one value each. -/
def ofExprs (es : Exprs) (t : Ledger) : Ledger :=
  (match es with
  | .nil => t
  | .cons first rest => ofExprs rest (ofExpr first t)).since t

/-- The code that adds entries to the object on the stack. -/
def ofEntries (es : Entries) (t : Ledger) : Ledger :=
  (match es with
  | .nil => t
  | .cons key keyLine value line rest =>
    let t := ofExpr value (t.instrs keyLine [.dup, .pushStr key, .swap])
    ofEntries rest (t.instrs line [.expr .assign, .drop])).since t

/-- The code that adds elements to the array on the stack. -/
def ofElements (es : Elements) (t : Ledger) : Ledger :=
  (match es with
  | .nil => t
  | .cons startLine value line rest =>
    ofElements rest ((ofExpr value (t.instr startLine .dup)).instr line .append)).since t

/-- The code of a statement. -/
def ofStmt (s : Stmt) (t : Ledger) : Ledger :=
  (match s with
  | .empty line => t.instr line .pushUndef
  | .declare first rest => ofDeclarators rest (ofDeclarator first t)
  | .block line body endLine => (ofBody body (t.instr line .newScope)).instr endLine .delScope
  | .returnNone endLine => t.instrs endLine [.pushUndef, .setRetVal, .return]
  | .returnValue value endLine => (ofExpr value t).instrs endLine [.setRetVal, .return]
  | .break line => t.instrs line [.pushUndef, .break]
  | .continue line => t.instr line .continue
  | .exprs first rest => ofCommas rest (ofExpr first t)
  | .ifThen test line yes =>
    let t := ofExpr test t
    let hole := t.emitter.cursor + 1
    let t := ofStmt yes (t.jump line .jmpFalse)
    (t.patch hole t.emitter.cursor t.here).1
  | .ifElse test line yes elseLine no =>
    let t := ofExpr test t
    let noHole := t.emitter.cursor + 1
    let t := ofStmt yes (t.jump line .jmpFalse)
    let endHole := t.emitter.cursor + 1
    let t := t.jump elseLine .jmp
    let noStart := t.emitter.cursor
    let t := ofStmt no ((t.hold .elseStart).instr elseLine .drop)
    let (t, grown) := t.patch endHole t.emitter.cursor t.here
    (t.patch noHole (grown.moved noStart) (t.place .elseStart)).1.release .elseStart
  | .while line test bodyLine body endLine =>
    let t := (t.instr line .newScope).op line .loop
    let breakHole := t.emitter.cursor
    let t := ofExpr test ((t.placeholder line).write line (Varint.encode 0))
    let stopHole := t.emitter.cursor + 1
    let t := (ofLoopBody body (t.jump bodyLine .jmpFalse)).instrs endLine [.drop, .continue]
    let t := (t.patch stopHole t.emitter.cursor t.here).1.instr endLine .break
    (t.patch breakHole t.emitter.cursor t.here).1.instr endLine .delScope
  | .for line start testLine test step bodyLine body endLine =>
    let t := (t.instr line .newScope).op line .loop
    let breakHole := t.emitter.cursor
    let t := t.placeholder line
    let continueHole := t.emitter.cursor
    let t := (ofForStart start (t.placeholder line)).instr testLine .drop
    let startHole := t.emitter.cursor + 1
    let t := t.jump testLine .jmp
    let stepStart := t.emitter.cursor
    let t := ofClause test .pushTrue ((t.hold .stepStart).hold .testStart)
    let testEnd := t.emitter.cursor
    let t := t.hold .testEnd
    -- From here on, the step is what will be written at this place.
    let t := ((t.seek stepStart (t.place .stepStart)).release .stepStart).hold .stepStart
    let t := (ofClause step .pushUndef t).instr bodyLine .drop
    let stepSize := t.emitter.cursor - stepStart
    let t := (t.seek (testEnd + stepSize) (t.place .testEnd)).release .testEnd
    let stopHole := t.emitter.cursor + 1
    let t := (ofLoopBody body (t.jump bodyLine .jmpFalse)).instrs endLine [.drop, .continue]
    let t := (t.patch stopHole t.emitter.cursor t.here).1
    let (t, grown) := t.patch startHole (stepStart + stepSize) (t.place .testStart)
    let t := (t.release .testStart).patch continueHole (grown.moved stepStart) (t.place .stepStart)
    let t := (t.1.release .stepStart).instr endLine .break
    (t.patch breakHole t.emitter.cursor t.here).1.instr endLine .delScope
  | .forIn line declared name nameLine object bodyLine body endLine =>
    let t := t.instr line .newScope
    let t := if declared then declare name nameLine t else t
    let t := (ofExpr object (t.instr nameLine (.pushStr name))).instr bodyLine .pushUndef
    let t := t.op bodyLine .loop
    let breakHole := t.emitter.cursor
    let t := (t.placeholder bodyLine).write bodyLine (Varint.encode 0)
    let t := t.instrs bodyLine [.forInNext, .dup]
    let stopHole := t.emitter.cursor + 1
    let t := (ofLoopBody body (t.jump bodyLine .jmpFalse)).instrs endLine [.drop, .continue]
    let t := (t.patch stopHole t.emitter.cursor t.here).1.instr endLine .break
    (t.patch breakHole t.emitter.cursor t.here).1.instrs endLine
      [.drop, .drop, .drop, .drop, .pushUndef, .delScope]).since t

/-- The code of one variable of a declaration. -/
def ofDeclarator (d : Declarator) (t : Ledger) : Ledger :=
  (match d with
  | .plain name line endLine => (declare name line t).instr endLine .pushUndef
  | .init name line valueLine value endLine =>
    (ofExpr value (reference name valueLine (declare name line t))).instr endLine (.expr .assign)).since t

/-- The code of further variables. -/
def ofDeclarators (ds : Declarators) (t : Ledger) : Ledger :=
  (match ds with
  | .nil => t
  | .cons commaLine d rest => ofDeclarators rest (ofDeclarator d (t.instr commaLine .drop))).since t

/-- The code of further expressions. -/
def ofCommas (cs : Commas) (t : Ledger) : Ledger :=
  (match cs with
  | .nil => t
  | .cons commaLine next rest => ofCommas rest (ofExpr next (t.instr commaLine .drop))).since t

/-- The code of statements up to an end. -/
def ofBody (b : Body) (t : Ledger) : Ledger :=
  (match b with
  | .none line => t.instr line .pushUndef
  | .some first rest => ofStmts rest (ofStmt first t)).since t

/-- The code of further statements. -/
def ofStmts (ss : Stmts) (t : Ledger) : Ledger :=
  (match ss with
  | .nil => t
  | .cons line next rest => ofStmts rest (ofStmt next (t.instr line .drop))).since t

/-- The code of the body of a loop. -/
def ofLoopBody (b : LoopBody) (t : Ledger) : Ledger :=
  (match b with
  | .braces body => ofBody body t
  | .single s => ofStmt s t).since t

/-- The code that starts a counting loop. -/
def ofForStart (f : ForStart) (t : Ledger) : Ledger :=
  (match f with
  | .none line => t.instr line .pushUndef
  | .declare first rest => ofDeclarators rest (ofDeclarator first t)
  | .expr start => ofExpr start t).since t

/-- The code of a clause, with an instruction in place of an absent one. -/
def ofClause (c : Clause) (absent : Instr) (t : Ledger) : Ledger :=
  (match c with
  | .none line => t.instr line absent
  | .expr clause => ofExpr clause t).since t

end

/-- The code of a program. -/
def ofScript (s : Source.Script) (width : Nat) : Ledger :=
  (ofBody s.body (.empty width)).instr s.endLine .exit

end Ledger

end ScriptEngine.Code
