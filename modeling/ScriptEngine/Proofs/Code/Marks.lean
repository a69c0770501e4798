import ScriptEngine.Proofs.Code.Lines
import ScriptEngine.Source.Tree
/-!
The lines that the instructions of a syntax tree are written for.

`Marks` follows the trees in the order in which their code is written: the test of a counting loop comes
before its step, which is then written in front of the test. The line that an instruction is written for is
the line of the token that the reader had come to, and `Marks.tokens` lists these lines in the order of the code.
`Marks.placed` lists the lines that the table gives. An instruction that is written at the end gets the line of
its token. One that is written in front of others gets the line of the instruction before it when the one
behind it is on the line of its token already, so the table is right just for marks that are `Clear`
(`Marks.placed_eq_tokens_iff`): no instruction of a step belongs to the line that the test starts on, unless
what stands before it is on that line as well.
-/

namespace ScriptEngine.Code

open LineLog Source

/-- The lines of instructions in the order in which they are written. -/
inductive Marks where
  | nil
  | line (l : Nat) (rest : Marks)
  /-- A test, and a step that is written in front of it. -/
  | round (test step rest : Marks)

namespace Marks

/-- The mark of one instruction. -/
def mark (l : Nat) : Marks :=
  line l nil

/-- One piece behind the other. -/
def append : Marks → Marks → Marks
  | nil, other => other
  | line l rest, other => line l (rest.append other)
  | round test step rest, other => round test step (rest.append other)

instance : Append Marks := ⟨append⟩

@[simp] theorem nil_append (m : Marks) : nil ++ m = m := rfl

@[simp] theorem line_append (l : Nat) (rest m : Marks) : line l rest ++ m = line l (rest ++ m) := rfl

@[simp] theorem round_append (test step rest m : Marks) :
    round test step rest ++ m = round test step (rest ++ m) := rfl

/-- The lines of the tokens, in the order of the code. -/
def tokens : Marks → List Nat
  | nil => []
  | line l rest => l :: rest.tokens
  | round test step rest => step.tokens ++ (test.tokens ++ rest.tokens)

/-- The lines that the table gives, in the order of the code, where the byte before the cursor and the byte
behind it are on lines that are known. -/
def placed : Marks → Option Nat → Option Nat → List Nat
  | nil, _, _ => []
  | line l rest, before, behind =>
    placedLine before behind l :: rest.placed (some (placedLine before behind l)) behind
  | round test step rest, before, behind =>
    let tests := test.placed before behind
    let steps := step.placed before (tests.head?.or behind)
    steps ++ (tests ++ rest.placed (tests.getLast?.or (steps.getLast?.or before)) behind)

/-- No instruction is on the line behind it, unless the one before it is on that line as well. -/
def Clear : Marks → Option Nat → Option Nat → Prop
  | nil, _, _ => True
  | line l rest, before, behind => (behind = some l → before.getD l = l) ∧ rest.Clear (some l) behind
  | round test step rest, before, behind =>
    test.Clear before behind ∧ step.Clear before (test.tokens.head?.or behind)
      ∧ rest.Clear (test.tokens.getLast?.or (step.tokens.getLast?.or before)) behind

instance decidableClear : (m : Marks) → (before behind : Option Nat) → Decidable (m.Clear before behind)
  | nil, _, _ => .isTrue trivial
  | line l rest, before, behind =>
    have := decidableClear rest (some l) behind
    inferInstanceAs (Decidable ((behind = some l → before.getD l = l) ∧ rest.Clear (some l) behind))
  | round test step rest, before, behind =>
    have := decidableClear test before behind
    have := decidableClear step before (test.tokens.head?.or behind)
    have := decidableClear rest (test.tokens.getLast?.or (step.tokens.getLast?.or before)) behind
    inferInstanceAs (Decidable (test.Clear before behind ∧ step.Clear before (test.tokens.head?.or behind)
      ∧ rest.Clear (test.tokens.getLast?.or (step.tokens.getLast?.or before)) behind))

theorem placedLine_eq_iff (before behind : Option Nat) (l : Nat) :
    placedLine before behind l = l ↔ (behind = some l → before.getD l = l) := by
  unfold placedLine
  by_cases h : behind = some l <;> simp [h]

theorem length_placed (m : Marks) (before behind : Option Nat) :
    (m.placed before behind).length = m.tokens.length := by
  induction m generalizing before behind with
  | nil => rfl
  | line l rest ih => simp [placed, tokens, ih]
  | round test step rest ihTest ihStep ihRest => simp [placed, tokens, ihTest, ihStep, ihRest]

/-- What is put behind marks finds the last of their lines before it. -/
theorem placed_append (m m' : Marks) (before behind : Option Nat) :
    (m ++ m').placed before behind
      = m.placed before behind ++ m'.placed ((m.placed before behind).getLast?.or before) behind := by
  induction m generalizing before with
  | nil => rfl
  | line l rest ih =>
    rw [line_append, placed, ih, placed, List.cons_append]
    cases hlast : (rest.placed (some (placedLine before behind l)) behind).getLast? with
    | none => simp [List.getLast?_cons, hlast]
    | some last => simp [List.getLast?_cons, hlast]
  | round test step rest _ _ ih =>
    rw [round_append, placed, placed]
    simp only [ih, List.append_assoc, List.getLast?_append, Option.or_assoc]

/-- The table gives the lines of the tokens just when the marks are clear. -/
theorem placed_eq_tokens_iff (m : Marks) (before behind : Option Nat) :
    m.placed before behind = m.tokens ↔ m.Clear before behind := by
  induction m generalizing before behind with
  | nil => exact iff_of_true rfl trivial
  | line l rest ih =>
    rw [placed, tokens, Clear, List.cons.injEq, placedLine_eq_iff]
    refine and_congr_right fun hline => ?_
    rw [(placedLine_eq_iff before behind l).mpr hline, ih]
  | round test step rest ihTest ihStep ihRest =>
    -- the three pieces have as many lines as tokens, so they can be compared one by one
    have hsplit {a b c a' b' c' : List Nat} (ha : a.length = a'.length) (hb : b.length = b'.length) :
        a ++ (b ++ c) = a' ++ (b' ++ c') ↔ b = b' ∧ a = a' ∧ c = c' := by
      constructor
      · intro h
        obtain ⟨h₁, h₂⟩ := List.append_inj h ha
        obtain ⟨h₂, h₃⟩ := List.append_inj h₂ hb
        exact ⟨h₂, h₁, h₃⟩
      · rintro ⟨rfl, rfl, rfl⟩
        rfl
    rw [placed, tokens, Clear, hsplit (length_placed _ _ _) (length_placed _ _ _), ihTest]
    refine and_congr_right fun htest => ?_
    rw [(ihTest before behind).mpr htest, ihStep]
    refine and_congr_right fun hstep => ?_
    rw [(ihStep _ _).mpr hstep, ihRest]

/-! ## Pieces of code -/

/-- A jump over a piece. -/
def guarded (l : Nat) (piece : Marks) : Marks :=
  line l piece

/-- One of two pieces. -/
def choice (l elseLine : Nat) (yes no : Marks) : Marks :=
  line l (yes ++ line elseLine no)

/-- A function, out of the way of what is around it. -/
def function (l endLine : Nat) (code : Marks) : Marks :=
  line l (code ++ mark endLine)

/-- A loop with a test in front of its body. -/
def loop (l bodyLine endLine : Nat) (test body : Marks) : Marks :=
  line l (test ++ line bodyLine (body ++ mark endLine))

/-- A loop with a start, and with a step in front of its test. -/
def countingLoop (l testLine bodyLine endLine : Nat) (start test step body : Marks) : Marks :=
  line l (start ++ line testLine (round test step (line bodyLine (body ++ mark endLine))))

/-- A reference is read, or not. -/
def fetch : Option Nat → Marks
  | some l => mark l
  | none => nil

/-- A variable is declared. -/
def declare (l : Nat) : Marks :=
  mark l ++ mark l ++ mark l

/-- A reference to a variable. -/
def reference (l : Nat) : Marks :=
  mark l ++ mark l

/-- The parameters of a function are bound. -/
def setArgs : List (Name × Nat) → Marks
  | [] => nil
  | (_, l) :: rest => mark l ++ setArgs rest

/-- A function with a name is a variable as well. -/
def named (name : Option Name) (l endLine : Nat) (value : Marks) : Marks :=
  match name with
  | some _ => declare l ++ reference l ++ value ++ mark endLine
  | none => value

/-! ## Trees -/

mutual

/-- The marks of an expression. -/
def expr : Expr → Marks
  | .literal _ l => mark l
  | .variable _ l get => reference l ++ fetch get
  | .paren inner => expr inner
  | .member object _ l get => expr object ++ (mark l ++ mark l) ++ fetch get
  | .index object key l get => expr object ++ expr key ++ mark l ++ fetch get
  | .call callee l args closeLine => expr callee ++ mark l ++ exprs args ++ mark closeLine
  | .unary _ inner l => expr inner ++ mark l
  | .binary _ left right l => expr left ++ expr right ++ mark l
  | .both left right l | .either left right l => expr left ++ guarded l (mark l ++ expr right)
  | .conditional test yes no l colonLine =>
    expr test ++ choice l colonLine (expr yes) (mark colonLine ++ expr no)
  | .assign _ target value l => expr target ++ expr value ++ mark l
  | .function name l paramsLine params code endLine =>
    named name l endLine (function l endLine (mark paramsLine ++ setArgs params ++ body code ++ mark endLine))
  | .object l all => mark l ++ entries all
  | .array l all => mark l ++ elements all

/-- The marks of arguments. -/
def exprs : Exprs → Marks
  | .nil => nil
  | .cons first rest => expr first ++ exprs rest

/-- The marks of the entries of an object. -/
def entries : Entries → Marks
  | .nil => nil
  | .cons _ keyLine value l rest =>
    mark keyLine ++ mark keyLine ++ mark keyLine ++ expr value ++ (mark l ++ mark l) ++ entries rest

/-- The marks of the elements of an array. -/
def elements : Elements → Marks
  | .nil => nil
  | .cons startLine value l rest => mark startLine ++ expr value ++ mark l ++ elements rest

/-- The marks of a statement. -/
def stmt : Stmt → Marks
  | .empty l => mark l
  | .declare first rest => declarator first ++ declarators rest
  | .block l code endLine => mark l ++ body code ++ mark endLine
  | .returnNone endLine => mark endLine ++ mark endLine ++ mark endLine
  | .returnValue value endLine => expr value ++ (mark endLine ++ mark endLine)
  | .break l => mark l ++ mark l
  | .continue l => mark l
  | .exprs first rest => expr first ++ commas rest
  | .ifThen test l yes => expr test ++ guarded l (stmt yes)
  | .ifElse test l yes elseLine no =>
    expr test ++ choice l elseLine (stmt yes) (mark elseLine ++ stmt no)
  | .while l test bodyLine code endLine =>
    mark l ++ loop l bodyLine endLine (expr test) (loopBody code ++ (mark endLine ++ mark endLine))
      ++ mark endLine
  | .for l start testLine test step bodyLine code endLine =>
    mark l ++ countingLoop l testLine bodyLine endLine (forStart start ++ mark testLine) (clause test)
        (clause step ++ mark bodyLine) (loopBody code ++ (mark endLine ++ mark endLine))
      ++ mark endLine
  | .forIn l declared _ nameLine object bodyLine code endLine =>
    mark l ++ (if declared then declare nameLine else nil) ++ (mark nameLine ++ expr object)
      ++ (mark bodyLine ++ loop bodyLine bodyLine endLine (mark bodyLine ++ mark bodyLine)
        (loopBody code ++ (mark endLine ++ mark endLine)))
      ++ (mark endLine ++ mark endLine ++ mark endLine ++ mark endLine ++ mark endLine ++ mark endLine)

/-- The marks of one variable of a declaration. -/
def declarator : Declarator → Marks
  | .plain _ l endLine => declare l ++ mark endLine
  | .init _ l valueLine value endLine => declare l ++ reference valueLine ++ expr value ++ mark endLine

/-- The marks of further variables. -/
def declarators : Declarators → Marks
  | .nil => nil
  | .cons commaLine d rest => mark commaLine ++ declarator d ++ declarators rest

/-- The marks of further expressions. -/
def commas : Commas → Marks
  | .nil => nil
  | .cons commaLine next rest => mark commaLine ++ expr next ++ commas rest

/-- The marks of statements up to an end. -/
def body : Body → Marks
  | .none l => mark l
  | .some first rest => stmt first ++ stmts rest

/-- The marks of further statements. -/
def stmts : Stmts → Marks
  | .nil => nil
  | .cons l next rest => mark l ++ stmt next ++ stmts rest

/-- The marks of the body of a loop. -/
def loopBody : LoopBody → Marks
  | .braces code => body code
  | .single s => stmt s

/-- The marks of what starts a counting loop. -/
def forStart : ForStart → Marks
  | .none l => mark l
  | .declare first rest => declarator first ++ declarators rest
  | .expr start => expr start

/-- The marks of a clause. -/
def clause : Clause → Marks
  | .none l => mark l
  | .expr inner => expr inner

end

/-- The marks of a program. -/
def script (s : Source.Script) : Marks :=
  body s.body ++ mark s.endLine

end Marks

end ScriptEngine.Code
