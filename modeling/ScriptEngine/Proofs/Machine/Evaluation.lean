import ScriptEngine.Code.Compile
import ScriptEngine.Machine.Run
/-!
What programs mean.

A program is evaluated along its tree, on the machine itself: a piece of a program does its work by the machine's
own operations, and the tree alone says which piece comes next. There are no jumps and no targets: a piece is left
at its end, out of a loop, to the next round of a loop, out of a call, or with the whole run (`Exit`), and what is
around it sees to that.

Instructions appear by number only. An evaluation takes a step for each of them, between which the machine may
collect or be asked to stop, and the machine knows failures, calls and functions by the offsets of instructions
(`Setting`).
-/

namespace ScriptEngine

/-- How a piece of a program is left, and with how much of the budget. -/
inductive Exit (W : Type) where
  /-- At its end. -/
  | through (m : Machine W) (budget : Nat)
  /-- Out of the innermost loop. -/
  | broken (m : Machine W) (budget : Nat)
  /-- To the next round of the innermost loop. -/
  | continued (m : Machine W) (budget : Nat)
  /-- Out of the call that is running. -/
  | returned (m : Machine W) (budget : Nat)
  /-- With the run. -/
  | ended (o : Outcome W Value)

/-- What a piece of a program does on a machine within a budget. -/
abbrev Doing (W : Type) := Machine W → Nat → Exit W

namespace Exit

variable {W : Type}

/-- Goes on from the end of a piece. -/
def andThen (x : Exit W) (next : Doing W) : Exit W :=
  match x with
  | through m budget => next m budget
  | broken m budget => broken m budget
  | continued m budget => continued m budget
  | returned m budget => returned m budget
  | ended o => ended o

/-- A call that is left goes on behind it. -/
def caught (x : Exit W) : Exit W :=
  match x with
  | returned m budget => through m budget
  | through m budget => through m budget
  | broken m budget => broken m budget
  | continued m budget => continued m budget
  | ended o => ended o

/-- What a function outside of the code answered goes to a slot; a failure is that of the call at an offset. -/
def answered (offset slot budget : Nat) : Outcome W Value → Exit W
  | .done m (.ok v) => through (m.leaveHost.putResult slot v) budget
  | .done m (.error e) => ended (.done (m.leaveHost.noteFailure offset e) (.error e))
  | .outOfBudget => ended .outOfBudget
  | .needsFile path => ended (.needsFile path)

/-- The rounds of a loop, from what came of one of them: a loop that is left goes on behind it, and a round that is
over is followed by the next. -/
def turns (again : Doing W) : Nat → Exit W → Exit W
  | 0, continued _ _ => ended .outOfBudget
  | rounds + 1, continued m budget => turns again rounds (again m budget)
  | _, broken m budget => through m budget
  | _, through m budget => through m budget
  | _, returned m budget => returned m budget
  | _, ended o => ended o

/-- What came of a run. A program ends with its run. -/
def outcome : Exit W → Outcome W Value
  | ended o => o
  | _ => .outOfBudget

end Exit

/-- Where a program is evaluated. -/
structure Setting (W : Type) where
  /-- The offset of an instruction. -/
  offset : Nat → Nat
  /-- What the code at the second offset does for the call at the first. -/
  call : Nat → Nat → Doing W

/-- One step: the machine may collect and may be asked to stop, and then does some work. -/
def Setting.step {W α : Type} (s : Setting W) (i : Nat) (work : Machine.Work W α) (next : α → Doing W) : Doing W
  | _, 0 => .ended .outOfBudget
  | m, budget + 1 =>
    if m.interrupted then .ended (.done m (.error .exit))
    else
      match work m.collectIfNeeded with
      | .error e n => .ended (.done (n.noteFailure (s.offset i) e) (.error e))
      | .ok a n => next a n budget

/-- A piece of a program. -/
structure Piece (W : Type) where
  /-- The number of its instructions. -/
  size : Nat
  /-- What it does, by the number of its first instruction. -/
  run : Setting W → Nat → Doing W
  /-- The functions in it, each with the number of its first instruction. -/
  functions : Nat → List (Nat × (Setting W → Doing W))

namespace Piece

open Machine

variable {W : Type}

/-- Nothing. -/
def nothing : Piece W where
  size := 0
  run _ _ := .through
  functions _ := []

/-- One piece behind the other. -/
def seq (a b : Piece W) : Piece W where
  size := a.size + b.size
  run s i m budget := (a.run s i m budget).andThen (b.run s (i + a.size))
  functions i := a.functions i ++ b.functions (i + a.size)

instance : Append (Piece W) := ⟨seq⟩

/-- A single operation. -/
def single (work : Work W Unit) : Piece W where
  size := 1
  run s i := s.step i work fun _ => .through
  functions _ := []

/-- Operations one after the other. -/
def line : List (Work W Unit) → Piece W
  | [] => nothing
  | work :: works => single work ++ line works

/-- A piece that is passed over if a test says so. -/
def guarded (test : Work W Bool) (a : Piece W) : Piece W where
  size := a.size + 1
  run s i := s.step i test fun enters => if enters then a.run s (i + 1) else .through
  functions i := a.functions (i + 1)

/-- The first piece if a test says so, and else the second. Behind the first one is a step for nothing. -/
def choice (test : Work W Bool) (yes no : Piece W) : Piece W where
  size := yes.size + no.size + 2
  run s i := s.step i test fun holds =>
    if holds then fun m budget =>
      (yes.run s (i + 1) m budget).andThen (s.step (i + 1 + yes.size) (pure ()) fun _ => .through)
    else no.run s (i + 2 + yes.size)
  functions i := yes.functions (i + 1) ++ no.functions (i + 2 + yes.size)

/-- Leaves the innermost loop. -/
def «break» : Piece W where
  size := 1
  run s i := s.step i breakLoop fun _ => .broken
  functions _ := []

/-- Goes to the next round of the innermost loop. -/
def «continue» : Piece W where
  size := 1
  run s i := s.step i continueLoop fun _ => .continued
  functions _ := []

/-- Leaves the call that is running; an execution ends with its outermost call. -/
def «return» : Piece W where
  size := 1
  run s i := s.step i returnFromCall fun flow =>
    match flow with
    | .finish v => fun m _ => .ended (.done m (.ok v))
    | _ => .returned
  functions _ := []

/-- Ends the run with the value on top. -/
def exit : Piece W where
  size := 1
  run s i := s.step i pop fun v m _ => .ended (.done m (.ok v))
  functions _ := []

/-- Calls what the arguments on the stack are for. -/
def call (env : Embedding W) : Piece W where
  size := 1
  run s i := s.step i (callPending (s.offset i) 0) fun flow =>
    match flow with
    | .jump start => fun m budget => (s.call (s.offset i) start m budget).caught
    | .host callee receiver args slot _ => fun m budget =>
      .answered (s.offset i) slot budget (perform env (callHost env m callee receiver args) budget)
    | _ => .through
  functions _ := []

/-- The value of a function that starts at an offset. -/
def functionAt (start : Nat) : Except Error Value :=
  match Value.ofFunction? (UInt64.ofNat start) with
  | .ok v => .ok v
  | .error e => .error e.toError

/-- A function, which is not run here. -/
def function (code : Piece W) : Piece W where
  size := code.size + 2
  run s i m budget :=
    (s.step i (pure ()) (fun _ => .through) m budget).andThen
      (s.step (i + 1 + code.size) (Machine.ofExcept (functionAt (s.offset (i + 1))) >>= push) fun _ => .through)
  functions i := (i + 1, fun s => code.run s (i + 1)) :: code.functions (i + 1)

/-- A loop of rounds that are alike. -/
def loop (round : Piece W) : Piece W where
  size := round.size + 1
  run s i := s.step i (openLoop (s.offset (i + 1 + round.size)) (s.offset (i + 1))) fun _ m budget =>
    (round.run s (i + 1) m budget).turns (round.run s (i + 1)) budget
  functions i := round.functions (i + 1)

/-- A loop that starts with a piece, and takes a step before every round but the first. -/
def countingLoop (start step round : Piece W) : Piece W where
  size := start.size + step.size + round.size + 2
  run s i :=
    let stepAt := i + 2 + start.size
    let roundAt := stepAt + step.size
    s.step i (openLoop (s.offset (roundAt + round.size)) (s.offset stepAt)) fun _ m budget =>
      let started := (start.run s (i + 1) m budget).andThen (s.step (i + 1 + start.size) (pure ()) fun _ => .through)
      let first := started.andThen (round.run s roundAt)
      first.turns (fun m budget => (step.run s stepAt m budget).andThen (round.run s roundAt)) budget
  functions i := start.functions (i + 1) ++ step.functions (i + 2 + start.size)
    ++ round.functions (i + 2 + start.size + step.size)

end Piece

/-! ## Programs -/

namespace Evaluation

open Machine Source
open Code (Op Operator)

variable {W : Type}

/-! ### Operations -/

/-- Takes the top value off the stack. -/
def drop : Work W Unit := do
  let _ ← pop

/-- Puts the top value on the stack once more. -/
def duplicate : Work W Unit := do
  push (← peek 0)

/-- Puts a text on the stack. -/
def pushText (text : List UInt8) : Work W Unit := do
  push (← allocString text)

/-- Puts the innermost scope with a variable on the stack, on top of its name. -/
def findVariable : Work W Unit := do
  let name ← peek 0
  push (← inspect fun m => m.findScope name)

/-- Declares the variable whose name is on top in the innermost scope. -/
def declareVariable : List (Work W Unit) :=
  [do push (← topScope), do let holder ← pop; let key ← pop; declare holder key]

/-- The value of a number. Whole numbers are kept as integers. -/
def numberValue (n : Number) : Value :=
  match n.nat? with
  | some k => if k < Code.Literal.integerLimit then .ofNat k else .number n
  | none => .number n

/-- Puts a constant, or the receiver, on the stack. -/
def pushLiteral : Literal → Work W Unit
  | .this => do push (← inspect fun m => .ok m.receiver)
  | .true => push (.boolean true)
  | .false => push (.boolean false)
  | .null => push .null
  | .undefined => push .undefined
  | .number n => push (numberValue n)
  | .string bytes => pushText bytes

/-- Reads a reference. `previous` tells variables from members, which are what calls are made on. -/
def fetch (env : Embedding W) (previous : Op) : Option Nat → List (Work W Unit)
  | some _ => [lookUp env previous]
  | none => []

/-- Whether the value on top, which is taken, is true; the value of what is left out is undefined. -/
def condition : Work W Bool := do
  let v ← pop
  let holds ← inspect fun m => .ok (m.heap.truthy v)
  if holds then return true
  else
    push .undefined
    return false

/-- Whether the value on top, which stays, is as true as wanted. -/
def topIs (wanted : Bool) : Work W Bool := do
  let v ← peek 0
  let holds ← inspect fun m => .ok (m.heap.truthy v)
  return holds == wanted

/-- Notes the value on top, which is taken, as the result of the call that is running. -/
def takeResult : Work W Unit := do
  setResult (← pop)

/-! ### Constructs -/

/-- A variable is declared in the innermost scope. -/
def declared (name : Name) : Piece W :=
  .line (pushText name :: declareVariable)

/-- A reference to a variable. -/
def reference (name : Name) : Piece W :=
  .line [pushText name, findVariable]

/-- A function with a name is a variable as well. -/
def named (env : Embedding W) (name : Option Name) (value : Piece W) : Piece W :=
  match name with
  | some name => declared name ++ reference name ++ value ++ .line [operate env .assign]
  | none => value

/-- The parameters of a function are bound, from a position on. -/
def parameters (env : Embedding W) : List (Name × Nat) → Nat → List (Work W Unit)
  | [], _ => []
  | (name, _) :: rest, index => setArgument env index name :: parameters env rest (index + 1)

/-- A round of a loop: its test, and if that holds the body, whose value is dropped. -/
def round (test body : Piece W) : Piece W :=
  test ++ (.guarded condition (body ++ (.line [drop] ++ .continue)) ++ .break)

mutual

/-- An expression puts its value on the stack, or the name and the object of a reference that is not read. -/
def expr (env : Embedding W) : Expr → Piece W
  | .literal l _ => .line [pushLiteral l]
  | .variable name _ read => .line ([pushText name, findVariable] ++ fetch env .findScope read)
  | .paren inner => expr env inner
  | .member object name _ read => expr env object ++ .line ([pushText name, swapTop] ++ fetch env .swap read)
  | .index object key _ read => expr env object ++ expr env key ++ .line (swapTop :: fetch env .swap read)
  | .call callee _ args _ => expr env callee ++ .line [beginArgs .get] ++ exprs env args ++ .call env
  | .unary op inner _ => expr env inner ++ .line [operate env op]
  | .binary op left right _ => expr env left ++ expr env right ++ .line [operate env op]
  | .both left right _ => expr env left ++ .guarded (topIs true) (.line [drop] ++ expr env right)
  | .either left right _ => expr env left ++ .guarded (topIs false) (.line [drop] ++ expr env right)
  | .conditional test yes no _ _ =>
    expr env test ++ .choice condition (expr env yes) (.line [drop] ++ expr env no)
  | .assign op target value _ => expr env target ++ expr env value ++ .line [operate env op]
  | .function name _ _ params code _ =>
    named env name (.function (.line (openScope :: parameters env params 0) ++ body env code ++ .return))
  | .object _ all => .line [do push (← alloc Heap.newObject)] ++ entries env all
  | .array _ all => .line [do push (← alloc fun h => h.newArray [])] ++ elements env all

/-- Arguments, one value each. -/
def exprs (env : Embedding W) : Exprs → Piece W
  | .nil => .nothing
  | .cons first rest => expr env first ++ exprs env rest

/-- Entries are added to the object on top. -/
def entries (env : Embedding W) : Entries → Piece W
  | .nil => .nothing
  | .cons key _ value _ rest =>
    .line [duplicate, pushText key, swapTop] ++ expr env value ++ .line [operate env .assign, drop]
      ++ entries env rest

/-- Elements are added to the array on top. -/
def elements (env : Embedding W) : Elements → Piece W
  | .nil => .nothing
  | .cons _ value _ rest => .line [duplicate] ++ expr env value ++ .line [append] ++ elements env rest

/-- A statement puts its value on the stack. -/
def stmt (env : Embedding W) : Stmt → Piece W
  | .empty _ => .line [push .undefined]
  | .declare first rest => declarator env first ++ declarators env rest
  | .block _ code _ => .line [openScope] ++ body env code ++ .line [closeScope]
  | .returnNone _ => .line [push .undefined, takeResult] ++ .return
  | .returnValue value _ => expr env value ++ (.line [takeResult] ++ .return)
  | .break _ => .line [push .undefined] ++ .break
  | .continue _ => .continue
  | .exprs first rest => expr env first ++ commas env rest
  | .ifThen test _ yes => expr env test ++ .guarded condition (stmt env yes)
  | .ifElse test _ yes _ no => expr env test ++ .choice condition (stmt env yes) (.line [drop] ++ stmt env no)
  | .while _ test _ code _ =>
    .line [openScope] ++ .loop (round (expr env test) (loopBody env code)) ++ .line [closeScope]
  | .for _ start _ test step _ code _ =>
    .line [openScope]
      ++ .countingLoop (forStart env start ++ .line [drop]) (clause env step (push .undefined) ++ .line [drop])
        (round (clause env test (push (.boolean true))) (loopBody env code))
      ++ .line [closeScope]
  | .forIn _ isDeclared name _ object _ code _ =>
    .line [openScope] ++ (if isDeclared then declared name else .nothing) ++ (.line [pushText name] ++ expr env object)
      ++ (.line [push .undefined] ++ .loop (round (.line [walk env, duplicate]) (loopBody env code)))
      ++ .line [drop, drop, drop, drop, push .undefined, closeScope]

/-- One variable of a declaration. -/
def declarator (env : Embedding W) : Declarator → Piece W
  | .plain name _ _ => declared name ++ .line [push .undefined]
  | .init name _ _ value _ => declared name ++ reference name ++ expr env value ++ .line [operate env .assign]

/-- Further variables. -/
def declarators (env : Embedding W) : Declarators → Piece W
  | .nil => .nothing
  | .cons _ d rest => .line [drop] ++ declarator env d ++ declarators env rest

/-- Further expressions, the last of which is the value. -/
def commas (env : Embedding W) : Commas → Piece W
  | .nil => .nothing
  | .cons _ next rest => .line [drop] ++ expr env next ++ commas env rest

/-- Statements up to an end, the last of which is the value. -/
def body (env : Embedding W) : Body → Piece W
  | .none _ => .line [push .undefined]
  | .some first rest => stmt env first ++ stmts env rest

/-- Further statements. -/
def stmts (env : Embedding W) : Stmts → Piece W
  | .nil => .nothing
  | .cons _ next rest => .line [drop] ++ stmt env next ++ stmts env rest

/-- The body of a loop. -/
def loopBody (env : Embedding W) : LoopBody → Piece W
  | .braces code => body env code
  | .single s => stmt env s

/-- What a counting loop starts with. -/
def forStart (env : Embedding W) : ForStart → Piece W
  | .none _ => .line [push .undefined]
  | .declare first rest => declarator env first ++ declarators env rest
  | .expr start => expr env start

/-- A clause, or what stands for an absent one. -/
def clause (env : Embedding W) (c : Clause) (absent : Work W Unit) : Piece W :=
  match c with
  | .none _ => .line [absent]
  | .expr inner => expr env inner

end

/-- A program. -/
def script (env : Embedding W) (s : Script) : Piece W :=
  body env s.body ++ .exit

/-! ### Calls -/

/-- Runs code from a cursor until fewer than some number of calls are left. -/
def untilBack (env : Embedding W) (calls : Nat) : Nat → Machine W → Cursor → Exit W
  | 0, _, _ => .ended .outOfBudget
  | budget + 1, m, c =>
    if m.interrupted then .ended (.done m (.error .exit))
    else
      match advance env c m.collectIfNeeded with
      | .error e n => .ended (.done (n.noteFailure c.offset e) (.error e))
      | .ok (.finish v) n => .ended (.done n (.ok v))
      | .ok (.goOn next) n => if n.frames.size < calls then .returned n budget else untilBack env calls budget n next
      | .ok (.host callee receiver args slot next) n =>
        match Exit.answered c.offset slot budget (perform env (callHost env n callee receiver args) budget) with
        | .through n _ => untilBack env calls budget n next
        | x => x

/-- A call of code that the machine runs by itself. -/
def elsewhere (env : Embedding W) (site start : Nat) : Doing W := fun m budget =>
  match Cursor.load m.program start .call with
  | .error e => .ended (.done (m.noteFailure site e) (.error e))
  | .ok c => untilBack env m.frames.size budget m c

/-- What calls do: those of the functions given are evaluated, and others are left to the machine. `depth` is how
many may be within one another. -/
def calls (env : Embedding W) (offset : Nat → Nat) (functions : List (Nat × (Setting W → Doing W))) :
    Nat → Nat → Nat → Doing W
  | 0, _, _ => fun _ _ => .ended .outOfBudget
  | depth + 1, site, start =>
    match functions.find? fun f => offset f.1 = start with
    | some f => f.2 ⟨offset, calls env offset functions depth⟩
    | none => elsewhere env site start

/-- Evaluates a program whose instructions have some offsets. It starts with a step for nothing, and every call
takes a step. -/
def evaluate (env : Embedding W) (offset : Nat → Nat) (s : Script) (m : Machine W) (budget : Nat) : Outcome W Value :=
  let setting : Setting W := ⟨offset, calls env offset ((script env s).functions 0) budget⟩
  (setting.step 0 (pure ()) (fun _ => (script env s).run setting 0) m budget).outcome

end Evaluation

end ScriptEngine
