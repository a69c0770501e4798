import ScriptEngine.Proofs.Machine.Evaluation
/-!
Programs whose calls are made on what their callees say.

A call is made on the object that was looked up last, if that look-up was the very last instruction that ran for the
callee. So a callee is evaluated together with the start of its call, and of several ways through a callee each has a
start of its own: where its last part is evaluated the call starts as it does behind that part, and where a jump passes
over that part the call starts with no object. But for that programs mean what they mean in `Evaluation`.
-/

namespace ScriptEngine

namespace Piece

open Machine

variable {W : Type}

/-- A piece that is passed over if a test says so. What it ends with is done in any case. -/
def guardedUpTo (test : Work W Bool) (a last : Piece W) : Piece W where
  size := a.size + 1
  run s i := s.step i test fun enters => if enters then a.run s (i + 1) else last.run s (i + 1 + a.size - last.size)
  functions i := a.functions (i + 1)

/-- The first piece if a test says so, and else the second. What the second one ends with is done in any case. -/
def choiceUpTo (test : Work W Bool) (yes no last : Piece W) : Piece W where
  size := yes.size + no.size + 2
  run s i := s.step i test fun holds =>
    if holds then fun m budget =>
      ((yes.run s (i + 1) m budget).andThen (s.step (i + 1 + yes.size) (pure ()) fun _ => .through)).andThen
        (last.run s (i + 2 + yes.size + no.size - last.size))
    else no.run s (i + 2 + yes.size)
  functions i := yes.functions (i + 1) ++ no.functions (i + 2 + yes.size)

theorem choiceUpTo_nothing (test : Work W Bool) (yes no : Piece W) :
    choiceUpTo test yes no .nothing = choice test yes no := by
  have hthrough (x : Exit W) : x.andThen .through = x := by cases x <;> rfl
  unfold choiceUpTo choice
  simp only [nothing, hthrough]

end Piece

namespace Receiving

open Machine Source Evaluation
open Code (Op Operator)

variable {W : Type}

/-- Notes a call on nothing, if what is on top is called. -/
def opening : Bool → Piece W
  | true => .line [beginArgs .nop]
  | false => .nothing

/-- Notes a call behind a piece that ends with an instruction, if what it puts on top is called. -/
def noted (last : Op) (a : Piece W) : Bool → Piece W
  | true => a ++ .line [beginArgs last]
  | false => a

/-- The instruction that a reference ends with, by the one in front of the read. -/
def lastOf (previous : Op) : Option Nat → Op
  | some _ => .get
  | none => previous

mutual

/-- An expression puts its value on the stack, or the name and the object of a reference that is not read. Where the
value is called, the call is noted as well. -/
def expr (env : Embedding W) : Expr → Bool → Piece W
  | .literal l _, called => noted .nop (.line [pushLiteral l]) called
  | .variable name _ read, called =>
    noted (lastOf .findScope read) (.line ([pushText name, findVariable] ++ fetch env .findScope read)) called
  | .paren inner, called => expr env inner called
  | .member object name _ read, called =>
    noted (lastOf .swap read) (expr env object false ++ .line ([pushText name, swapTop] ++ fetch env .swap read)) called
  | .index object key _ read, called =>
    noted (lastOf .swap read) (expr env object false ++ expr env key false ++ .line (swapTop :: fetch env .swap read))
      called
  | .call callee _ args _, called => noted .nop (expr env callee true ++ exprs env args ++ .call env) called
  | .unary op inner _, called => noted .nop (expr env inner false ++ .line [operate env op]) called
  | .binary op left right _, called =>
    noted .nop (expr env left false ++ expr env right false ++ .line [operate env op]) called
  | .both left right _, called =>
    expr env left false ++ .guardedUpTo (topIs true) (.line [drop] ++ expr env right called) (opening called)
  | .either left right _, called =>
    expr env left false ++ .guardedUpTo (topIs false) (.line [drop] ++ expr env right called) (opening called)
  | .conditional test yes no _ _, called =>
    expr env test false ++ .choiceUpTo condition (expr env yes false) (.line [drop] ++ expr env no called)
      (opening called)
  | .assign op target value _, called =>
    noted .nop (expr env target false ++ expr env value false ++ .line [operate env op]) called
  | .function name _ _ params code _, called =>
    noted .nop (named env name (.function (.line (openScope :: parameters env params 0) ++ body env code ++ .return)))
      called
  | .object _ all, called => noted .nop (.line [do push (← alloc Heap.newObject)] ++ entries env all) called
  | .array _ all, called => noted .nop (.line [do push (← alloc fun h => h.newArray [])] ++ elements env all) called

/-- Arguments, one value each. -/
def exprs (env : Embedding W) : Exprs → Piece W
  | .nil => .nothing
  | .cons first rest => expr env first false ++ exprs env rest

/-- Entries are added to the object on top. -/
def entries (env : Embedding W) : Entries → Piece W
  | .nil => .nothing
  | .cons key _ value _ rest =>
    .line [duplicate, pushText key, swapTop] ++ expr env value false ++ .line [operate env .assign, drop]
      ++ entries env rest

/-- Elements are added to the array on top. -/
def elements (env : Embedding W) : Elements → Piece W
  | .nil => .nothing
  | .cons _ value _ rest => .line [duplicate] ++ expr env value false ++ .line [append] ++ elements env rest

/-- A statement puts its value on the stack. -/
def stmt (env : Embedding W) : Stmt → Piece W
  | .empty _ => .line [push .undefined]
  | .declare first rest => declarator env first ++ declarators env rest
  | .block _ code _ => .line [openScope] ++ body env code ++ .line [closeScope]
  | .returnNone _ => .line [push .undefined, takeResult] ++ .return
  | .returnValue value _ => expr env value false ++ (.line [takeResult] ++ .return)
  | .break _ => .line [push .undefined] ++ .break
  | .continue _ => .continue
  | .exprs first rest => expr env first false ++ commas env rest
  | .ifThen test _ yes => expr env test false ++ .guarded condition (stmt env yes)
  | .ifElse test _ yes _ no => expr env test false ++ .choice condition (stmt env yes) (.line [drop] ++ stmt env no)
  | .while _ test _ code _ =>
    .line [openScope] ++ .loop (round (expr env test false) (loopBody env code)) ++ .line [closeScope]
  | .for _ start _ test step _ code _ =>
    .line [openScope]
      ++ .countingLoop (forStart env start ++ .line [drop]) (clause env step (push .undefined) ++ .line [drop])
        (round (clause env test (push (.boolean true))) (loopBody env code))
      ++ .line [closeScope]
  | .forIn _ isDeclared name _ object _ code _ =>
    .line [openScope] ++ (if isDeclared then declared name else .nothing)
      ++ (.line [pushText name] ++ expr env object false)
      ++ (.line [push .undefined] ++ .loop (round (.line [walk env, duplicate]) (loopBody env code)))
      ++ .line [drop, drop, drop, drop, push .undefined, closeScope]

/-- One variable of a declaration. -/
def declarator (env : Embedding W) : Declarator → Piece W
  | .plain name _ _ => declared name ++ .line [push .undefined]
  | .init name _ _ value _ => declared name ++ reference name ++ expr env value false ++ .line [operate env .assign]

/-- Further variables. -/
def declarators (env : Embedding W) : Declarators → Piece W
  | .nil => .nothing
  | .cons _ d rest => .line [drop] ++ declarator env d ++ declarators env rest

/-- Further expressions, the last of which is the value. -/
def commas (env : Embedding W) : Commas → Piece W
  | .nil => .nothing
  | .cons _ next rest => .line [drop] ++ expr env next false ++ commas env rest

/-- Statements up to an end, the last of which is the value. -/
def body (env : Embedding W) : Body → Piece W
  | .none _ => .line [push .undefined]
  | .some first rest => stmt env first ++ stmts env rest

/-- Further statements. -/
def stmts (env : Embedding W) : Stmts → Piece W
  | .nil => .nothing
  | .cons _ next rest => .line [drop] ++ stmt env next ++ stmts env rest

/-- The body of a loop. -/
def loopBody (env : Embedding W) : LoopBody → Piece W
  | .braces code => body env code
  | .single s => stmt env s

/-- What a counting loop starts with. -/
def forStart (env : Embedding W) : ForStart → Piece W
  | .none _ => .line [push .undefined]
  | .declare first rest => declarator env first ++ declarators env rest
  | .expr start => expr env start false

/-- A clause, or what stands for an absent one. -/
def clause (env : Embedding W) (c : Clause) (absent : Work W Unit) : Piece W :=
  match c with
  | .none _ => .line [absent]
  | .expr inner => expr env inner false

end

/-- What a member is evaluated to in front of its look-up: its object on top of its name. -/
def front (env : Embedding W) : Expr → Option (Piece W)
  | .paren inner => front env inner
  | .member object name _ (some _) => some (expr env object false ++ .line [pushText name, swapTop])
  | .index object key _ (some _) => some (expr env object false ++ expr env key false ++ .line [swapTop])
  | _ => none

/-- A program. -/
def script (env : Embedding W) (s : Script) : Piece W :=
  body env s.body ++ .exit

/-- Evaluates a program whose instructions have some offsets. It starts with a step for nothing. -/
def evaluate (env : Embedding W) (offset : Nat → Nat) (s : Script) (m : Machine W) (budget : Nat) : Outcome W Value :=
  let setting : Setting W := ⟨offset, calls env offset ((script env s).functions 0) budget⟩
  (setting.step 0 (pure ()) (fun _ => (script env s).run setting 0) m budget).outcome

end Receiving

end ScriptEngine
