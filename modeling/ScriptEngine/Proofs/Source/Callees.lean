import ScriptEngine.Proofs.Source.Targets
/-!
What calls are made on.

A source should call variables and members only (`Callees.script`). What a call is made on is told from the instruction
before it, so that a call on anything else has no receiver, unless the last part of its callee is a member
(`Expr.lastPart`).
-/

namespace ScriptEngine.Source

/-- A variable or a member, in parentheses or not. -/
def Expr.isNamed : Expr → Bool
  | .paren inner => inner.isNamed
  | e => e.isReference

/-- A member, in parentheses or not. -/
def Expr.isMember : Expr → Bool
  | .paren inner => inner.isMember
  | .member _ _ _ _ | .index _ _ _ _ => true
  | _ => false

/-- The last part of an expression, in parentheses and behind `&&`, `||`, `?` and `:`. -/
def Expr.lastPart : Expr → Expr
  | .paren inner => inner.lastPart
  | .both _ last _ | .either _ last _ | .conditional _ _ last _ _ => last.lastPart
  | e => e

namespace Callees

mutual

/-- All callees in an expression are variables or members. -/
def expr : Expr → Bool
  | .literal _ _ | .variable _ _ _ => true
  | .paren inner => expr inner
  | .member object _ _ _ => expr object
  | .index object key _ _ => expr object && expr key
  | .call callee _ args _ => callee.isNamed && expr callee && exprs args
  | .unary _ inner _ => expr inner
  | .binary _ left right _ | .both left right _ | .either left right _ => expr left && expr right
  | .conditional test yes no _ _ => expr test && expr yes && expr no
  | .assign _ target value _ => expr target && expr value
  | .function _ _ _ _ code _ => body code
  | .object _ all => entries all
  | .array _ all => elements all

def exprs : Exprs → Bool
  | .nil => true
  | .cons first rest => expr first && exprs rest

def entries : Entries → Bool
  | .nil => true
  | .cons _ _ value _ rest => expr value && entries rest

def elements : Elements → Bool
  | .nil => true
  | .cons _ value _ rest => expr value && elements rest

/-- All callees in a statement are variables or members. -/
def stmt : Stmt → Bool
  | .empty _ | .returnNone _ | .break _ | .continue _ => true
  | .declare first rest => declarator first && declarators rest
  | .block _ code _ => body code
  | .returnValue value _ => expr value
  | .exprs first rest => expr first && commas rest
  | .ifThen test _ yes => expr test && stmt yes
  | .ifElse test _ yes _ no => expr test && stmt yes && stmt no
  | .while _ test _ code _ => expr test && loopBody code
  | .for _ start _ test step _ code _ =>
    forStart start && clause test && clause step && loopBody code
  | .forIn _ _ _ _ object _ code _ => expr object && loopBody code

def declarator : Declarator → Bool
  | .plain _ _ _ => true
  | .init _ _ _ value _ => expr value

def declarators : Declarators → Bool
  | .nil => true
  | .cons _ d rest => declarator d && declarators rest

def commas : Commas → Bool
  | .nil => true
  | .cons _ next rest => expr next && commas rest

def body : Body → Bool
  | .none _ => true
  | .some first rest => stmt first && stmts rest

def stmts : Stmts → Bool
  | .nil => true
  | .cons _ next rest => stmt next && stmts rest

def loopBody : LoopBody → Bool
  | .braces code => body code
  | .single s => stmt s

def forStart : ForStart → Bool
  | .none _ => true
  | .declare first rest => declarator first && declarators rest
  | .expr start => expr start

def clause : Clause → Bool
  | .none _ => true
  | .expr inner => expr inner

end

/-- All callees of a program are variables or members. -/
def script (s : Script) : Bool :=
  body s.body

end Callees

end ScriptEngine.Source
