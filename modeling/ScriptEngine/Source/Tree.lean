import ScriptEngine.Code.Op
import ScriptEngine.Number.Basic
/-!
Syntax trees.

A tree carries the lines of the code that is made from it. The code of a construct takes the line of
the token that the reader had come to when the construct's own instruction was due; where that is not
the construct's first token, the field says so.

A variable or a member access is a reference. `fetch` is the line of the instruction that reads its
value, and `none` where an assignment or an update needs the reference itself.
-/

namespace ScriptEngine.Source

open Code (Operator)

/-- Constants and the receiver. -/
inductive Literal where
  | this
  | true
  | false
  | null
  | undefined
  | number (n : Number)
  | string (bytes : List UInt8)
  deriving DecidableEq

/-- The names of identifiers and members are ASCII and kept as bytes. -/
abbrev Name := List UInt8

mutual

/-- Expressions. -/
inductive Expr where
  | literal (l : Literal) (line : Nat)
  | variable (name : Name) (line : Nat) (fetch : Option Nat)
  | paren (e : Expr)
  | member (object : Expr) (name : Name) (line : Nat) (fetch : Option Nat)
  /-- `line` is that of the closing bracket. -/
  | index (object key : Expr) (line : Nat) (fetch : Option Nat)
  /-- `line` is that of the token behind the opening parenthesis, `closeLine` that of the closing
  one. -/
  | call (callee : Expr) (line : Nat) (args : Exprs) (closeLine : Nat)
  /-- An update or a unary operator. `line` is that of the token behind the expression. -/
  | unary (op : Operator) (e : Expr) (line : Nat)
  /-- `line` is that of the token behind the right operand. -/
  | binary (op : Operator) (left right : Expr) (line : Nat)
  /-- Short-circuit "and" and "or"; `line` is that of the token behind the operator. -/
  | both (left right : Expr) (line : Nat)
  | either (left right : Expr) (line : Nat)
  /-- `line` is that of the token behind the question mark, `colonLine` that of the colon. -/
  | conditional (test yes no : Expr) (line colonLine : Nat)
  /-- `line` is that of the token behind the value. -/
  | assign (op : Operator) (target value : Expr) (line : Nat)
  /-- `line` is that of the opening parenthesis, `paramsLine` that of the token behind it, `endLine`
  that of the token behind the body. -/
  | function (name : Option Name) (line : Nat) (paramsLine : Nat) (params : List (Name × Nat))
      (body : Body) (endLine : Nat)
  /-- `line` is that of the token behind the opening brace. -/
  | object (line : Nat) (entries : Entries)
  /-- `line` is that of the token behind the opening bracket. -/
  | array (line : Nat) (elements : Elements)

/-- The arguments of a call. -/
inductive Exprs where
  | nil
  | cons (e : Expr) (rest : Exprs)

/-- The entries of an object; the second line is that of the token behind the value. -/
inductive Entries where
  | nil
  | cons (key : List UInt8) (keyLine : Nat) (value : Expr) (line : Nat) (rest : Entries)

/-- The elements of an array; the second line is that of the token behind the element. -/
inductive Elements where
  | nil
  | cons (startLine : Nat) (e : Expr) (line : Nat) (rest : Elements)

/-- Statements. Unless a field says otherwise, `line` is that of the first token and `endLine` that of
the token behind the statement. -/
inductive Stmt where
  | empty (line : Nat)
  | declare (first : Declarator) (rest : Declarators)
  /-- `line` is that of the token behind the opening brace. -/
  | block (line : Nat) (body : Body) (endLine : Nat)
  /-- `endLine` is that of the token behind the word. -/
  | returnNone (endLine : Nat)
  | returnValue (e : Expr) (endLine : Nat)
  | break (line : Nat)
  | continue (line : Nat)
  | exprs (first : Expr) (rest : Commas)
  /-- `line` is that of the closing parenthesis. -/
  | ifThen (test : Expr) (line : Nat) (yes : Stmt)
  /-- `elseLine` is that of the token behind the word. -/
  | ifElse (test : Expr) (line : Nat) (yes : Stmt) (elseLine : Nat) (no : Stmt)
  /-- `line` is that of the token behind the opening parenthesis, `bodyLine` that of the token behind
  the closing one. -/
  | while (line : Nat) (test : Expr) (bodyLine : Nat) (body : LoopBody) (endLine : Nat)
  /-- `testLine` is that of the token behind the first semicolon. -/
  | for (line : Nat) (start : ForStart) (testLine : Nat) (test step : Clause) (bodyLine : Nat)
      (body : LoopBody) (endLine : Nat)
  | forIn (line : Nat) (declared : Bool) (name : Name) (nameLine : Nat) (object : Expr)
      (bodyLine : Nat) (body : LoopBody) (endLine : Nat)

/-- One variable of a declaration. -/
inductive Declarator where
  /-- `endLine` is that of the token behind the name. -/
  | plain (name : Name) (line endLine : Nat)
  /-- `valueLine` is that of the first token of the value, `endLine` that of the token behind it. -/
  | init (name : Name) (line valueLine : Nat) (value : Expr) (endLine : Nat)

/-- Further variables of a declaration, each with the line of the comma before it. -/
inductive Declarators where
  | nil
  | cons (commaLine : Nat) (d : Declarator) (rest : Declarators)

/-- Further expressions of a statement, each with the line of the comma before it. -/
inductive Commas where
  | nil
  | cons (commaLine : Nat) (e : Expr) (rest : Commas)

/-- Statements up to an end; `line` is that of the end. -/
inductive Body where
  | none (line : Nat)
  | some (first : Stmt) (rest : Stmts)

/-- Further statements of a body, each with the line of its first token. -/
inductive Stmts where
  | nil
  | cons (line : Nat) (s : Stmt) (rest : Stmts)

/-- The body of a loop, which shares the scope of the loop. -/
inductive LoopBody where
  | braces (body : Body)
  | single (s : Stmt)

/-- What a counting loop starts with. -/
inductive ForStart where
  | none (line : Nat)
  | declare (first : Declarator) (rest : Declarators)
  | expr (e : Expr)

/-- A clause of a counting loop; `line` is that of the token in place of an absent one. -/
inductive Clause where
  | none (line : Nat)
  | expr (e : Expr)

end

/-- A program; `endLine` is that of the end of the input. -/
structure Script where
  body : Body
  endLine : Nat

end ScriptEngine.Source
