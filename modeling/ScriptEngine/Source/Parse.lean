import ScriptEngine.Error
import ScriptEngine.Number.Literal
import ScriptEngine.Source.Escape
import ScriptEngine.Source.Lexer
import ScriptEngine.Source.Tree
/-!
From tokens to syntax trees, by recursive descent.

Two numbers go down with the recursion. `depth` counts the blocks, assignments, binary levels and
unary operators that are open, and a source that opens too many is rejected. `budget` bounds the
nesting of the functions below themselves; the budget `parse` starts with is never used up, because
between two tokens the functions nest no more than a fixed number of times.

Whether a reference is read is decided where it ends, by the token behind it: an assignment or update
operator there wants the reference, and so does a prefix update in front unless an access or a call
goes on.
-/

namespace ScriptEngine.Source

open Code (Operator)

/-- Why a source is rejected. -/
inductive SyntaxError where
  /-- A token that fits nothing. -/
  | unexpected (t : Token)
  /-- A statement that the language leaves out on purpose. -/
  | leftOut (t : Token)
  | tooDeep
  deriving DecidableEq, Repr

/-- How many characters of the source an error quotes. -/
def quotedChars : Nat := 10

/-- The error in words. -/
def SyntaxError.message (source : List Char) : SyntaxError → String
  | unexpected t =>
    "parse error at line " ++ toString t.line ++ ": ["
      ++ String.ofList ((source.drop t.start).take quotedChars) ++ "]"
  | leftOut t => "[" ++ t.word ++ "] is not implemented"
  | tooDeep => "parser stack overflow"

/-- Why parsing stops without a tree. -/
inductive Stop where
  | rejected (e : SyntaxError)
  /-- The budget was too small. -/
  | exhausted
  deriving DecidableEq, Repr

/-- The token at hand and those behind it. At the end of the input it stays at hand. -/
structure Stream where
  current : Token
  rest : List Token

namespace Stream

/-- Goes on to the next token. -/
def advance (s : Stream) : Stream :=
  match s.rest with
  | [] => s
  | t :: rest => ⟨t, rest⟩

def kind (s : Stream) : TokenKind := s.current.kind

def line (s : Stream) : Nat := s.current.line

def at_ (s : Stream) (p : Punct) : Bool := s.current.isPunct p

def atWord (s : Stream) (k : Keyword) : Bool := s.current.isKeyword k

/-- The text of the token at hand as bytes. -/
def bytes (s : Stream) : List UInt8 := Text.bytesOf s.current.word

/-- Rejects the token at hand. -/
def reject {α : Type} (s : Stream) : Except Stop α :=
  .error (.rejected (.unexpected s.current))

/-- Goes on behind a certain punctuator, or rejects what is there. -/
def expect (s : Stream) (p : Punct) : Except Stop Stream :=
  if s.at_ p then .ok s.advance else s.reject

/-- Goes on behind a certain word, or rejects what is there. -/
def expectWord (s : Stream) (k : Keyword) : Except Stop Stream :=
  if s.atWord k then .ok s.advance else s.reject

end Stream

namespace Parse

/-- How many blocks, assignments, binary levels and unary operators may be open at once. -/
def maxDepth : Nat := 512

/-- One level deeper, if that is allowed. -/
def deeper (depth : Nat) : Except Stop Nat :=
  if depth + 1 ≤ maxDepth then .ok (depth + 1) else .error (.rejected .tooDeep)

/-- How many levels of binary operators there are, from the loosest to the tightest. -/
def levels : Nat := 10

/-- A binary operator, with the two that do not always look at their right operand. -/
inductive Binary where
  | plain (op : Operator)
  | both
  | either
  deriving DecidableEq, Repr

/-- The binary operator of a level that a token is. -/
def binary? (level : Nat) (kind : TokenKind) : Option Binary :=
  match level, kind with
  | 0, .punct .orOr => some .either
  | 1, .punct .andAnd => some .both
  | 2, .punct .bar => some (.plain .bitOr)
  | 3, .punct .caret => some (.plain .bitXor)
  | 4, .punct .amp => some (.plain .bitAnd)
  | 5, .punct .eqEq => some (.plain .eq)
  | 5, .punct .notEq => some (.plain .ne)
  | 5, .punct .strictEq => some (.plain .strictEq)
  | 5, .punct .strictNe => some (.plain .strictNe)
  | 6, .punct .lt => some (.plain .lt)
  | 6, .punct .le => some (.plain .le)
  | 6, .punct .gt => some (.plain .gt)
  | 6, .punct .ge => some (.plain .ge)
  | 7, .punct .shl => some (.plain .shl)
  | 7, .punct .shr => some (.plain .shr)
  | 7, .punct .ushr => some (.plain .ushr)
  | 8, .punct .plus => some (.plain .add)
  | 8, .punct .minus => some (.plain .sub)
  | 9, .punct .star => some (.plain .mul)
  | 9, .punct .slash => some (.plain .div)
  | 9, .punct .percent => some (.plain .rem)
  | _, _ => none

/-- The assignment operator that a token is. -/
def assignment? : TokenKind → Option Operator
  | .punct .assign => some .assign
  | .punct .addAssign => some .addAssign
  | .punct .subAssign => some .subAssign
  | .punct .mulAssign => some .mulAssign
  | .punct .divAssign => some .divAssign
  | .punct .remAssign => some .remAssign
  | .punct .shlAssign => some .shlAssign
  | .punct .shrAssign => some .shrAssign
  | .punct .ushrAssign => some .ushrAssign
  | .punct .andAssign => some .bitAndAssign
  | .punct .orAssign => some .bitOrAssign
  | .punct .xorAssign => some .bitXorAssign
  | _ => none

/-- The operator in front of an operand that a token is. -/
def unary? : TokenKind → Option Operator
  | .punct .bang => some .not
  | .punct .tilde => some .bitNot
  | .punct .increment => some .preInc
  | .punct .decrement => some .preDec
  | .keyword .typeof => some .typeOf
  | .punct .minus => some .neg
  | .punct .plus => some .pos
  | _ => none

/-- The operator behind an operand that a token is. -/
def update? : TokenKind → Option Operator
  | .punct .increment => some .postInc
  | .punct .decrement => some .postDec
  | _ => none

/-- Whether the operator updates its operand. -/
def isPrefixUpdate (op : Operator) : Bool :=
  op == .preInc || op == .preDec

/-- Words whose statements are left out. -/
def leftOut : List Keyword :=
  [.case, .catch, .delete, .do, .instanceof, .new, .switch, .throw, .try, .var, .void, .with]

/-- Whether the reference in front of the token at hand is read: the line of the read if so. -/
def fetch? (s : Stream) (updated : Bool) : Option Nat :=
  let continues := s.at_ .dot || s.at_ .bracketOpen || s.at_ .parenOpen
  if (assignment? s.kind).isSome || (update? s.kind).isSome || (updated && !continues) then none
  else some s.line

/-- The token at hand as the name of a member; reserved words are names here. -/
def memberName? (s : Stream) : Option Name :=
  match s.kind with
  | .identifier | .keyword _ => some s.bytes
  | _ => none

/-- The value of the string literal at hand. -/
def stringValue (s : Stream) : List UInt8 :=
  unescape (Text.bytesOf (String.ofList ((s.current.text.drop 1).dropLast)))

/-- The constant at hand, if it is one. -/
def literal? (s : Stream) : Except Stop (Option Literal) :=
  match s.kind with
  | .keyword .this => .ok (some .this)
  | .keyword .true => .ok (some .true)
  | .keyword .false => .ok (some .false)
  | .keyword .null => .ok (some .null)
  | .keyword .undefined => .ok (some .undefined)
  | .string => .ok (some (.string (stringValue s)))
  | .number => .ok (some (.number (.ofLiteral s.current.text)))
  | .hexNumber =>
    match Number.ofHexDigits? (s.current.text.drop 2) with
    | some n => .ok (some (.number n))
    | none => s.reject
  | _ => .ok none

/-- The key of an object entry at hand: a string, a number as it is written, or a name. -/
def entryKey? (s : Stream) : Option (List UInt8) :=
  match s.kind with
  | .string => some (stringValue s)
  | .number => some s.bytes
  | _ => memberName? s

/-- Whether the tokens at hand are a name and the word that walks over keys. -/
def isForIn (s : Stream) : Bool :=
  let s := if s.atWord .let then s.advance else s
  s.kind == .identifier && s.advance.atWord .in

/-- The parameters of a function, up to the closing parenthesis. Every parameter takes a token. -/
def params (s : Stream) : Nat → Except Stop (List (Name × Nat) × Stream)
  | 0 => .error .exhausted
  | budget + 1 =>
    if s.at_ .parenClose then .ok ([], s)
    else if s.kind == .identifier then do
      let next := s.advance
      let next ←
        if next.at_ .comma then pure next.advance
        else if next.at_ .parenClose then pure next
        else next.reject
      let (rest, stop) ← params next budget
      return ((s.bytes, s.line) :: rest, stop)
    else s.reject

mutual

/-- An expression without commas. -/
def expr (s : Stream) (depth : Nat) : Nat → Except Stop (Expr × Stream)
  | 0 => .error .exhausted
  | budget + 1 => do
    let depth ← deeper depth
    let (target, s) ← conditional s depth budget
    match assignment? s.kind with
    | none => return (target, s)
    | some op =>
      let (value, s) ← expr s.advance depth budget
      return (.assign op target value s.line, s)
termination_by structural budget => budget

/-- A conditional, or what binds tighter. -/
def conditional (s : Stream) (depth : Nat) : Nat → Except Stop (Expr × Stream)
  | 0 => .error .exhausted
  | budget + 1 => do
    let (test, s) ← level 0 s depth budget
    if s.at_ .question then
      let s := s.advance
      let (yes, colon) ← conditional s depth budget
      let s' ← colon.expect .colon
      let (no, s') ← conditional s' depth budget
      return (.conditional test yes no s.line colon.line, s')
    else return (test, s)
termination_by structural budget => budget

/-- Operands and operators of a level of binary operators. -/
def level (n : Nat) (s : Stream) (depth : Nat) : Nat → Except Stop (Expr × Stream)
  | 0 => .error .exhausted
  | budget + 1 => do
    let depth ← deeper depth
    let (left, s) ← operand n s depth budget
    operators n left s depth budget
termination_by structural budget => budget

/-- An operand of a level: the next level, or an operand with operators of its own. -/
def operand (n : Nat) (s : Stream) (depth : Nat) : Nat → Except Stop (Expr × Stream)
  | 0 => .error .exhausted
  | budget + 1 =>
    if n + 1 < levels then level (n + 1) s depth budget else unary s depth false budget
termination_by structural budget => budget

/-- The operators of a level behind a left operand, with their right operands. -/
def operators (n : Nat) (left : Expr) (s : Stream) (depth : Nat) :
    Nat → Except Stop (Expr × Stream)
  | 0 => .error .exhausted
  | budget + 1 =>
    match binary? n s.kind with
    | none => .ok (left, s)
    | some (.plain op) => do
      let (right, s) ← operand n s.advance depth budget
      operators n (.binary op left right s.line) s depth budget
    | some .both => do
      let line := s.advance.line
      let (right, s) ← level n s.advance depth budget
      operators n (.both left right line) s depth budget
    | some .either => do
      let line := s.advance.line
      let (right, s) ← level n s.advance depth budget
      operators n (.either left right line) s depth budget
termination_by structural budget => budget

/-- An operand with the operators in front of it and behind it. `updated` says that the operator in
front updates it. -/
def unary (s : Stream) (depth : Nat) (updated : Bool) : Nat → Except Stop (Expr × Stream)
  | 0 => .error .exhausted
  | budget + 1 =>
    match unary? s.kind with
    | some op => do
      let depth ← deeper depth
      let (e, s) ← unary s.advance depth (isPrefixUpdate op) budget
      return (.unary op e s.line, s)
    | none => do
      let (e, s) ← primary s depth updated budget
      let (e, s) ← accesses e s depth updated budget
      match update? s.kind with
      | some op => return (.unary op e s.advance.line, s.advance)
      | none => return (e, s)
termination_by structural budget => budget

/-- Member accesses and calls behind an expression. -/
def accesses (e : Expr) (s : Stream) (depth : Nat) (updated : Bool) :
    Nat → Except Stop (Expr × Stream)
  | 0 => .error .exhausted
  | budget + 1 =>
    if s.at_ .dot then
      let name := s.advance
      match memberName? name with
      | none => name.reject
      | some text =>
        let s := name.advance
        accesses (.member e text name.line (fetch? s updated)) s depth updated budget
    else if s.at_ .bracketOpen then do
      let (key, close) ← expr s.advance depth budget
      let s ← close.expect .bracketClose
      accesses (.index e key close.line (fetch? s updated)) s depth updated budget
    else if s.at_ .parenOpen then do
      let first := s.advance
      let (args, close) ← arguments first depth budget
      let s ← close.expect .parenClose
      accesses (.call e first.line args close.line) s depth updated budget
    else .ok (e, s)
termination_by structural budget => budget

/-- The arguments of a call, up to the closing parenthesis. -/
def arguments (s : Stream) (depth : Nat) : Nat → Except Stop (Exprs × Stream)
  | 0 => .error .exhausted
  | budget + 1 =>
    if s.at_ .parenClose then .ok (.nil, s)
    else do
      let (e, s) ← expr s depth budget
      let s ←
        if s.at_ .comma then pure s.advance
        else if s.at_ .parenClose then pure s
        else s.reject
      let (rest, s) ← arguments s depth budget
      return (.cons e rest, s)
termination_by structural budget => budget

/-- A constant, a variable, a literal object, array or function, or an expression in parentheses. -/
def primary (s : Stream) (depth : Nat) (updated : Bool) : Nat → Except Stop (Expr × Stream)
  | 0 => .error .exhausted
  | budget + 1 =>
    match s.kind with
    | .punct .braceOpen => do
      let first := s.advance
      let (all, s) ← entries first depth budget
      return (.object first.line all, s.advance)
    | .punct .bracketOpen => do
      let first := s.advance
      let (all, s) ← elements first depth budget
      return (.array first.line all, s.advance)
    | .keyword .function => function s.advance depth budget
    | .punct .parenOpen => do
      let (e, s) ← expr s.advance depth budget
      let s ← s.expect .parenClose
      return (.paren e, s)
    | .identifier =>
      let next := s.advance
      .ok (.variable s.bytes s.line (fetch? next updated), next)
    | _ => do
      match ← literal? s with
      | some l => return (.literal l s.line, s.advance)
      | none => s.reject
termination_by structural budget => budget

/-- The entries of an object, up to the closing brace. -/
def entries (s : Stream) (depth : Nat) : Nat → Except Stop (Entries × Stream)
  | 0 => .error .exhausted
  | budget + 1 =>
    if s.at_ .braceClose then .ok (.nil, s)
    else
      match entryKey? s with
      | none => s.reject
      | some key => do
        let value ← s.advance.expect .colon
        let (e, next) ← expr value depth budget
        let behind ←
          if next.at_ .comma then pure next.advance
          else if next.at_ .braceClose then pure next
          else next.reject
        let (rest, stop) ← entries behind depth budget
        return (.cons key s.line e next.line rest, stop)
termination_by structural budget => budget

/-- The elements of an array, up to the closing bracket. -/
def elements (s : Stream) (depth : Nat) : Nat → Except Stop (Elements × Stream)
  | 0 => .error .exhausted
  | budget + 1 =>
    if s.at_ .bracketClose then .ok (.nil, s)
    else do
      let (e, next) ← expr s depth budget
      let behind ←
        if next.at_ .comma then pure next.advance
        else if next.at_ .bracketClose then pure next
        else next.reject
      let (rest, stop) ← elements behind depth budget
      return (.cons s.line e next.line rest, stop)
termination_by structural budget => budget

/-- A function behind its word. -/
def function (s : Stream) (depth : Nat) : Nat → Except Stop (Expr × Stream)
  | 0 => .error .exhausted
  | budget + 1 => do
    let name := if s.kind == .identifier then some s.bytes else none
    let s := if s.kind == .identifier then s.advance else s
    let first ← s.expect .parenOpen
    let (names, close) ← params first budget
    let brace ← close.expect .parenClose
    let depth ← deeper depth
    let inner ← brace.expect .braceOpen
    let (all, close) ← body inner true depth budget
    let stop ← close.expect .braceClose
    return (.function name s.line first.line names all stop.line, stop)
termination_by structural budget => budget

/-- Statements up to the end of the input, or up to a closing brace if they are in braces. -/
def body (s : Stream) (braces : Bool) (depth : Nat) : Nat → Except Stop (Body × Stream)
  | 0 => .error .exhausted
  | budget + 1 =>
    if s.kind == .endOfInput || (braces && s.at_ .braceClose) then .ok (.none s.line, s)
    else if s.at_ .semicolon then body s.advance braces depth budget
    else do
      let (first, s) ← statement s depth budget
      let (rest, s) ← statements s braces depth budget
      return (.some first rest, s)
termination_by structural budget => budget

/-- Further statements of a body. -/
def statements (s : Stream) (braces : Bool) (depth : Nat) : Nat → Except Stop (Stmts × Stream)
  | 0 => .error .exhausted
  | budget + 1 =>
    if s.kind == .endOfInput || (braces && s.at_ .braceClose) then .ok (.nil, s)
    else if s.at_ .semicolon then statements s.advance braces depth budget
    else do
      let line := s.line
      let (next, s) ← statement s depth budget
      let (rest, s) ← statements s braces depth budget
      return (.cons line next rest, s)
termination_by structural budget => budget

/-- One statement. -/
def statement (s : Stream) (depth : Nat) : Nat → Except Stop (Stmt × Stream)
  | 0 => .error .exhausted
  | budget + 1 =>
    match s.kind with
    | .punct .semicolon => .ok (.empty s.line, s.advance)
    | .keyword .let => do
      let (first, s) ← declarator s.advance depth budget
      let (rest, s) ← declarators s depth budget
      return (.declare first rest, s)
    | .punct .braceOpen => do
      let depth ← deeper depth
      let inner := s.advance
      let (all, close) ← body inner true depth budget
      let s ← close.expect .braceClose
      return (.block inner.line all s.line, s)
    | .keyword .return =>
      let s := s.advance
      if s.at_ .semicolon || s.at_ .braceClose || s.kind == .endOfInput then
        .ok (.returnNone s.line, s)
      else do
        let (e, s) ← expr s depth budget
        return (.returnValue e s.line, s)
    | .keyword .for => do
      let first ← s.advance.expect .parenOpen
      if isForIn first then forIn first depth budget else forClauses first depth budget
    | .keyword .while => do
      let first ← s.advance.expect .parenOpen
      let (test, close) ← expr first depth budget
      let inner ← close.expect .parenClose
      let (all, s) ← loopBody inner depth budget
      return (.while first.line test inner.line all s.line, s)
    | .keyword .if => ifStatement s.advance depth budget
    | .keyword .break => .ok (.break s.line, s.advance)
    | .keyword .continue => .ok (.continue s.line, s.advance)
    | kind =>
      if leftOut.any (fun k => kind == .keyword k) then
        .error (.rejected (.leftOut s.current))
      else do
        let (first, s) ← expr s depth budget
        let (rest, s) ← commas s depth budget
        return (.exprs first rest, s)
termination_by structural budget => budget

/-- Further expressions of a statement. -/
def commas (s : Stream) (depth : Nat) : Nat → Except Stop (Commas × Stream)
  | 0 => .error .exhausted
  | budget + 1 =>
    if s.at_ .comma then do
      let (e, next) ← expr s.advance depth budget
      let (rest, stop) ← commas next depth budget
      return (.cons s.line e rest, stop)
    else .ok (.nil, s)
termination_by structural budget => budget

/-- One variable of a declaration. -/
def declarator (s : Stream) (depth : Nat) : Nat → Except Stop (Declarator × Stream)
  | 0 => .error .exhausted
  | budget + 1 =>
    if s.kind == .identifier then
      let next := s.advance
      if next.at_ .assign then do
        let first := next.advance
        let (value, stop) ← expr first depth budget
        return (.init s.bytes s.line first.line value stop.line, stop)
      else .ok (.plain s.bytes s.line next.line, next)
    else s.reject
termination_by structural budget => budget

/-- Further variables of a declaration. -/
def declarators (s : Stream) (depth : Nat) : Nat → Except Stop (Declarators × Stream)
  | 0 => .error .exhausted
  | budget + 1 =>
    if s.at_ .comma then do
      let (d, next) ← declarator s.advance depth budget
      let (rest, stop) ← declarators next depth budget
      return (.cons s.line d rest, stop)
    else .ok (.nil, s)
termination_by structural budget => budget

/-- A choice behind its word. A semicolon in front of the other branch is skipped. -/
def ifStatement (s : Stream) (depth : Nat) : Nat → Except Stop (Stmt × Stream)
  | 0 => .error .exhausted
  | budget + 1 => do
    let s ← s.expect .parenOpen
    let (test, close) ← expr s depth budget
    let s ← close.expect .parenClose
    let (yes, s) ← statement s depth budget
    let s := if s.at_ .semicolon && s.advance.atWord .else then s.advance else s
    if s.atWord .else then
      let s := s.advance
      let (no, stop) ← statement s depth budget
      return (.ifElse test close.line yes s.line no, stop)
    else return (.ifThen test close.line yes, s)
termination_by structural budget => budget

/-- The body of a loop. -/
def loopBody (s : Stream) (depth : Nat) : Nat → Except Stop (LoopBody × Stream)
  | 0 => .error .exhausted
  | budget + 1 =>
    if s.at_ .braceOpen then do
      let depth ← deeper depth
      let (all, close) ← body s.advance true depth budget
      let s ← close.expect .braceClose
      return (.braces all, s)
    else do
      let (one, s) ← statement s depth budget
      return (.single one, s)
termination_by structural budget => budget

/-- A counting loop behind its opening parenthesis. -/
def forClauses (s : Stream) (depth : Nat) : Nat → Except Stop (Stmt × Stream)
  | 0 => .error .exhausted
  | budget + 1 => do
    let line := s.line
    let (start, s) ←
      if s.at_ .semicolon then pure (ForStart.none s.line, s)
      else if s.atWord .let then do
        let (first, s) ← declarator s.advance depth budget
        let (rest, s) ← declarators s depth budget
        pure (ForStart.declare first rest, s)
      else do
        let (e, s) ← expr s depth budget
        pure (ForStart.expr e, s)
    let s ← s.expect .semicolon
    let testLine := s.line
    let (test, s) ← clause s .semicolon depth budget
    let s ← s.expect .semicolon
    let (step, s) ← clause s .parenClose depth budget
    let s ← s.expect .parenClose
    let bodyLine := s.line
    let (all, s) ← loopBody s depth budget
    return (.for line start testLine test step bodyLine all s.line, s)
termination_by structural budget => budget

/-- A clause of a counting loop, absent if its end is at hand. -/
def clause (s : Stream) (stop : Punct) (depth : Nat) : Nat → Except Stop (Clause × Stream)
  | 0 => .error .exhausted
  | budget + 1 =>
    if s.at_ stop then .ok (.none s.line, s)
    else do
      let (e, s) ← expr s depth budget
      return (.expr e, s)
termination_by structural budget => budget

/-- A walk over keys behind its opening parenthesis. -/
def forIn (s : Stream) (depth : Nat) : Nat → Except Stop (Stmt × Stream)
  | 0 => .error .exhausted
  | budget + 1 => do
    let line := s.line
    let declared := s.atWord .let
    let name := if declared then s.advance else s
    let s ← name.advance.expectWord .in
    let (object, s) ← expr s depth budget
    let inner ← s.expect .parenClose
    let (all, s) ← loopBody inner depth budget
    return (.forIn line declared name.bytes name.line object inner.line all s.line, s)
termination_by structural budget => budget

end

/-- A budget that parsing any source of `n` tokens leaves unspent. -/
def budgetFor (n : Nat) : Nat := 32 * (n + 4)

end Parse

/-- The tree of a source text. -/
def parse (source : List Char) : Except Stop Script :=
  match tokenize source with
  | [] => .error .exhausted
  | first :: rest => do
    let (all, s) ← Parse.body ⟨first, rest⟩ false 0 (Parse.budgetFor rest.length)
    if s.kind == .endOfInput then return ⟨all, s.line⟩ else s.reject

/-- The tree of a source text, or the error that rejects it. A tree is always found or refused within
the budget. -/
def parseScript (source : String) : Except Error Script :=
  match parse source.toList with
  | .ok script => .ok script
  | .error (.rejected e) => .error (.source (e.message source.toList))
  | .error .exhausted => .error (.internal "parser budget exhausted")

end ScriptEngine.Source
