/-!
Tokens of the source language.

A token knows where it starts and stops, counted in characters, and the line of its first
character. Its text is kept with it.
-/

namespace ScriptEngine.Source

/-- Punctuators, longer ones before those they start with. -/
inductive Punct where
  | ushrAssign
  | shlAssign
  | shrAssign
  | ushr
  | strictEq
  | strictNe
  | andAnd
  | andAssign
  | mulAssign
  | orOr
  | orAssign
  | xorAssign
  | shl
  | le
  | shr
  | ge
  | eqEq
  | notEq
  | subAssign
  | decrement
  | remAssign
  | addAssign
  | increment
  | divAssign
  | amp
  | star
  | bar
  | braceClose
  | braceOpen
  | bracketClose
  | bracketOpen
  | caret
  | lt
  | gt
  | colon
  | comma
  | dot
  | assign
  | bang
  | minus
  | parenClose
  | parenOpen
  | percent
  | plus
  | question
  | semicolon
  | slash
  | tilde
  deriving DecidableEq, Repr, Inhabited

namespace Punct

/-- How a punctuator is written. -/
def spelling : Punct → String
  | ushrAssign => ">>>="
  | shlAssign => "<<="
  | shrAssign => ">>="
  | ushr => ">>>"
  | strictEq => "==="
  | strictNe => "!=="
  | andAnd => "&&"
  | andAssign => "&="
  | mulAssign => "*="
  | orOr => "||"
  | orAssign => "|="
  | xorAssign => "^="
  | shl => "<<"
  | le => "<="
  | shr => ">>"
  | ge => ">="
  | eqEq => "=="
  | notEq => "!="
  | subAssign => "-="
  | decrement => "--"
  | remAssign => "%="
  | addAssign => "+="
  | increment => "++"
  | divAssign => "/="
  | amp => "&"
  | star => "*"
  | bar => "|"
  | braceClose => "\x7d"
  | braceOpen => "\x7b"
  | bracketClose => "]"
  | bracketOpen => "["
  | caret => "^"
  | lt => "<"
  | gt => ">"
  | colon => ":"
  | comma => ","
  | dot => "."
  | assign => "="
  | bang => "!"
  | minus => "-"
  | parenClose => ")"
  | parenOpen => "("
  | percent => "%"
  | plus => "+"
  | question => "?"
  | semicolon => ";"
  | slash => "/"
  | tilde => "~"

/-- Every punctuator, by falling length. -/
def all : List Punct :=
  [ushrAssign, shlAssign, shrAssign, ushr, strictEq, strictNe, andAnd, andAssign, mulAssign, orOr,
    orAssign, xorAssign, shl, le, shr, ge, eqEq, notEq, subAssign, decrement, remAssign, addAssign,
    increment, divAssign, amp, star, bar, braceClose, braceOpen, bracketClose, bracketOpen, caret, lt,
    gt, colon, comma, dot, assign, bang, minus, parenClose, parenOpen, percent, plus, question,
    semicolon, slash, tilde]

/-- Every punctuator with its characters, by falling length. -/
def table : List (Punct × List Char) :=
  all.map fun p => (p, p.spelling.toList)

end Punct

/-- Reserved words, the names of constants among them. -/
inductive Keyword where
  | break
  | case
  | catch
  | continue
  | debugger
  | default
  | delete
  | do
  | else
  | false
  | finally
  | for
  | function
  | if
  | in
  | instanceof
  | let
  | new
  | null
  | return
  | switch
  | this
  | throw
  | true
  | try
  | typeof
  | undefined
  | var
  | void
  | while
  | with
  | yield
  deriving DecidableEq, Repr, Inhabited

namespace Keyword

/-- How a reserved word is written. -/
def spelling : Keyword → String
  | .break => "break"
  | .case => "case"
  | .catch => "catch"
  | .continue => "continue"
  | .debugger => "debugger"
  | .default => "default"
  | .delete => "delete"
  | .do => "do"
  | .else => "else"
  | .false => "false"
  | .finally => "finally"
  | .for => "for"
  | .function => "function"
  | .if => "if"
  | .in => "in"
  | .instanceof => "instanceof"
  | .let => "let"
  | .new => "new"
  | .null => "null"
  | .return => "return"
  | .switch => "switch"
  | .this => "this"
  | .throw => "throw"
  | .true => "true"
  | .try => "try"
  | .typeof => "typeof"
  | .undefined => "undefined"
  | .var => "var"
  | .void => "void"
  | .while => "while"
  | .with => "with"
  | .yield => "yield"

/-- Every reserved word. -/
def all : List Keyword :=
  [.break, .case, .catch, .continue, .debugger, .default, .delete, .do, .else, .false, .finally, .for,
    .function, .if, .in, .instanceof, .let, .new, .null, .return, .switch, .this, .throw, .true, .try,
    .typeof, .undefined, .var, .void, .while, .with, .yield]

/-- Every reserved word with its characters. -/
def table : List (Keyword × List Char) :=
  all.map fun k => (k, k.spelling.toList)

/-- The reserved word that characters spell. -/
def ofChars? (cs : List Char) : Option Keyword :=
  (table.find? fun entry => entry.2 == cs).map Prod.fst

end Keyword

/-- The kinds of tokens. -/
inductive TokenKind where
  | endOfInput
  /-- A character that starts no token, or a string that does not close. -/
  | invalid
  | punct (p : Punct)
  | keyword (k : Keyword)
  | identifier
  | number
  | hexNumber
  | string
  deriving DecidableEq, Repr, Inhabited

/-- A token. -/
structure Token where
  kind : TokenKind
  text : List Char
  start : Nat
  line : Nat
  deriving DecidableEq, Repr, Inhabited

/-- Where the token stops. -/
def Token.stop (t : Token) : Nat :=
  t.start + t.text.length

/-- The text as a string. -/
def Token.word (t : Token) : String :=
  String.ofList t.text

/-- Whether the token is a certain punctuator. -/
def Token.isPunct (t : Token) (p : Punct) : Bool :=
  t.kind == .punct p

/-- Whether the token is a certain reserved word. -/
def Token.isKeyword (t : Token) (k : Keyword) : Bool :=
  t.kind == .keyword k

end ScriptEngine.Source
