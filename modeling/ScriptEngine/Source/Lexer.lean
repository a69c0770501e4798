import ScriptEngine.Source.Token
import ScriptEngine.Text.Ascii
/-!
From source text to tokens.

Blanks and comments separate tokens. A token is the longest one that starts where it starts; text
that starts none gives an invalid token of one character, and a string that does not close one that
reaches to the end. The last token is the end of the input.
-/

namespace ScriptEngine.Source

open Text (isDigit isHexDigit isLetter)

/-- White space between tokens. Other space characters start no token. -/
def isBlank (c : Char) : Bool :=
  c == ' ' || c == '\t' || c == '\n' || c == '\x0c' || c == '\r'

/-- A character that can start an identifier. -/
def isNameStart (c : Char) : Bool :=
  isLetter c || c == '_' || c == '$'

/-- A character that can go on with one. -/
def isNamePart (c : Char) : Bool :=
  isNameStart c || isDigit c

namespace Lexer

/-- The characters of a block comment up to its close, which is included, or to the end. -/
def blockComment : List Char → List Char
  | '*' :: '/' :: _ => ['*', '/']
  | c :: rest => c :: blockComment rest
  | [] => []

/-- The blank or comment at the start of the text, empty if there is none. -/
def blankPiece : List Char → List Char
  | '/' :: '/' :: rest => '/' :: '/' :: rest.takeWhile (· != '\n')
  | '/' :: '*' :: rest => '/' :: '*' :: blockComment rest
  | c :: rest => if isBlank c then c :: rest.takeWhile isBlank else []
  | [] => []

/-- The digits at the start of the text. -/
def digits (cs : List Char) : List Char :=
  cs.takeWhile isDigit

/-- A point and digits, if the text starts with a point. -/
def fraction : List Char → List Char
  | '.' :: rest => '.' :: digits rest
  | _ => []

/-- An exponent with at least one digit, if the text starts with one. -/
def exponent : List Char → List Char
  | e :: s :: d :: rest =>
    if e == 'e' || e == 'E' then
      if (s == '+' || s == '-') && isDigit d then e :: s :: d :: digits rest
      else if isDigit s then e :: digits (s :: d :: rest)
      else []
    else []
  | [e, s] => if (e == 'e' || e == 'E') && isDigit s then [e, s] else []
  | _ => []

/-- The decimal number at the start of the text. -/
def decimal (cs : List Char) : List Char :=
  let whole := digits cs
  let point := fraction (cs.drop whole.length)
  let exp := exponent (cs.drop (whole.length + point.length))
  whole ++ point ++ exp

/-- The number at the start of the text. -/
def number : List Char → TokenKind × List Char
  | z :: x :: d :: rest =>
    if z == '0' && (x == 'x' || x == 'X') && isHexDigit d then
      (.hexNumber, z :: x :: d :: rest.takeWhile isHexDigit)
    else (.number, decimal (z :: x :: d :: rest))
  | cs => (.number, decimal cs)

/-- The rest of a string up to its closing quote, which is included; a backslash takes the next
character with it. -/
def quoted? (quote : Char) : List Char → Option (List Char)
  | [] => none
  | c :: rest =>
    if c == quote then some [c]
    else if c == '\\' then
      match rest with
      | [] => none
      | d :: rest' => (quoted? quote rest').map fun body => c :: d :: body
    else (quoted? quote rest).map (c :: ·)

/-- Whether the text starts with the characters of a word. -/
def startsWith (word cs : List Char) : Bool :=
  word.isPrefixOf cs

/-- The punctuator at the start of the text; longer ones come first in the table. -/
def punct? (cs : List Char) : Option (Punct × List Char) :=
  Punct.table.find? fun entry => startsWith entry.2 cs

/-- The kind and the text of the token at the start of a text that has no blanks in front. -/
def lexeme : List Char → TokenKind × List Char
  | [] => (.endOfInput, [])
  | c :: rest =>
    if isNameStart c then
      let word := c :: rest.takeWhile isNamePart
      match Keyword.ofChars? word with
      | some k => (.keyword k, word)
      | none => (.identifier, word)
    else if isDigit c then number (c :: rest)
    else if c == '.' && (rest.head?.map isDigit).getD false then number (c :: rest)
    else if c == '"' || c == '\'' then
      match quoted? c rest with
      | some body => (.string, c :: body)
      | none => (.invalid, c :: rest)
    else
      match punct? (c :: rest) with
      | some (p, word) => (.punct p, word)
      | none => (.invalid, [c])

/-- A place in the text: what follows, how many characters came before, and the line. -/
structure Place where
  rest : List Char
  offset : Nat
  line : Nat

/-- Goes on behind characters that stand here. -/
def Place.advance (p : Place) (cs : List Char) : Place :=
  ⟨p.rest.drop cs.length, p.offset + cs.length, p.line + cs.count '\n'⟩

/-- Goes on behind blanks and comments. Every piece takes a character, so `limit` pieces are enough
for a rest of that length. -/
def Place.skipBlanks (p : Place) : Nat → Place
  | 0 => p
  | limit + 1 =>
    let piece := blankPiece p.rest
    if piece.isEmpty then p else (p.advance piece).skipBlanks limit

/-- The next token and the place behind it, when at most `limit` characters follow. -/
def Place.next (p : Place) (limit : Nat) : Token × Place :=
  let q := p.skipBlanks limit
  let (kind, text) := lexeme q.rest
  (⟨kind, text, q.offset, q.line⟩, q.advance text)

/-- The tokens from a place on, when at most `limit` characters follow: every token but the end of the
input takes one. -/
def tokensFrom (p : Place) : Nat → List Token
  | 0 => [(p.next 0).1]
  | limit + 1 =>
    let (token, rest) := p.next (limit + 1)
    if token.kind == .endOfInput then [token] else token :: tokensFrom rest limit

end Lexer

/-- The tokens of a source text; the last one is the end of the input. -/
def tokenize (source : List Char) : List Token :=
  Lexer.tokensFrom ⟨source, 0, 1⟩ source.length

end ScriptEngine.Source
