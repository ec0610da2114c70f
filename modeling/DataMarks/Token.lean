/-
  Lexemes of the mark language and the tokens that place them in a source text.
-/
import DataMarks.Span

namespace DataMarks

/-- The reserved words. -/
inductive Keyword
  | discard | else_ | emit | false_ | for_ | from_ | function | global | if_ | import_ | in_
  | let_ | mark | return_ | shader | true_
deriving DecidableEq, Repr

namespace Keyword

def all : List Keyword :=
  [discard, else_, emit, false_, for_, from_, function, global, if_, import_, in_, let_, mark,
   return_, shader, true_]

def text : Keyword → String
  | discard => "discard"
  | else_ => "else"
  | emit => "emit"
  | false_ => "false"
  | for_ => "for"
  | from_ => "from"
  | function => "function"
  | global => "global"
  | if_ => "if"
  | import_ => "import"
  | in_ => "in"
  | let_ => "let"
  | mark => "mark"
  | return_ => "return"
  | shader => "shader"
  | true_ => "true"

def ofText? (s : String) : Option Keyword :=
  all.find? (·.text == s)

theorem ofText?_text (k : Keyword) : ofText? k.text = some k := by cases k <;> decide

theorem text_of_ofText? {s : String} {k : Keyword} (h : ofText? s = some k) : k.text = s := by
  simpa using List.find?_some h

end Keyword

/-- Operators and punctuation. -/
inductive Symbol
  | andAnd | bang | bangEq | colon | comma | eq | eqEq | ge | gt | le | lt | dot | dotDot | slash
  | minus | percent | orOr | plus | semicolon | star
  | openBrace | closeBrace | openBracket | closeBracket | openParen | closeParen
deriving DecidableEq, Repr

namespace Symbol

def text : Symbol → String
  | andAnd => "&&"
  | bang => "!"
  | bangEq => "!="
  | colon => ":"
  | comma => ","
  | eq => "="
  | eqEq => "=="
  | ge => ">="
  | gt => ">"
  | le => "<="
  | lt => "<"
  | dot => "."
  | dotDot => ".."
  | slash => "/"
  | minus => "-"
  | percent => "%"
  | orOr => "||"
  | plus => "+"
  | semicolon => ";"
  | star => "*"
  | openBrace => "\x7b"
  | closeBrace => "\x7d"
  | openBracket => "["
  | closeBracket => "]"
  | openParen => "("
  | closeParen => ")"

/-- The symbol spelled by two characters, if there is one. -/
def ofPair? : Char → Char → Option Symbol
  | '&', '&' => some andAnd
  | '!', '=' => some bangEq
  | '=', '=' => some eqEq
  | '>', '=' => some ge
  | '<', '=' => some le
  | '.', '.' => some dotDot
  | '|', '|' => some orOr
  | _, _ => none

/-- The symbol spelled by one character, if there is one. -/
def ofChar? : Char → Option Symbol
  | '!' => some bang
  | ':' => some colon
  | ',' => some comma
  | '=' => some eq
  | '>' => some gt
  | '<' => some lt
  | '.' => some dot
  | '/' => some slash
  | '-' => some minus
  | '%' => some percent
  | '+' => some plus
  | ';' => some semicolon
  | '*' => some star
  | '\x7b' => some openBrace
  | '\x7d' => some closeBrace
  | '[' => some openBracket
  | ']' => some closeBracket
  | '(' => some openParen
  | ')' => some closeParen
  | _ => none

end Symbol

/-- What a token is, apart from where it stands. Numbers keep the digits they are written with. -/
inductive Lexeme
  | name (text : String)
  | int (digits : String)
  | float (digits : String)
  | keyword (k : Keyword)
  | symbol (s : Symbol)
deriving DecidableEq, Repr

namespace Lexeme

/-- The characters of a lexeme in the source. -/
def text : Lexeme → String
  | name s => s
  | int s => s
  | float s => s
  | keyword k => k.text
  | symbol s => s.text

/-- The class of a lexeme as error messages call it. -/
def description : Lexeme → String
  | name _ => "name"
  | int _ => "integer literal"
  | float _ => "float literal"
  | keyword k => k.text
  | symbol s => s.text

end Lexeme

/-- A lexeme with its place in the source. -/
structure Token where
  lexeme : Lexeme
  span : Span
deriving DecidableEq, Repr

end DataMarks
