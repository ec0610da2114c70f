/-
  Why a source text is no file or expression of the language.
-/
import DataMarks.Token.Lexer

namespace DataMarks

/-- What is wrong with a literal. -/
inductive LiteralFault
  | outOfRange
  | vectorLength
  | loopBound
deriving DecidableEq, Repr

def LiteralFault.message : LiteralFault → String
  | outOfRange => "number out of range"
  | vectorLength => "vectors have between 2 and 4 components"
  | loopBound => "loop bounds must be integer literals"

inductive ParseError
  | lexical (e : LexError)
  | unexpectedToken (span : Span) (found : String) (expected : List String)
  | unexpectedEnd (span : Span) (expected : List String)
  | invalidLiteral (span : Span) (fault : LiteralFault)
deriving DecidableEq, Repr

namespace ParseError

def span : ParseError → Span
  | lexical e => e.span
  | unexpectedToken s .. | unexpectedEnd s _ | invalidLiteral s _ => s

def message : ParseError → String
  | lexical e => e.message
  | unexpectedToken _ found _ => s!"unexpected token `{found}`"
  | unexpectedEnd .. => "unexpected end of file"
  | invalidLiteral .. => "invalid literal"

/-- What would have been right, as a note. -/
def expectation : List String → List String
  | [] => []
  | [only] => [s!"expected {only}"]
  | several =>
    let all := ", ".intercalate several.dropLast
    let last := several.getLastD ""
    [s!"expected {all} or {last}"]

def labels : ParseError → List Label
  | lexical e => e.labels
  | unexpectedToken s .. | unexpectedEnd s _ =>
    [{ primary := true, span := s, message := "unexpected token" }]
  | invalidLiteral s fault => [{ primary := true, span := s, message := fault.message }]

def notes : ParseError → List String
  | lexical e => e.notes
  | unexpectedToken _ _ expected | unexpectedEnd _ expected => expectation expected
  | invalidLiteral .. => []

def diagnostic (e : ParseError) : Diagnostic :=
  { message := e.message, labels := e.labels, notes := e.notes }

end ParseError

end DataMarks
