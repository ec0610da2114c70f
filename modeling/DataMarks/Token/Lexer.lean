/-
  From a source text to its tokens. The longest lexeme at each place wins; blank
  space and comments are passed over; block comments nest. A character that
  starts nothing is a fault of its own, and reading goes on behind it.
-/
import DataMarks.Diagnostic
import DataMarks.Text.Blank
import DataMarks.Token

namespace DataMarks

/-- A fault in the spelling of a source text. -/
inductive LexError
  /-- A block comment still open at the end; `nested` are the openings inside it that are open
  too, outermost first. -/
  | unclosedComment (outermost : Span) (nested : List Span)
  | unexpectedCharacter (span : Span)
deriving DecidableEq, Repr

namespace LexError

def span : LexError → Span
  | unclosedComment outermost _ => outermost
  | unexpectedCharacter s => s

def message : LexError → String
  | unclosedComment .. => "block comment is never closed"
  | unexpectedCharacter _ => "unexpected character"

/-- How many closing marks the text lacks. -/
def missingCloses : LexError → Nat
  | unclosedComment _ nested => nested.length + 1
  | unexpectedCharacter _ => 0

def labels : LexError → List Label
  | unclosedComment outermost nested =>
    { primary := true, span := outermost, message := "comment opened with `/*` here" }
      :: nested.map fun s =>
        { primary := false, span := s, message := "nested comment opened here" }
  | unexpectedCharacter s => [{ primary := true, span := s }]

def notes : LexError → List String
  | unclosedComment _ [] => ["close the comment with `*/`"]
  | e@(unclosedComment ..) =>
    [s!"comments nest, so {e.missingCloses} `*/` are needed to close them all"]
  | unexpectedCharacter _ => []

end LexError

namespace Lexer

def isNameStart (c : Char) : Bool := c.isAlpha || c == '_'

def isNameChar (c : Char) : Bool := c.isAlphanum || c == '_'

/-- The number of bytes of a text in UTF-8. -/
def byteLength (cs : List Char) : Nat := cs.foldr (fun c n => c.utf8Size + n) 0

/-- The length of an exponent at the front: a mark, perhaps a sign, and at least one digit. -/
def exponentLength : List Char → Nat
  | e :: cs =>
    if e == 'e' || e == 'E' then
      let signLength := match cs with
        | s :: _ => if s == '+' || s == '-' then 1 else 0
        | [] => 0
      match ((cs.drop signLength).takeWhile Char.isDigit).length with
      | 0 => 0
      | digits => 1 + signLength + digits
    else 0
  | [] => 0

/-- The length of a fraction at the front: a point and at least one digit. -/
def fractionLength : List Char → Nat
  | '.' :: cs =>
    match (cs.takeWhile Char.isDigit).length with
    | 0 => 0
    | digits => 1 + digits
  | _ => 0

/-- The length of the digits, and that of a fraction and an exponent behind them. -/
def numberLength (cs : List Char) : Nat × Nat :=
  let whole := (cs.takeWhile Char.isDigit).length
  let fraction := fractionLength (cs.drop whole)
  (whole, fraction + exponentLength (cs.drop (whole + fraction)))

/-- The number at the front of a text that starts with a digit. -/
def number (cs : List Char) : Lexeme :=
  match numberLength cs with
  | (whole, 0) => .int (String.ofList (cs.take whole))
  | (whole, more) => .float (String.ofList (cs.take (whole + more)))

/-- The name or reserved word at the front of a text that starts with a letter. -/
def word (cs : List Char) : Lexeme :=
  let text := String.ofList (cs.takeWhile isNameChar)
  match Keyword.ofText? text with
  | some k => .keyword k
  | none => .name text

/-- Walks a block comment whose openings at `opens` (innermost first) are not closed yet. Gives
the openings left at its end and the number of characters walked. -/
def comment (offset : Nat) (opens : List Nat) : List Char → List Nat × Nat
  | '/' :: '*' :: cs =>
    match opens with
    | [] => ([], 0)
    | _ :: _ => (comment (offset + 2) (offset :: opens) cs).map id (· + 2)
  | '*' :: '/' :: cs =>
    match opens with
    | [] => ([], 0)
    | _ :: outer => (comment (offset + 2) outer cs).map id (· + 2)
  | c :: cs =>
    match opens with
    | [] => ([], 0)
    | _ :: _ => (comment (offset + c.utf8Size) opens cs).map id (· + 1)
  | [] => (opens, 0)

/-- What a stretch of text is. -/
inductive Piece
  | lexeme (l : Lexeme)
  | skipped
  | stray
  /-- An unclosed comment and the offsets of its openings, outermost first. -/
  | unclosed (outermost : Nat) (nested : List Nat)
deriving DecidableEq, Repr

/-- The piece at the front of `c :: cs`, and how many characters of `cs` belong to it. -/
def piece (offset : Nat) (c : Char) (cs : List Char) : Piece × Nat :=
  if Text.isBlank c then (.skipped, 0)
  else if isNameStart c then
    (.lexeme (word (c :: cs)), (cs.takeWhile isNameChar).length)
  else if c.isDigit then
    let (whole, more) := numberLength (c :: cs)
    (.lexeme (number (c :: cs)), whole + more - 1)
  else
    match c, cs with
    | '/', '/' :: line => (.skipped, 1 + (line.takeWhile (· != '\n')).length)
    | '/', '*' :: body =>
      match comment (offset + 2) [offset] body with
      | (opens, length) =>
        match opens.reverse with
        | [] => (.skipped, 1 + length)
        | outermost :: nested => (.unclosed outermost nested, 1 + length)
    | _, _ =>
      match cs.head?.bind (Symbol.ofPair? c) with
      | some s => (.lexeme (.symbol s), 1)
      | none =>
        match Symbol.ofChar? c with
        | some s => (.lexeme (.symbol s), 0)
        | none => (.stray, 0)

/-- The token or fault that a piece stands for, if it is not passed over. -/
def Piece.item? (file start stop : Nat) : Piece → Option (Except LexError Token)
  | .lexeme l => some (.ok ⟨l, ⟨file, start, stop⟩⟩)
  | .skipped => none
  | .stray => some (.error (.unexpectedCharacter ⟨file, start, stop⟩))
  | .unclosed outermost nested =>
    let opening (at_ : Nat) : Span := ⟨file, at_, at_ + 2⟩
    some (.error (.unclosedComment (opening outermost) (nested.map opening)))

/-- The tokens and faults of a text that starts at byte `offset` of its file. -/
def scan (file offset : Nat) : List Char → List (Except LexError Token)
  | [] => []
  | c :: cs =>
    match piece offset c cs with
    | (p, more) =>
      let stop := offset + byteLength (c :: cs.take more)
      (p.item? file offset stop).toList ++ scan file stop (cs.drop more)
termination_by cs => cs.length
decreasing_by simp only [List.length_drop, List.length_cons]; omega

end Lexer

/-- All tokens and faults of a source text, in order. Positions in texts of 4 GiB and more do not
fit in 32 bits, and reading one stops with a failed assertion; here there is no such bound. -/
def lex (file : Nat) (source : String) : List (Except LexError Token) :=
  Lexer.scan file 0 source.toList

/-- The tokens of a source text, or its first fault. -/
def tokens (file : Nat) (source : String) : Except LexError (List Token) :=
  (lex file source).mapM id

end DataMarks
