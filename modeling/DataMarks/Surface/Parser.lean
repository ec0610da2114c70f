/-
  From tokens to files and expressions, by recursive descent. Nesting is bounded
  by a count of levels and repetition by a count of rounds; both start above the
  number of tokens, and each level and each round reads a token, so neither runs
  out before the tokens do.
-/
import DataMarks.Surface
import DataMarks.Surface.ParseError

namespace DataMarks.Surface

/-- The tokens left to read, the end of the last token that was read, and the end of the file. -/
structure Input where
  file : Nat
  tokens : List Token
  last : Nat
  size : Nat
deriving Repr

abbrev Parser := StateT Input (Except ParseError)

namespace Parser

/-! ## Single tokens -/

/-- The next lexeme. -/
def peek : Parser (Option Lexeme) := do
  return (← get).tokens.head?.map (·.lexeme)

/-- The lexeme behind the next one. -/
def peekSecond : Parser (Option Lexeme) := do
  return (← get).tokens[1]?.map (·.lexeme)

/-- The place of the next token; at the end of the file, the empty stretch there. -/
def nextSpan : Parser Span := do
  let input ← get
  match input.tokens with
  | t :: _ => return t.span
  | [] => return ⟨input.file, input.size, input.size⟩

/-- The stretch from `start` to the end of the last token that was read. -/
def spanFrom (start : Span) : Parser Span := do
  let input ← get
  return ⟨input.file, start.start, max input.last start.stop⟩

/-- Passes over the next token. -/
def advance : Parser Unit :=
  modify fun input =>
    match input.tokens with
    | t :: rest => { input with tokens := rest, last := t.span.stop }
    | [] => input

/-- Refuses what comes next. -/
def unexpected {α : Type} (expected : List String) : Parser α := do
  let span ← nextSpan
  match ← peek with
  | some l => throw (.unexpectedToken span l.text expected)
  | none => throw (.unexpectedEnd span expected)

/-- Reads the lexeme if it comes next, and tells whether it did. -/
def eat (l : Lexeme) : Parser Bool := do
  if (← peek) = some l then
    advance
    return true
  else
    return false

def eatSymbol (s : Symbol) : Parser Bool := eat (.symbol s)

def eatKeyword (k : Keyword) : Parser Bool := eat (.keyword k)

def expect (l : Lexeme) : Parser Unit := do
  unless ← eat l do
    unexpected [l.description]

def expectSymbol (s : Symbol) : Parser Unit := expect (.symbol s)

def name : Parser (Span × String) := do
  match ← peek with
  | some (.name n) =>
    let span ← nextSpan
    advance
    return (span, n)
  | _ => unexpected ["name"]

def typeName : Parser TypeName := do
  let (span, n) ← name
  return ⟨span, n⟩

/-! ## Lists -/

/-- More rounds than there are tokens left. -/
def rounds : Parser Nat := do
  return (← get).tokens.length + 1

def listRounds {α : Type} (close : Symbol) (item : Parser α) : Nat → Parser (List α)
  | 0 => unexpected [close.text]
  | n + 1 => do
    if ← eatSymbol close then
      return []
    let x ← item
    if ← eatSymbol .comma then
      return x :: (← listRounds close item n)
    expectSymbol close
    return [x]

/-- Items with commas between them up to and with `close`; a comma may follow the last one. -/
def list {α : Type} (close : Symbol) (item : Parser α) : Parser (List α) := do
  listRounds close item (← rounds)

/-! ## Literals -/

/-- A number as it is written. An integer keeps its sign apart, so that `-0` is not `0`. -/
inductive Numeral
  | int (negative : Bool) (magnitude : Nat)
  | float (x : Float)
deriving DecidableEq, Repr

namespace Numeral

def type : Numeral → ValueType
  | int .. => .int
  | float _ => .float

/-- The sign is a factor. -/
def sign (negative : Bool) : Float := if negative then -1 else 1

def toFloat : Numeral → Float
  | int negative n => sign negative * Float.ofNat n
  | float x => x

end Numeral

inductive Literal
  | bool (b : Bool)
  | number (n : Numeral)
  | vector (type : ValueType) (components : List Numeral)
deriving DecidableEq, Repr

namespace Literal

def type : Literal → ValueType
  | bool _ => .bool
  | number n => n.type
  | vector t _ => t

def value : Literal → Value
  | bool b => .ofBool b
  | number n => .scalar n.toFloat
  | vector _ ns => .vector (ns.map Numeral.toFloat)

end Literal

/-- The greatest integer literal. -/
def maxInt : Nat := 2147483647

/-- A number, perhaps with a minus in front. -/
def number : Parser Numeral := do
  let negative ← eatSymbol .minus
  match ← peek with
  | some (.int digits) =>
    let span ← nextSpan
    advance
    let n := Number.digitsValue digits.toList
    if n ≤ maxInt then
      return .int negative n
    else
      throw (.invalidLiteral span .outOfRange)
  | some (.float digits) =>
    advance
    return .float (Numeral.sign negative * Number.ofDigits digits.toList)
  | _ => unexpected ["number"]

/-- The vector type with a number of components. -/
def vectorType? : Nat → Option ValueType
  | 2 => some .vector2
  | 3 => some .vector3
  | 4 => some .vector4
  | _ => none

/-- A truth value, a vector of numbers, or a number. -/
def literal : Parser Literal := do
  let start ← nextSpan
  match ← peek with
  | some (.keyword .true_) =>
    advance
    return .bool true
  | some (.keyword .false_) =>
    advance
    return .bool false
  | some (.symbol .openBracket) =>
    advance
    let components ← list .closeBracket number
    match vectorType? components.length with
    | some t => return .vector t components
    | none => throw (.invalidLiteral (← spanFrom start) .vectorLength)
  | _ => return .number (← number)

/-- A literal that has to be an integer. -/
def integer : Parser Int := do
  let start ← nextSpan
  match ← literal with
  | .number (.int negative n) => return if negative then -(n : Int) else n
  | _ => throw (.invalidLiteral (← spanFrom start) .loopBound)

/-! ## Expressions -/

/-- The binary operators from the loosest to the tightest level. -/
def levels : List (List (Symbol × BinaryOp)) :=
  [[(.orOr, .or)],
   [(.andAnd, .and)],
   [(.eqEq, .eq), (.bangEq, .ne)],
   [(.lt, .lt), (.le, .le), (.gt, .gt), (.ge, .ge)],
   [(.plus, .add), (.minus, .sub)],
   [(.star, .mul), (.slash, .div), (.percent, .rem)]]

/-- The operator among `ops` that a lexeme stands for. -/
def operator? (ops : List (Symbol × BinaryOp)) : Option Lexeme → Option BinaryOp
  | some (.symbol s) => ops.lookup s
  | _ => none

/-- Operands joined by operators of one level, grouped to the left. -/
def chain (ops : List (Symbol × BinaryOp)) (operand : Parser Expr) : Nat → Expr → Parser Expr
  | 0, lhs => return lhs
  | n + 1, lhs => do
    match operator? ops (← peek) with
    | none => return lhs
    | some op =>
      advance
      let rhs ← operand
      chain ops operand n (.binary (lhs.span.merge rhs.span) op lhs rhs)

def binary (operand : Parser Expr) : List (List (Symbol × BinaryOp)) → Parser Expr
  | [] => operand
  | ops :: tighter => do
    let lhs ← binary operand tighter
    chain ops (binary operand tighter) (← rounds) lhs

def unaryOp? : Option Lexeme → Option UnaryOp
  | some (.symbol .minus) => some .neg
  | some (.symbol .plus) => some .pos
  | some (.symbol .bang) => some .not
  | _ => none

/-- The operators in front of an operand, each with its place. -/
def signs : Nat → Parser (List (Span × UnaryOp))
  | 0 => return []
  | n + 1 => do
    match unaryOp? (← peek) with
    | none => return []
    | some op =>
      let span ← nextSpan
      advance
      return (span, op) :: (← signs n)

def unary (operand : Parser Expr) : Parser Expr := do
  let ops ← signs (← rounds)
  let e ← operand
  return ops.foldr (fun (span, op) e => .unary (span.merge e.span) op e) e

/-- The fields behind an operand. -/
def fields : Nat → Expr → Parser Expr
  | 0, e => return e
  | n + 1, e => do
    if ← eatSymbol .dot then
      let (span, f) ← name
      fields n (.field (e.span.merge span) e f)
    else
      return e

def argumentRounds (expr : Parser Expr) :
    Nat → List Expr → List (String × Expr) → Parser (List Expr × List (String × Expr))
  | 0, _, _ => unexpected [Symbol.closeParen.text]
  | n + 1, args, keywords => do
    if ← eatSymbol .closeParen then
      return (args.reverse, keywords.reverse)
    let (args, keywords) ← do
      match ← peek, ← peekSecond with
      | some (.name k), some (.symbol .eq) =>
        advance
        advance
        pure (args, (k, ← expr) :: keywords)
      | _, _ =>
        unless keywords.isEmpty do
          unexpected ["keyword argument"]
        pure ((← expr) :: args, keywords)
    if ← eatSymbol .comma then
      argumentRounds expr n args keywords
    else
      expectSymbol .closeParen
      return (args.reverse, keywords.reverse)

/-- The arguments of a call up to and with the closing parenthesis, positional ones first. -/
def arguments (expr : Parser Expr) : Parser (List Expr × List (String × Expr)) := do
  argumentRounds expr (← rounds) [] []

def primary (expr : Parser Expr) : Parser Expr := do
  let start ← nextSpan
  match ← peek with
  | some (.symbol .openParen) =>
    advance
    let e ← expr
    expectSymbol .closeParen
    return e
  | some (.name n) =>
    advance
    if ← eatSymbol .openParen then
      let (args, keywords) ← arguments expr
      return .call (← spanFrom start) n args keywords
    else
      return .name start n
  | some (.int _) | some (.float _) | some (.keyword .true_) | some (.keyword .false_)
  | some (.symbol .openBracket) =>
    let l ← literal
    return .literal (← spanFrom start) l.type l.value
  | _ => unexpected ["expression"]

/-- An expression in which parentheses and calls nest at most so many levels deep. -/
def expressionWithin : Nat → Parser Expr
  | 0 => unexpected ["expression"]
  | depth + 1 =>
    let operand : Parser Expr := do
      let e ← primary (expressionWithin depth)
      fields (← rounds) e
    binary (unary operand) levels

def expression : Parser Expr := do
  expressionWithin (← rounds)

/-! ## Statements -/

def vertex : Parser (List Attribute) := do
  expectSymbol .openBrace
  list .closeBrace do
    let (span, n) ← name
    expectSymbol .colon
    return { span := span, name := n, value := ← expression }

def stmtRounds (stmt : Parser Stmt) : Nat → Parser (List Stmt)
  | 0 => unexpected ["expression"]
  | n + 1 => do
    if ← eatSymbol .closeBrace then
      return []
    let s ← stmt
    return s :: (← stmtRounds stmt n)

/-- Statements between braces. -/
def braced (stmt : Parser Stmt) : Parser (List Stmt) := do
  expectSymbol .openBrace
  stmtRounds stmt (← rounds)

/-- What follows a branch of a condition. -/
def alternatives (stmt : Parser Stmt) : Nat → Parser Alternatives
  | 0 => return .none
  | n + 1 => do
    if ← eatKeyword .else_ then
      if ← eatKeyword .if_ then
        let test ← expression
        let body ← stmt
        return .elseIf test body (← alternatives stmt n)
      else
        return .otherwise (← stmt)
    else
      return .none

/-- Reads an item if its mark comes next. -/
def after {α : Type} (s : Symbol) (item : Parser α) : Parser (Option α) := do
  if ← eatSymbol s then
    return some (← item)
  else
    return none

/-- A statement in which statements nest at most so many levels deep. -/
def statementWithin : Nat → Parser Stmt
  | 0 => unexpected ["expression"]
  | depth + 1 => do
    let start ← nextSpan
    match ← peek with
    | some (.symbol .openBrace) =>
      let body ← braced (statementWithin depth)
      return .block (← spanFrom start) body
    | some (.keyword .let_) =>
      advance
      let (_, n) ← name
      let type ← after .colon typeName
      let init ← after .eq expression
      expectSymbol .semicolon
      return .declare (← spanFrom start) n type init
    | some (.keyword .return_) =>
      advance
      let e ← expression
      expectSymbol .semicolon
      return .return_ (← spanFrom start) e
    | some (.keyword .discard) =>
      advance
      expectSymbol .semicolon
      return .discard (← spanFrom start)
    | some (.keyword .emit) =>
      advance
      let vertices ← do
        if ← eatSymbol .openBracket then
          list .closeBracket vertex
        else
          pure [← vertex]
      expectSymbol .semicolon
      return .emit (← spanFrom start) vertices
    | some (.keyword .for_) =>
      advance
      let parenthesized ← eatSymbol .openParen
      let (_, var) ← name
      expect (.keyword .in_)
      let first ← integer
      expectSymbol .dotDot
      let last ← integer
      if parenthesized then
        expectSymbol .closeParen
      let body ← statementWithin depth
      return .loop (← spanFrom start) var first last body
    | some (.keyword .if_) =>
      advance
      let test ← expression
      let body ← statementWithin depth
      let rest ← alternatives (statementWithin depth) (← rounds)
      return .branch (← spanFrom start) test body rest
    | next =>
      match next, ← peekSecond with
      | some (.name n), some (.symbol .eq) =>
        advance
        advance
        let e ← expression
        expectSymbol .semicolon
        return .assign (← spanFrom start) n e
      | _, _ =>
        let e ← expression
        expectSymbol .semicolon
        return .expr e

def statement : Parser Stmt := do
  statementWithin (← rounds)

/-! ## Blocks -/

/-- The value a parameter or global takes by itself. -/
def defaultValue : Parser (Option Value) :=
  after .eq do return (← literal).value

def param : Parser Param := do
  let (start, n) ← name
  expectSymbol .colon
  let type ← typeName
  let default ← defaultValue
  return { span := ← spanFrom start, name := n, type, default }

def function (kind : FunctionKind) : Parser Function := do
  let start ← nextSpan
  advance
  let (_, n) ← name
  expectSymbol .openParen
  let params ← list .closeParen param
  let returns ← after .colon typeName
  let body ← braced statement
  return { span := ← spanFrom start, kind, name := n, params, returns, body }

def global : Parser Global := do
  let start ← nextSpan
  advance
  let (_, n) ← name
  expectSymbol .colon
  let type ← typeName
  let default ← defaultValue
  expectSymbol .semicolon
  return { span := ← spanFrom start, name := n, type, default }

/-- The names of an import in front of its module, if it has any. -/
def importedNames : Parser (Option (List (Span × String))) := do
  match ← peek, ← peekSecond with
  | some (.symbol .openBrace), _ =>
    advance
    let names ← list .closeBrace name
    expect (.keyword .from_)
    return some names
  | some (.name _), some (.keyword .from_) =>
    let n ← name
    advance
    return some [n]
  | _, _ => return none

def import_ : Parser Import := do
  let start ← nextSpan
  advance
  let names ← importedNames
  let (_, module) ← name
  expectSymbol .semicolon
  return { span := ← spanFrom start, module, names }

def block : Parser Block := do
  match ← peek with
  | some (.keyword .mark) => return .function (← function .mark)
  | some (.keyword .shader) => return .function (← function .shader)
  | some (.keyword .function) => return .function (← function .function)
  | some (.keyword .global) => return .global (← global)
  | some (.keyword .import_) => return .import_ (← import_)
  | _ => unexpected ["mark", "shader", "function", "global", "import"]

def blockRounds : Nat → Parser (List Block)
  | 0 => return []
  | n + 1 => do
    match ← peek with
    | none => return []
    | some _ =>
      let b ← block
      return b :: (← blockRounds n)

/-- Blocks up to the end of the file. -/
def blocks : Parser (List Block) := do
  blockRounds (← rounds)

/-- Runs a parser on all tokens of a source text. -/
def run {α : Type} (p : Parser α) (file : Nat) (source : String) : Except ParseError α :=
  match tokens file source with
  | .error e => .error (.lexical e)
  | .ok ts =>
    match p { file, tokens := ts, last := 0, size := source.utf8ByteSize } with
    | .ok (x, _) => .ok x
    | .error e => .error e

end Parser

/-- Reads a source text as a file. -/
def File.parse (file : Nat) (source : String) : Except ParseError File :=
  Parser.run (do return ⟨← Parser.blocks⟩) file source

/-- Reads a whole source text as one expression. -/
def Expr.parse (file : Nat) (source : String) : Except ParseError Expr :=
  let whole : Parser Expr := do
    let e ← Parser.expression
    match ← Parser.peek with
    | none => return e
    | some _ => Parser.unexpected ["end of expression"]
  Parser.run whole file source

end DataMarks.Surface
