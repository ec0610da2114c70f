/-
  The grammar of expressions.

  `Grammar.Derives p ls t` says that the lexemes `ls` are a phrase of the kind `p` with the
  tree `t`. Binary operators have six levels and group to the left: a phrase of level `k` is
  one of level `k + 1`, or one of level `k`, an operator of level `k` and one of level `k + 1`.
  Above the last of these levels are operators in front of an operand, then fields behind it,
  and at last atoms. The grammar says nothing of how it is read.
-/
import DataMarks.Proofs.BareSyntax
import DataMarks.Surface.Parser

namespace DataMarks.Surface

/-- How tight an operator binds, from 0 for the loosest ones. -/
def BinaryOp.level : BinaryOp → Nat
  | or => 0
  | and => 1
  | eq | ne => 2
  | lt | le | gt | ge => 3
  | add | sub => 4
  | mul | div | rem => 5

def BinaryOp.symbol : BinaryOp → Symbol
  | or => .orOr
  | and => .andAnd
  | eq => .eqEq
  | ne => .bangEq
  | lt => .lt
  | le => .le
  | gt => .gt
  | ge => .ge
  | add => .plus
  | sub => .minus
  | mul => .star
  | div => .slash
  | rem => .percent

def UnaryOp.symbol : UnaryOp → Symbol
  | neg => .minus
  | pos => .plus
  | not => .bang

theorem BinaryOp.level_lt (op : BinaryOp) : op.level < 6 := by
  cases op <;> decide

/-- The symbols that are no operators. -/
def punctuation : List Symbol :=
  [.colon, .comma, .eq, .dot, .dotDot, .semicolon, .openBrace, .closeBrace, .openBracket,
    .closeBracket, .openParen, .closeParen]

theorem BinaryOp.symbol_not_mem (op : BinaryOp) : op.symbol ∉ punctuation := by
  cases op <;> decide

theorem UnaryOp.symbol_not_mem (op : UnaryOp) : op.symbol ∉ punctuation := by
  cases op <;> decide

theorem BinaryOp.symbol_ne {s : Symbol} (op : BinaryOp) (h : s ∈ punctuation) : op.symbol ≠ s :=
  fun hs => op.symbol_not_mem (hs ▸ h)

theorem UnaryOp.symbol_ne {s : Symbol} (op : UnaryOp) (h : s ∈ punctuation) : op.symbol ≠ s :=
  fun hs => op.symbol_not_mem (hs ▸ h)

theorem BinaryOp.symbol_injective {op op' : BinaryOp} (h : op.symbol = op'.symbol) : op = op' := by
  cases op <;> cases op' <;> first | rfl | cases h

namespace Grammar

open DataMarks.Surface.Parser (Numeral Literal)

/-- Items with commas between them; a comma may follow the last one. -/
inductive Listed {α : Type} (Item : List Lexeme → α → Prop) : List Lexeme → List α → Prop
  | nil : Listed Item [] []
  | last {ls : List Lexeme} {a : α} : Item ls a → Listed Item ls [a]
  | cons {ls rest : List Lexeme} {a : α} {as : List α} : Item ls a → Listed Item rest as →
      Listed Item (ls ++ .symbol .comma :: rest) (a :: as)

/-- A number that has its sign elsewhere. -/
inductive Unsigned (negative : Bool) : Lexeme → Numeral → Prop
  | int {digits : String} : Number.digitsValue digits.toList ≤ 2147483647 →
      Unsigned negative (.int digits) (.int negative (Number.digitsValue digits.toList))
  | float {digits : String} : Unsigned negative (.float digits)
      (.float (Numeral.sign negative * Number.ofDigits digits.toList))

/-- A number, perhaps with a minus in front. -/
inductive Signed : List Lexeme → Numeral → Prop
  | plain {l : Lexeme} {n : Numeral} : Unsigned false l n → Signed [l] n
  | negated {l : Lexeme} {n : Numeral} : Unsigned true l n → Signed [.symbol .minus, l] n

/-- A literal of an expression. A number has no sign there: a minus in front is an operator. -/
inductive Literally : List Lexeme → Literal → Prop
  | yes : Literally [.keyword .true_] (.bool true)
  | no : Literally [.keyword .false_] (.bool false)
  | number {l : Lexeme} {n : Numeral} : Unsigned false l n → Literally [l] (.number n)
  | vector {t : ValueType} {ls : List Lexeme} {ns : List Numeral} :
      t ∈ [ValueType.vector2, .vector3, .vector4] → Listed Signed ls ns →
      ns.length = t.components →
      Literally (.symbol .openBracket :: ls ++ [.symbol .closeBracket]) (.vector t ns)

/-- The kinds of phrases. -/
inductive Phrase
  /-- An expression whose binary operators outside of parentheses have at least this level; from
  level 6 on there are none. -/
  | level (k : Nat)
  /-- An atom with fields behind it. -/
  | access
  /-- A name, a call, a literal, or an expression in parentheses. -/
  | atom
  /-- What stands between the parentheses of a call. -/
  | arguments

/-- What a phrase stands for. -/
abbrev Phrase.Tree : Phrase → Type
  | level _ | access | atom => Expr
  | arguments => List Expr × List (String × Expr)

inductive Derives : (p : Phrase) → List Lexeme → p.Tree → Prop
  | operand {k : Nat} {ls : List Lexeme} {e : Expr} : k < 6 → Derives (.level (k + 1)) ls e →
      Derives (.level k) ls e
  | binary {op : BinaryOp} {ls rs : List Lexeme} {e f : Expr} : Derives (.level op.level) ls e →
      Derives (.level (op.level + 1)) rs f →
      Derives (.level op.level) (ls ++ .symbol op.symbol :: rs) (.binary nowhere op e f)
  | unary {op : UnaryOp} {ls : List Lexeme} {e : Expr} : Derives (.level 6) ls e →
      Derives (.level 6) (.symbol op.symbol :: ls) (.unary nowhere op e)
  | accessed {ls : List Lexeme} {e : Expr} : Derives .access ls e → Derives (.level 6) ls e
  | field {ls : List Lexeme} {e : Expr} {f : String} : Derives .access ls e →
      Derives .access (ls ++ [.symbol .dot, .name f]) (.field nowhere e f)
  | atom {ls : List Lexeme} {e : Expr} : Derives .atom ls e → Derives .access ls e
  | parens {ls : List Lexeme} {e : Expr} : Derives (.level 0) ls e →
      Derives .atom (.symbol .openParen :: ls ++ [.symbol .closeParen]) e
  | name {x : String} : Derives .atom [.name x] (.name nowhere x)
  | call {f : String} {ls : List Lexeme} {args : List Expr} {keywords : List (String × Expr)} :
      Derives .arguments ls (args, keywords) →
      Derives .atom (.name f :: .symbol .openParen :: ls ++ [.symbol .closeParen])
        (.call nowhere f args keywords)
  | literal {ls : List Lexeme} {l : Literal} : Literally ls l →
      Derives .atom ls (.literal nowhere l.type l.value)
  | noArguments : Derives .arguments [] ([], [])
  | lastArgument {ls : List Lexeme} {e : Expr} : Derives (.level 0) ls e →
      Derives .arguments ls ([e], [])
  | argument {ls rest : List Lexeme} {e : Expr} {args : List Expr}
      {keywords : List (String × Expr)} : Derives (.level 0) ls e →
      Derives .arguments rest (args, keywords) →
      Derives .arguments (ls ++ .symbol .comma :: rest) (e :: args, keywords)
  | lastKeyword {k : String} {ls : List Lexeme} {e : Expr} : Derives (.level 0) ls e →
      Derives .arguments (.name k :: .symbol .eq :: ls) ([], [(k, e)])
  | keyword {k : String} {ls rest : List Lexeme} {e : Expr} {keywords : List (String × Expr)} :
      Derives (.level 0) ls e → Derives .arguments rest ([], keywords) →
      Derives .arguments (.name k :: .symbol .eq :: ls ++ .symbol .comma :: rest)
        ([], (k, e) :: keywords)

end Grammar

end DataMarks.Surface
