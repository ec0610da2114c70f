/-
  Files as text.

  `Surface.File.lexemes` writes a file out: each construct in the one form the grammar has for
  it, expressions with parentheses around every operator and field. `Surface.File.text` is the
  text of these lexemes. A file can be written if it is `Writable`: its names are names, its
  literals are of a form that literals have, and what a loop repeats and a condition guards are
  blocks. Then its lexemes are spelled as such, so that the text is cut into just these.
-/
import DataMarks.Proofs.ExactDecimals
import DataMarks.Proofs.ExpressionGrammar
import DataMarks.Proofs.SpelledLexemes

namespace DataMarks

open List

open Lexer (isName)

namespace Surface

/-- Items with commas between them. -/
def commas : List (List Lexeme) → List Lexeme
  | [] => []
  | [item] => item
  | item :: items => item ++ .symbol .comma :: commas items

/-- The lexemes between a pair of symbols. -/
def enclosed (left : Symbol) (ls : List Lexeme) (right : Symbol) : List Lexeme :=
  .symbol left :: ls ++ [.symbol right]

/-! ## Values -/

def numberLexemes (x : Float) : List Lexeme :=
  (if Number.isNegative x then [.symbol .minus] else []) ++ [.float (Number.spelling x)]

def integerLexemes (n : Int) : List Lexeme :=
  (if n < 0 then [.symbol .minus] else []) ++ [.int (Nat.repr n.natAbs)]

def valueLexemes : Value → List Lexeme
  | .scalar x => numberLexemes x
  | .vector xs => enclosed .openBracket (commas (xs.map numberLexemes)) .closeBracket

/-- A literal of an expression. -/
def literalLexemes : ValueType → Value → List Lexeme
  | .bool, v => [.keyword (if v.truthy then .true_ else .false_)]
  | .int, .scalar x => [.int (Nat.repr x.toUInt64.toNat)]
  | _, v => valueLexemes v

def IsVectorOf (t : ValueType) (xs : List Float) : Prop :=
  t ∈ [ValueType.vector2, .vector3, .vector4] ∧ xs.length = t.components ∧
    ∀ x ∈ xs, x.isNaN = false

/-- A value that a literal has, perhaps with a minus in front. -/
def WritableValue : Value → Prop
  | .scalar x => x.isNaN = false
  | .vector xs => ∃ t, IsVectorOf t xs

/-- A type and value that a literal of an expression has. -/
def WritableLiteral : ValueType → Value → Prop
  | .bool, v => ∃ b, v = .ofBool b
  | .int, v => ∃ n ≤ Parser.maxInt, v = .scalar (Float.ofNat n)
  | .float, v => ∃ x : Float, v = .scalar x ∧ x.isNaN = false ∧ Number.isNegative x = false
  | t, v => ∃ xs, v = .vector xs ∧ IsVectorOf t xs

/-! ## Expressions -/

mutual

def Expr.lexemes : Expr → List Lexeme
  | .literal _ t v => literalLexemes t v
  | .name _ x => [.name x]
  | .field _ base f => enclosed .openParen (base.lexemes ++ [.symbol .dot, .name f]) .closeParen
  | .call _ f args keywords =>
    .name f :: enclosed .openParen
      (commas (Expr.argumentLexemes args ++ Expr.keywordLexemes keywords)) .closeParen
  | .unary _ op arg => enclosed .openParen (.symbol op.symbol :: arg.lexemes) .closeParen
  | .binary _ op lhs rhs =>
    enclosed .openParen (lhs.lexemes ++ .symbol op.symbol :: rhs.lexemes) .closeParen

def Expr.argumentLexemes : List Expr → List (List Lexeme)
  | [] => []
  | e :: es => e.lexemes :: Expr.argumentLexemes es

def Expr.keywordLexemes : List (String × Expr) → List (List Lexeme)
  | [] => []
  | (k, e) :: es => (.name k :: .symbol .eq :: e.lexemes) :: Expr.keywordLexemes es

end

mutual

def Expr.Writable : Expr → Prop
  | .literal _ t v => WritableLiteral t v
  | .name _ x => isName x
  | .field _ base f => base.Writable ∧ isName f
  | .call _ f args keywords =>
    isName f ∧ Expr.WritableArguments args ∧ Expr.WritableKeywords keywords
  | .unary _ _ arg => arg.Writable
  | .binary _ _ lhs rhs => lhs.Writable ∧ rhs.Writable

def Expr.WritableArguments : List Expr → Prop
  | [] => True
  | e :: es => e.Writable ∧ Expr.WritableArguments es

def Expr.WritableKeywords : List (String × Expr) → Prop
  | [] => True
  | (k, e) :: es => (isName k ∧ e.Writable) ∧ Expr.WritableKeywords es

end

/-! ## Statements -/

def Attribute.lexemes (a : Attribute) : List Lexeme :=
  .name a.name :: .symbol .colon :: a.value.lexemes

def Attribute.Writable (a : Attribute) : Prop := isName a.name ∧ a.value.Writable

def vertexLexemes (as : List Attribute) : List Lexeme :=
  enclosed .openBrace (commas (as.map Attribute.lexemes)) .closeBrace

/-- A type behind its colon, if there is one. -/
def typeLexemes : Option TypeName → List Lexeme
  | some t => [.symbol .colon, .name t.name]
  | none => []

def WritableType (t : Option TypeName) : Prop := ∀ t' ∈ t, isName t'.name

/-- An expression behind its equals sign, if there is one. -/
def initLexemes : Option Expr → List Lexeme
  | some e => .symbol .eq :: e.lexemes
  | none => []

def Stmt.IsBlock (s : Stmt) : Prop := ∃ span body, s = .block span body

mutual

def Stmt.lexemes : Stmt → List Lexeme
  | .expr e => e.lexemes ++ [.symbol .semicolon]
  | .declare _ x t init =>
    .keyword .let_ :: .name x :: typeLexemes t ++ initLexemes init ++ [.symbol .semicolon]
  | .assign _ x value => .name x :: .symbol .eq :: value.lexemes ++ [.symbol .semicolon]
  | .return_ _ value => .keyword .return_ :: value.lexemes ++ [.symbol .semicolon]
  | .discard _ => [.keyword .discard, .symbol .semicolon]
  | .emit _ vertices =>
    .keyword .emit :: enclosed .openBracket (commas (vertices.map vertexLexemes)) .closeBracket ++
      [.symbol .semicolon]
  | .loop _ x first last body =>
    .keyword .for_ :: enclosed .openParen
      (.name x :: .keyword .in_ :: integerLexemes first ++ .symbol .dotDot :: integerLexemes last)
      .closeParen ++ body.lexemes
  | .branch _ test body rest =>
    .keyword .if_ :: enclosed .openParen test.lexemes .closeParen ++ body.lexemes ++ rest.lexemes
  | .block _ body => enclosed .openBrace (Stmt.lexemesAll body) .closeBrace

def Alternatives.lexemes : Alternatives → List Lexeme
  | .none => []
  | .otherwise body => .keyword .else_ :: body.lexemes
  | .elseIf test body rest =>
    .keyword .else_ :: .keyword .if_ :: enclosed .openParen test.lexemes .closeParen ++
      body.lexemes ++ rest.lexemes

def Stmt.lexemesAll : List Stmt → List Lexeme
  | [] => []
  | s :: ss => s.lexemes ++ Stmt.lexemesAll ss

end

mutual

def Stmt.Writable : Stmt → Prop
  | .expr e => e.Writable
  | .declare _ x t init => isName x ∧ WritableType t ∧ ∀ e ∈ init, e.Writable
  | .assign _ x value => isName x ∧ value.Writable
  | .return_ _ value => value.Writable
  | .discard _ => True
  | .emit _ vertices => ∀ v ∈ vertices, ∀ a ∈ v, a.Writable
  | .loop _ x first last body =>
    isName x ∧ first.natAbs ≤ Parser.maxInt ∧ last.natAbs ≤ Parser.maxInt ∧ body.IsBlock ∧
      body.Writable
  | .branch _ test body rest => test.Writable ∧ body.IsBlock ∧ body.Writable ∧ rest.Writable
  | .block _ body => Stmt.WritableAll body

def Alternatives.Writable : Alternatives → Prop
  | .none => True
  | .otherwise body => body.IsBlock ∧ body.Writable
  | .elseIf test body rest => test.Writable ∧ body.IsBlock ∧ body.Writable ∧ rest.Writable

def Stmt.WritableAll : List Stmt → Prop
  | [] => True
  | s :: ss => s.Writable ∧ Stmt.WritableAll ss

end

/-! ## Files -/

def defaultLexemes : Option Value → List Lexeme
  | some v => .symbol .eq :: valueLexemes v
  | none => []

def Param.lexemes (p : Param) : List Lexeme :=
  .name p.name :: .symbol .colon :: .name p.type.name :: defaultLexemes p.default

def Param.Writable (p : Param) : Prop :=
  isName p.name ∧ isName p.type.name ∧ ∀ v ∈ p.default, WritableValue v

def FunctionKind.word : FunctionKind → Keyword
  | mark => .mark
  | shader => .shader
  | function => .function

def Function.lexemes (f : Function) : List Lexeme :=
  .keyword f.kind.word :: .name f.name ::
    enclosed .openParen (commas (f.params.map Param.lexemes)) .closeParen ++ typeLexemes f.returns ++
      enclosed .openBrace (Stmt.lexemesAll f.body) .closeBrace

def Function.Writable (f : Function) : Prop :=
  isName f.name ∧ (∀ p ∈ f.params, p.Writable) ∧ WritableType f.returns ∧ Stmt.WritableAll f.body

def Global.lexemes (g : Global) : List Lexeme :=
  .keyword .global :: .name g.name :: .symbol .colon :: .name g.type.name ::
    defaultLexemes g.default ++ [.symbol .semicolon]

def Global.Writable (g : Global) : Prop :=
  isName g.name ∧ isName g.type.name ∧ ∀ v ∈ g.default, WritableValue v

/-- The names of an import: nothing for all of them, one alone, or a list in braces. -/
def importLexemes : Option (List (Span × String)) → List Lexeme
  | none => []
  | some [n] => [.name n.2, .keyword .from_]
  | some names =>
    enclosed .openBrace (commas (names.map fun n => [.name n.2])) .closeBrace ++ [.keyword .from_]

def Import.lexemes (i : Import) : List Lexeme :=
  .keyword .import_ :: importLexemes i.names ++ [.name i.module, .symbol .semicolon]

def Import.Writable (i : Import) : Prop :=
  isName i.module ∧ ∀ names ∈ i.names, ∀ n ∈ names, isName n.2

def Block.lexemes : Block → List Lexeme
  | .function f => f.lexemes
  | .global g => g.lexemes
  | .import_ i => i.lexemes

def Block.Writable : Block → Prop
  | .function f => f.Writable
  | .global g => g.Writable
  | .import_ i => i.Writable

def File.lexemes (file : File) : List Lexeme := file.blocks.flatMap Block.lexemes

def File.Writable (file : File) : Prop := ∀ b ∈ file.blocks, b.Writable

/-- A file in the grammar, with blanks between the lexemes. -/
def File.text (file : File) : String := Lexeme.spaced file.lexemes

/-! ## All lexemes are spelled as such -/

def AllSpelled (ls : List Lexeme) : Prop := ∀ l ∈ ls, l.Spelled

section Spelled

variable {l : Lexeme} {ls rest : List Lexeme} {x : String}

@[simp] theorem allSpelled_nil : AllSpelled [] := by simp [AllSpelled]

@[simp] theorem allSpelled_cons : AllSpelled (l :: ls) ↔ l.Spelled ∧ AllSpelled ls := by
  simp [AllSpelled]

@[simp] theorem allSpelled_append : AllSpelled (ls ++ rest) ↔ AllSpelled ls ∧ AllSpelled rest := by
  simp [AllSpelled, or_imp, forall_and]

@[simp] theorem spelled_symbol (s : Symbol) : (Lexeme.symbol s).Spelled := trivial

@[simp] theorem spelled_keyword (k : Keyword) : (Lexeme.keyword k).Spelled := trivial

@[simp] theorem spelled_name : (Lexeme.name x).Spelled ↔ isName x = true := Iff.rfl

@[simp] theorem allSpelled_enclosed {left right : Symbol} :
    AllSpelled (enclosed left ls right) ↔ AllSpelled ls := by
  simp [enclosed]

theorem allSpelled_commas {items : List (List Lexeme)} (h : ∀ item ∈ items, AllSpelled item) :
    AllSpelled (commas items) := by
  induction items with
  | nil => exact allSpelled_nil
  | cons item items ih =>
    obtain ⟨hitem, hitems⟩ := forall_mem_cons.mp h
    cases items with
    | nil => exact hitem
    | cons item' items =>
      exact allSpelled_append.mpr ⟨hitem, allSpelled_cons.mpr ⟨trivial, ih hitems⟩⟩

theorem isDigits_repr (n : Nat) : IsDigits (Nat.repr n).toList := by
  rw [Nat.toList_repr]
  exact ⟨Nat.toDigits_ne_nil, fun c hc => Nat.isDigit_of_mem_toDigits (by decide) (by decide) hc⟩

theorem spelled_spelling (x : Float) : (Lexeme.float (Number.spelling x)).Spelled := by
  unfold Number.spelling
  split
  · exact ⟨['1'], [], ['2', '0', '4', '9'], rfl, .inl rfl,
      ⟨cons_ne_nil _ _, all_eq_true.mp rfl⟩, cons_ne_nil _ _,
      all_eq_true.mp rfl⟩
  · exact ⟨_, ['-'], ['1', '0', '7', '4'], String.toList_append, .inr rfl, isDigits_repr _,
      cons_ne_nil _ _, all_eq_true.mp rfl⟩

theorem allSpelled_number (x : Float) : AllSpelled (numberLexemes x) := by
  unfold numberLexemes
  split <;> simp [spelled_spelling]

theorem allSpelled_integer (n : Int) : AllSpelled (integerLexemes n) := by
  have hdigits : (Lexeme.int (Nat.repr n.natAbs)).Spelled := isDigits_repr _
  unfold integerLexemes
  split <;> simp [hdigits]

theorem allSpelled_value (v : Value) : AllSpelled (valueLexemes v) := by
  cases v with
  | scalar x => exact allSpelled_number x
  | vector xs =>
    rw [valueLexemes, allSpelled_enclosed]
    refine allSpelled_commas fun item hitem => ?_
    obtain ⟨x, -, rfl⟩ := mem_map.mp hitem
    exact allSpelled_number x

theorem allSpelled_literal (t : ValueType) (v : Value) : AllSpelled (literalLexemes t v) := by
  unfold literalLexemes
  split
  · simp
  · exact allSpelled_cons.mpr ⟨isDigits_repr _, allSpelled_nil⟩
  · exact allSpelled_value v

theorem allSpelled_type {t : Option TypeName} (h : WritableType t) :
    AllSpelled (typeLexemes t) := by
  cases t with
  | none => exact allSpelled_nil
  | some t => simpa [typeLexemes, WritableType] using h

theorem allSpelled_default (v : Option Value) : AllSpelled (defaultLexemes v) := by
  cases v with
  | none => exact allSpelled_nil
  | some v => simp [defaultLexemes, allSpelled_value]

end Spelled

mutual

theorem Expr.allSpelled : ∀ e : Expr, e.Writable → AllSpelled e.lexemes
  | .literal _ t v, _ => by
    rw [Expr.lexemes]
    exact allSpelled_literal t v
  | .name _ x, h => by
    rw [Expr.Writable] at h
    simpa [Expr.lexemes] using h
  | .field _ base f, h => by
    rw [Expr.Writable] at h
    simpa [Expr.lexemes, h.2] using Expr.allSpelled base h.1
  | .call _ f args keywords, h => by
    rw [Expr.Writable] at h
    rw [Expr.lexemes, allSpelled_cons, allSpelled_enclosed]
    refine ⟨h.1, allSpelled_commas fun item hitem => ?_⟩
    rcases mem_append.mp hitem with hitem | hitem
    · exact Expr.allSpelled_arguments args h.2.1 item hitem
    · exact Expr.allSpelled_keywords keywords h.2.2 item hitem
  | .unary _ op arg, h => by
    rw [Expr.Writable] at h
    simpa [Expr.lexemes] using Expr.allSpelled arg h
  | .binary _ op lhs rhs, h => by
    rw [Expr.Writable] at h
    simpa [Expr.lexemes] using And.intro (Expr.allSpelled lhs h.1) (Expr.allSpelled rhs h.2)

theorem Expr.allSpelled_arguments : ∀ es : List Expr, Expr.WritableArguments es →
    ∀ item ∈ Expr.argumentLexemes es, AllSpelled item
  | [], _ => by simp [Expr.argumentLexemes]
  | e :: es, h => by
    rw [Expr.WritableArguments] at h
    rw [Expr.argumentLexemes, forall_mem_cons]
    exact ⟨Expr.allSpelled e h.1, Expr.allSpelled_arguments es h.2⟩

theorem Expr.allSpelled_keywords : ∀ es : List (String × Expr), Expr.WritableKeywords es →
    ∀ item ∈ Expr.keywordLexemes es, AllSpelled item
  | [], _ => by simp [Expr.keywordLexemes]
  | (k, e) :: es, h => by
    rw [Expr.WritableKeywords] at h
    rw [Expr.keywordLexemes, forall_mem_cons]
    refine ⟨?_, Expr.allSpelled_keywords es h.2⟩
    simpa [h.1.1] using Expr.allSpelled e h.1.2

end

theorem allSpelled_vertex {as : List Attribute} (h : ∀ a ∈ as, a.Writable) :
    AllSpelled (vertexLexemes as) := by
  rw [vertexLexemes, allSpelled_enclosed]
  refine allSpelled_commas fun item hitem => ?_
  obtain ⟨a, ha, rfl⟩ := mem_map.mp hitem
  simpa [Attribute.lexemes, (h a ha).1] using a.value.allSpelled (h a ha).2

theorem allSpelled_init {init : Option Expr} (h : ∀ e ∈ init, e.Writable) :
    AllSpelled (initLexemes init) := by
  cases init with
  | none => exact allSpelled_nil
  | some e => simpa [initLexemes] using e.allSpelled (h e rfl)

mutual

theorem Stmt.allSpelled : ∀ s : Stmt, s.Writable → AllSpelled s.lexemes
  | .expr e, h => by
    rw [Stmt.Writable] at h
    simpa [Stmt.lexemes] using e.allSpelled h
  | .declare _ x t init, h => by
    rw [Stmt.Writable] at h
    simp [Stmt.lexemes, h.1, allSpelled_type h.2.1, allSpelled_init h.2.2]
  | .assign _ x value, h => by
    rw [Stmt.Writable] at h
    simpa [Stmt.lexemes, h.1] using value.allSpelled h.2
  | .return_ _ value, h => by
    rw [Stmt.Writable] at h
    simpa [Stmt.lexemes] using value.allSpelled h
  | .discard _, _ => by simp [Stmt.lexemes]
  | .emit _ vertices, h => by
    rw [Stmt.Writable] at h
    have hvertices : AllSpelled (commas (vertices.map vertexLexemes)) := by
      refine allSpelled_commas fun item hitem => ?_
      obtain ⟨v, hv, rfl⟩ := mem_map.mp hitem
      exact allSpelled_vertex (h v hv)
    simp [Stmt.lexemes, hvertices]
  | .loop _ x first last body, h => by
    rw [Stmt.Writable] at h
    have hbody := Stmt.allSpelled body h.2.2.2.2
    simp [Stmt.lexemes, h.1, allSpelled_integer, hbody]
  | .branch _ test body rest, h => by
    rw [Stmt.Writable] at h
    have hbody := Stmt.allSpelled body h.2.2.1
    have hrest := Alternatives.allSpelled rest h.2.2.2
    simp [Stmt.lexemes, test.allSpelled h.1, hbody, hrest]
  | .block _ body, h => by
    rw [Stmt.Writable] at h
    simpa [Stmt.lexemes] using Stmt.allSpelled_all body h

theorem Alternatives.allSpelled : ∀ rest : Alternatives, rest.Writable → AllSpelled rest.lexemes
  | .none, _ => by simp [Alternatives.lexemes]
  | .otherwise body, h => by
    rw [Alternatives.Writable] at h
    simpa [Alternatives.lexemes] using Stmt.allSpelled body h.2
  | .elseIf test body rest, h => by
    rw [Alternatives.Writable] at h
    have hbody := Stmt.allSpelled body h.2.2.1
    have hrest := Alternatives.allSpelled rest h.2.2.2
    simp [Alternatives.lexemes, test.allSpelled h.1, hbody, hrest]

theorem Stmt.allSpelled_all : ∀ ss : List Stmt, Stmt.WritableAll ss →
    AllSpelled (Stmt.lexemesAll ss)
  | [], _ => by simp [Stmt.lexemesAll]
  | s :: ss, h => by
    rw [Stmt.WritableAll] at h
    simpa [Stmt.lexemesAll] using And.intro (Stmt.allSpelled s h.1) (Stmt.allSpelled_all ss h.2)

end

theorem Function.allSpelled {f : Function} (h : f.Writable) : AllSpelled f.lexemes := by
  have hparams : AllSpelled (commas (f.params.map Param.lexemes)) := by
    refine allSpelled_commas fun item hitem => ?_
    obtain ⟨p, hp, rfl⟩ := mem_map.mp hitem
    simp [Param.lexemes, (h.2.1 p hp).1, (h.2.1 p hp).2.1, allSpelled_default]
  simp [Function.lexemes, h.1, hparams, allSpelled_type h.2.2.1, Stmt.allSpelled_all f.body h.2.2.2]

theorem allSpelled_import {names : Option (List (Span × String))}
    (h : ∀ ns ∈ names, ∀ n ∈ ns, isName n.2 = true) : AllSpelled (importLexemes names) := by
  unfold importLexemes
  split
  · exact allSpelled_nil
  · rename_i n
    simp [h [n] rfl n mem_cons_self]
  · rename_i names _
    rw [allSpelled_append, allSpelled_enclosed]
    refine ⟨allSpelled_commas fun item hitem => ?_, by simp⟩
    obtain ⟨n, hn, rfl⟩ := mem_map.mp hitem
    simpa using h names rfl n hn

theorem Block.allSpelled {b : Block} (h : b.Writable) : AllSpelled b.lexemes := by
  cases b with
  | function f => exact Function.allSpelled h
  | global g => simp [Block.lexemes, Global.lexemes, h.1, h.2.1, allSpelled_default]
  | import_ i => simp [Block.lexemes, Import.lexemes, h.1, allSpelled_import h.2]

theorem File.allSpelled {file : File} (h : file.Writable) : AllSpelled file.lexemes := by
  intro l hl
  obtain ⟨b, hb, hl⟩ := mem_flatMap.mp hl
  exact Block.allSpelled (h b hb) l hl

end Surface

end DataMarks
