/-
  Every expression of the grammar is read, and its tree is the one it is read as.

  A phrase may be followed by more, so the statement is about the lexemes of a phrase with a
  rest behind them that cannot extend the phrase. The grammar groups to the left and the parser
  reads in rounds, so for operators and fields it is stated what comes of all rounds that are
  left behind the phrase: these start with the tree of the phrase (`Phrase.Readable`).
-/
import DataMarks.Proofs.ParsedExpressions
import Mathlib.Data.List.Forall2

namespace DataMarks.Surface

open DataMarks.Surface.Parser List DataMarks.Surface.Expr

namespace Parser

/-- Run at `i`, the parser gives a result, and this satisfies `Q` with the input left. -/
abbrev Succeeds {α : Type} (i : Input) (Q : α → Input → Prop) (p : Parser α) : Prop :=
  Ensures i Q (fun _ => False) p

namespace Succeeds

variable {α : Type} {i : Input} {Q : α → Input → Prop} {p : Parser α}

theorem exists_ok (h : Succeeds i Q p) : ∃ a r, p i = .ok (a, r) ∧ Q a r := by
  cases hp : p i with
  | error e => exact ((ensures_of_error hp).mp h).elim
  | ok r => exact ⟨r.1, r.2, rfl, (ensures_of_ok hp).mp h⟩

theorem ensures (h : Succeeds i Q p) (E : ParseError → Prop) : Ensures i Q E p := by
  obtain ⟨a, r, hp, hQ⟩ := h.exists_ok
  exact (ensures_of_ok hp).mpr hQ

end Succeeds

/-- A parser that reads what `P` describes in front of any `Rest`, and gives what `S` allows. -/
def Accepts {α β : Type} (P : List Lexeme → β → Prop) (Rest : List Lexeme → Prop)
    (S : β → α → Prop) (p : Parser α) : Prop :=
  ∀ ls b, P ls b → ∀ i rest, i.lexemes = ls ++ rest → Rest rest →
    Succeeds i (fun a r => r.lexemes = rest ∧ S b a) p

end Parser

variable {i : Input}

namespace Grammar

/-! ## Lists -/

/-- The phrase has a first lexeme, and it is not `l`. -/
def StartsOtherThan (l : Lexeme) (ls : List Lexeme) : Prop :=
  ∃ first more, ls = first :: more ∧ first ≠ l

variable {l : Lexeme} {ls rest : List Lexeme}

theorem StartsOtherThan.head? (h : StartsOtherThan l ls) : (ls ++ rest).head? ≠ some l := by
  obtain ⟨first, more, rfl, hfirst⟩ := h
  simpa using hfirst

theorem StartsOtherThan.length_pos (h : StartsOtherThan l ls) : 0 < ls.length := by
  obtain ⟨first, more, rfl, -⟩ := h
  exact Nat.succ_pos _

/-- What may stand behind an item of a list. -/
def EndsItem (close : Symbol) (rest : List Lexeme) : Prop :=
  rest.head? = some (.symbol .comma) ∨ rest.head? = some (.symbol close)

theorem accepts_list {α β : Type} {P : List Lexeme → β → Prop} {S : β → α → Prop}
    {item : Parser α} {close : Symbol} (hclose : close ≠ .comma)
    (hstarts : ∀ ls b, P ls b → StartsOtherThan (.symbol close) ls)
    (hitem : Accepts P (EndsItem close) S item) :
    Accepts (fun ls bs => ∃ inner, ls = inner ++ [.symbol close] ∧ Listed P inner bs)
      (fun _ => True) (Forall₂ S) (list close item) := by
  have hrounds : ∀ inner bs, Listed P inner bs → ∀ i rest n,
      i.lexemes = inner ++ .symbol close :: rest → i.lexemes.length < n →
      Succeeds i (fun as r => r.lexemes = rest ∧ Forall₂ S bs as)
        (listRounds close item n) := by
    intro inner bs hlisted
    induction hlisted with
    | nil =>
      intro i rest n hi hn
      obtain ⟨n, rfl⟩ : ∃ n', n = n' + 1 := ⟨n - 1, by omega⟩
      exact .bind (.eatNext hi fun hskip => .pure ⟨hskip, .nil⟩)
    | last hb =>
      intro i rest n hi hn
      obtain ⟨n, rfl⟩ : ∃ n', n = n' + 1 := ⟨n - 1, by omega⟩
      refine .bind (.eatOther (hi ▸ (hstarts _ _ hb).head?) ?_)
      refine .seq (hitem _ _ hb i _ hi (.inr rfl)) fun a m hm => ?_
      obtain ⟨hm, ha⟩ := hm
      refine .bind (.eatOther (by rw [hm]; simpa using hclose) ?_)
      exact .bind (.expectNext hm fun hskip => .pure ⟨hskip, .cons ha .nil⟩)
    | cons hb _ ih =>
      rename_i ls inner b bs _
      intro i rest n hi hn
      obtain ⟨n, rfl⟩ : ∃ n', n = n' + 1 := ⟨n - 1, by omega⟩
      rw [append_assoc] at hi
      refine .bind (.eatOther (hi ▸ (hstarts _ _ hb).head?) ?_)
      refine .seq (hitem _ _ hb i _ hi (.inl rfl)) fun a m hm => ?_
      obtain ⟨hm, ha⟩ := hm
      refine .bind (.eatNext hm fun (hskip : _ = inner ++ .symbol close :: rest) => ?_)
      have hpos := (hstarts _ _ hb).length_pos
      have hlength : m.skip.lexemes.length < n := by
        rw [hskip]
        rw [hi] at hn
        simp only [length_append, length_cons] at hn ⊢
        omega
      refine .seq (ih m.skip rest n hskip hlength) fun as r hr => .pure ?_
      exact ⟨hr.1, .cons ha hr.2⟩
  rintro _ bs ⟨inner, rfl, hlisted⟩ i rest hi -
  refine .bind (.rounds (hrounds inner bs hlisted i rest _ ?_ (Nat.lt_succ_self _)))
  rw [hi]
  simp

/-! ## Literals -/

theorem accepts_unsigned {negative : Bool} {n : Numeral} (h : Unsigned negative l n)
    (hi : i.lexemes = (if negative then [.symbol .minus] else []) ++ l :: rest) :
    Succeeds i (fun n' r => r.lexemes = rest ∧ n = n') number := by
  have hminus : l ≠ .symbol .minus := by
    cases h <;> simp
  refine .seq (R := fun negative' m => negative' = negative ∧ m.lexemes = l :: rest) ?_ ?_
  · cases negative with
    | false => exact .eatOther (by rw [hi]; simpa using hminus) ⟨rfl, hi⟩
    | true => exact .eatNext hi fun hskip => ⟨rfl, hskip⟩
  · rintro _ m ⟨rfl, hm⟩
    refine .bind (.peekNext hm ?_)
    cases h with
    | int hmax =>
      exact .bind (.nextSpan (.bind (.advanceNext hm fun hskip =>
        .ite (fun _ => .pure ⟨hskip, rfl⟩) fun hno => absurd hmax hno)))
    | float => exact .bind (.advanceNext hm fun hskip => .pure ⟨hskip, rfl⟩)

theorem accepts_number : Accepts Signed (fun _ => True) Eq number := by
  intro ls n hn i rest hi _
  cases hn with
  | plain hn => exact accepts_unsigned hn hi
  | negated hn => exact accepts_unsigned hn hi

theorem Signed.starts {n : Numeral} (h : Signed ls n) :
    StartsOtherThan (.symbol .closeBracket) ls := by
  cases h with
  | plain hn => cases hn <;> exact ⟨_, _, rfl, by simp⟩
  | negated hn => exact ⟨_, _, rfl, by simp⟩

theorem vectorType?_components {t : ValueType}
    (h : t ∈ [ValueType.vector2, .vector3, .vector4]) : vectorType? t.components = some t := by
  simp only [mem_cons, not_mem_nil, or_false] at h
  rcases h with rfl | rfl | rfl <;> rfl

theorem accepts_literal : Accepts Literally (fun _ => True) Eq literal := by
  intro ls l hl i rest hi _
  refine .bind (.nextSpan (.bind (.peek ?_)))
  cases hl with
  | yes =>
    rw [hi]
    exact .bind (.advanceNext hi fun hskip => .pure ⟨hskip, rfl⟩)
  | no =>
    rw [hi]
    exact .bind (.advanceNext hi fun hskip => .pure ⟨hskip, rfl⟩)
  | number hn =>
    have hnumber := accepts_unsigned hn hi
    rw [hi]
    cases hn with
    | int hmax => exact .seq hnumber fun n m hm => .pure ⟨hm.1, congrArg _ hm.2⟩
    | float => exact .seq hnumber fun n m hm => .pure ⟨hm.1, congrArg _ hm.2⟩
  | vector ht hns hlength =>
    rename_i t ls ns
    rw [hi]
    refine .bind (.advanceNext hi fun hskip => .seq (accepts_list (by decide)
      (fun _ _ h => h.starts) (fun ls n hn i rest hi _ => accepts_number ls n hn i rest hi trivial)
      _ ns ⟨ls, rfl, hns⟩ i.skip rest hskip trivial) fun ns' m hm => ?_)
    obtain ⟨hm, hsame⟩ := hm
    obtain rfl := forall₂_eq_eq_eq ▸ hsame
    rw [hlength, vectorType?_components ht]
    exact .pure ⟨hm, rfl⟩

/-! ## What expressions start with, and what ends them -/

/-- The first lexeme ends no list of arguments, and with the second one it does not look like an
argument by keyword. -/
def StartsArgument (ls : List Lexeme) : Prop :=
  ∃ first more, ls = first :: more ∧ first ≠ .symbol .closeParen ∧
    ∀ x, first = .name x → more.head? ≠ some (.symbol .eq)

namespace StartsArgument

variable {ls rest : List Lexeme} (h : StartsArgument ls)
include h

theorem append (hrest : rest.head? ≠ some (.symbol .eq)) : StartsArgument (ls ++ rest) := by
  obtain ⟨first, more, rfl, hfirst, hmore⟩ := h
  refine ⟨first, more ++ rest, rfl, hfirst, fun x hx => ?_⟩
  cases more with
  | nil => exact hrest
  | cons l more => exact hmore x hx

theorem head?_append : (ls ++ rest).head? = ls.head? := by
  obtain ⟨first, more, rfl, -⟩ := h
  rfl

theorem head?_ne : ls.head? ≠ some (.symbol .closeParen) := by
  obtain ⟨first, more, rfl, hfirst, -⟩ := h
  simpa using hfirst

theorem not_keyword {k : String} (hk : ls.head? = some (.name k))
    (heq : ls[1]? = some (.symbol .eq)) : False := by
  obtain ⟨first, more, rfl, -, hmore⟩ := h
  refine hmore k (Option.some.inj hk) ?_
  rwa [← head?_drop] at heq

end StartsArgument

/-- What a phrase starts with. Where an operator may stand in front of an operand, the operand
itself starts with none. -/
def Phrase.Starts : Phrase → List Lexeme → Prop
  | level _, ls => StartsArgument ls
  | access, ls | atom, ls => StartsArgument ls ∧ unaryOp? ls.head? = none
  | arguments, _ => True

theorem startsArgument_cons {first : Lexeme} {more : List Lexeme}
    (hfirst : first ≠ .symbol .closeParen) (hname : ∀ x, first ≠ .name x) :
    StartsArgument (first :: more) :=
  ⟨first, more, rfl, hfirst, fun x hx => absurd hx (hname x)⟩

theorem Literally.starts {l : Literal} (h : Literally ls l) :
    StartsArgument ls ∧ unaryOp? ls.head? = none := by
  cases h with
  | yes => exact ⟨startsArgument_cons (by simp) (by simp), rfl⟩
  | no => exact ⟨startsArgument_cons (by simp) (by simp), rfl⟩
  | number hn => cases hn <;> exact ⟨startsArgument_cons (by simp) (by simp), rfl⟩
  | vector ht hns hlength => exact ⟨startsArgument_cons (by simp) (by simp), rfl⟩

theorem Derives.starts {p : Phrase} {t : p.Tree} (h : Derives p ls t) : p.Starts ls := by
  induction h with
  | operand _ _ ih => exact ih
  | binary _ _ ihe ihf =>
    exact StartsArgument.append ihe (by simpa using BinaryOp.symbol_ne _ (by decide))
  | unary _ ih =>
    exact startsArgument_cons (by simpa using UnaryOp.symbol_ne _ (by decide)) (by simp)
  | accessed _ ih => exact ih.1
  | field _ ih => exact ⟨ih.1.append (by simp), by rw [ih.1.head?_append]; exact ih.2⟩
  | atom _ ih => exact ih
  | parens _ _ => exact ⟨startsArgument_cons (by simp) (by simp), rfl⟩
  | name => exact ⟨⟨_, _, rfl, by simp, by simp⟩, rfl⟩
  | call _ _ => exact ⟨⟨_, _, rfl, by simp, by simp⟩, rfl⟩
  | literal hl => exact hl.starts
  | noArguments => trivial
  | lastArgument _ _ => trivial
  | argument _ _ _ _ => trivial
  | lastKeyword _ _ => trivial
  | keyword _ _ _ _ => trivial

/-- Nothing that extends an expression of level `k` comes next. -/
structure Stops (k : Nat) (rest : List Lexeme) : Prop where
  dot : rest.head? ≠ some (.symbol .dot)
  openParen : rest.head? ≠ some (.symbol .openParen)
  operator : ∀ op : BinaryOp, rest.head? = some (.symbol op.symbol) → op.level < k

theorem Stops.mono {k k' : Nat} (h : Stops k rest) (hk : k ≤ k') : Stops k' rest :=
  ⟨h.dot, h.openParen, fun op hop => Nat.lt_of_lt_of_le (h.operator op hop) hk⟩

theorem stops_operator (op : BinaryOp) (rest : List Lexeme) :
    Stops (op.level + 1) (.symbol op.symbol :: rest) where
  dot := by simpa using op.symbol_ne (by decide)
  openParen := by simpa using op.symbol_ne (by decide)
  operator := by
    intro op' hop
    have hsymbol : op.symbol = op'.symbol := by simpa using hop
    rw [BinaryOp.symbol_injective hsymbol]
    exact Nat.lt_succ_self _

theorem stops_punctuation {s : Symbol} (h : s ∈ punctuation) (hdot : s ≠ .dot)
    (hparen : s ≠ .openParen) (k : Nat) (rest : List Lexeme) : Stops k (.symbol s :: rest) where
  dot := by simpa using hdot
  openParen := by simpa using hparen
  operator := by
    intro op hop
    have hsymbol : s = op.symbol := by simpa using hop
    exact absurd hsymbol.symm (op.symbol_ne h)

/-! ## Reading a phrase -/

/-- The rounds for operators of level `k` that are left behind the operand `e`. -/
def extend (depth k n : Nat) (e : Expr) : Parser Expr :=
  match levels[k]? with
  | some ops => chain ops (levelWithin depth (k + 1)) n e
  | none => pure e

/-- How a phrase is read that has `rest` behind it, where parentheses may nest deep enough. -/
def Phrase.Readable : (p : Phrase) → List Lexeme → p.Tree → Prop
  | level k, ls, t => ∀ depth i rest (Q : Expr → Input → Prop), i.lexemes = ls ++ rest →
      i.lexemes.length ≤ depth → Stops (k + 1) rest →
      (∀ m e n, m.lexemes = rest → e.bare = t → rest.length < n →
        Succeeds m Q (extend depth k n e)) →
      Succeeds i Q (levelWithin depth k)
  | access, ls, t => ∀ depth i rest (Q : Expr → Input → Prop), i.lexemes = ls ++ rest →
      i.lexemes.length ≤ depth → rest.head? ≠ some (.symbol .openParen) →
      (∀ m e n, m.lexemes = rest → e.bare = t → rest.length < n → Succeeds m Q (fields n e)) →
      Succeeds i Q (accessWithin depth)
  | atom, ls, t => ∀ depth i rest, i.lexemes = ls ++ rest → i.lexemes.length ≤ depth →
      rest.head? ≠ some (.symbol .openParen) →
      Succeeds i (fun e r => r.lexemes = rest ∧ e.bare = t) (primary (expressionWithin depth))
  | arguments, ls, t => ∀ depth i rest n (args : List Expr) (keywords : List (String × Expr)),
      i.lexemes = ls ++ .symbol .closeParen :: rest → i.lexemes.length < depth →
      i.lexemes.length < n → (keywords = [] ∨ t.1 = []) →
      Succeeds i (fun r m => m.lexemes = rest ∧ Joined args keywords t r)
        (argumentRounds (expressionWithin depth) n args keywords)

section Levels

variable {depth k n : Nat} {ls rest : List Lexeme} {t e : Expr} {i m : Input}
  {Q : Expr → Input → Prop}

/-- Where no operator of the level comes next, the operand is all. -/
theorem ensures_extend {E : ParseError → Prop} (hstops : Stops k m.lexemes) (h : Q e m) :
    Ensures m Q E (extend depth k n e) := by
  unfold extend
  split
  · rename_i ops hops
    cases n with
    | zero => exact .pure h
    | succ n =>
      refine .bind (.peek ?_)
      split
      · exact .pure h
      · rename_i op hop
        obtain ⟨hnext, rfl⟩ := (operator?_eq_some_iff hops).mp hop
        exact absurd (hstops.operator op hnext) (Nat.lt_irrefl _)
  · exact .pure h

/-- An expression is read as a whole if nothing that extends it comes next. -/
theorem Phrase.Readable.level (h : (Phrase.level k).Readable ls t) (hi : i.lexemes = ls ++ rest)
    (hdepth : i.lexemes.length ≤ depth) (hstops : Stops k rest) :
    Succeeds i (fun e r => r.lexemes = rest ∧ e.bare = t) (levelWithin depth k) := by
  refine h depth i rest _ hi hdepth (hstops.mono (Nat.le_succ k)) fun m e n hm he _ => ?_
  exact ensures_extend (hm ▸ hstops) ⟨hm, he⟩

theorem readable_operand (hk : k < 6) (h : (Phrase.level (k + 1)).Readable ls t) :
    (Phrase.level k).Readable ls t := by
  intro depth i rest Q hi hdepth hstops hcontinue
  obtain ⟨ops, hops, hlevel⟩ := levelWithin_of_lt depth hk
  rw [hlevel]
  refine .seq (h.level hi hdepth hstops) fun e m hm => .bind (.rounds ?_)
  obtain ⟨hm, he⟩ := hm
  have hrounds := hcontinue m e (m.lexemes.length + 1) hm he (by rw [hm]; exact Nat.lt_succ_self _)
  rwa [extend, hops] at hrounds

/-- The operator in front of the right operand takes one of the rounds. -/
theorem readable_binary {op : BinaryOp} {rs : List Lexeme} {u : Expr}
    (he : (Phrase.level op.level).Readable ls t) (hu : (Phrase.level (op.level + 1)).Readable rs u) :
    (Phrase.level op.level).Readable (ls ++ .symbol op.symbol :: rs) (.binary nowhere op t u) := by
  intro depth i rest Q hi hdepth hstops hcontinue
  rw [append_assoc] at hi
  refine he depth i _ Q hi hdepth (stops_operator op _) fun m e n hm hbare hn => ?_
  obtain ⟨ops, hops, -⟩ := levels_drop op.level_lt
  obtain ⟨n, rfl⟩ : ∃ n', n = n' + 1 := ⟨n - 1, by omega⟩
  rw [extend, hops]
  have hnext : m.lexemes.head? = some (.symbol op.symbol) := by
    rw [hm]
    rfl
  have hskip : m.skip.lexemes = rs ++ rest := Input.lexemes_skip_of_cons hm
  have hlength : i.lexemes.length = ls.length + (m.skip.lexemes.length + 1) := by
    rw [hi, hskip]
    simp
  refine .bind (.peek ?_)
  rw [(operator?_eq_some_iff hops).mpr ⟨hnext, rfl⟩]
  refine .bind (.advance (.seq (hu.level hskip (by omega) hstops) fun f q hq => ?_))
  obtain ⟨hq, hf⟩ := hq
  have hrounds := hcontinue q (.binary (e.span.merge f.span) op e f) n hq
    (by rw [bare, hbare, hf]) (by simp at hn; omega)
  rwa [extend, hops] at hrounds

/-- All operators in front of an operand are read before it, and the last one is its parent. -/
theorem succeeds_unary_iff {operand : Parser Expr} : Succeeds i Q (unary operand) ↔
    Succeeds i (fun ops m => Succeeds m
        (fun e r => Q (ops.foldr (fun s e => .unary (s.1.merge e.span) s.2 e) e) r) operand)
      (signs (i.lexemes.length + 1)) := by
  rw [Input.length_lexemes]
  refine (ensures_bind_iff (p := rounds)).trans ((ensures_bind_iff (p := signs _)).trans ?_)
  exact ⟨fun h => h.mono fun ops m hm => ensures_bind_iff.mp hm,
    fun h => h.mono fun ops m hm => .bind hm⟩

theorem readable_unary {op : UnaryOp} (h : (Phrase.level 6).Readable ls t) :
    (Phrase.level 6).Readable (.symbol op.symbol :: ls) (.unary nowhere op t) := by
  intro depth i rest Q hi hdepth hstops hcontinue
  have hnext : i.lexemes.head? = some (.symbol op.symbol) := by
    rw [hi]
    rfl
  have hskip : i.skip.lexemes = ls ++ rest := Input.lexemes_skip_of_cons hi
  have hlength : i.lexemes.length = i.skip.lexemes.length + 1 := by
    rw [Input.lexemes_eq_cons hnext, length_cons]
  have hoperand : Succeeds i.skip (fun e r => Q (.unary (i.here.merge e.span) op e) r)
      (unary (accessWithin depth)) :=
    h depth i.skip rest _ hskip (by omega) hstops fun m e n hm he hn =>
      hcontinue m (.unary (i.here.merge e.span) op e) n hm (by rw [bare, he]) hn
  rw [levelWithin_six, succeeds_unary_iff, hlength]
  refine .bind (.peek ?_)
  rw [unaryOp?_eq_some_iff.mpr hnext]
  refine .bind (.nextSpan (.bind (.advance ?_)))
  exact .seq (succeeds_unary_iff.mp hoperand) fun ops m hm => .pure hm

theorem readable_accessed (hstarts : Phrase.access.Starts ls) (h : Phrase.access.Readable ls t) :
    (Phrase.level 6).Readable ls t := by
  intro depth i rest Q hi hdepth hstops hcontinue
  have hnext : unaryOp? i.lexemes.head? = none := by
    rw [hi, hstarts.1.head?_append]
    exact hstarts.2
  rw [levelWithin_six, succeeds_unary_iff]
  refine .bind (.peek ?_)
  rw [hnext]
  refine .pure (h depth i rest Q hi hdepth hstops.openParen fun m e n hm he hn => ?_)
  obtain ⟨n, rfl⟩ : ∃ n', n = n' + 1 := ⟨n - 1, by omega⟩
  refine .bind (.eatOther (hm ▸ hstops.dot) (.pure ?_))
  exact hcontinue m e (n + 1) hm he hn

/-! ## Fields and atoms -/

theorem readable_field {f : String} (h : Phrase.access.Readable ls t) :
    Phrase.access.Readable (ls ++ [.symbol .dot, .name f]) (.field nowhere t f) := by
  intro depth i rest Q hi hdepth hparen hcontinue
  rw [append_assoc] at hi
  refine h depth i _ Q hi hdepth (by simp) fun m e n hm he hn => ?_
  obtain ⟨n, rfl⟩ : ∃ n', n = n' + 1 := ⟨n - 1, by omega⟩
  refine .bind (.eatNext hm fun hname => .bind (.nameNext hname fun hskip => ?_))
  refine hcontinue _ _ n hskip (by rw [bare, he]) ?_
  simp at hn
  omega

theorem readable_atom (h : Phrase.atom.Readable ls t) : Phrase.access.Readable ls t := by
  intro depth i rest Q hi hdepth hparen hcontinue
  refine .seq (h depth i rest hi hdepth hparen) fun e m hm => .bind (.rounds ?_)
  exact hcontinue m e _ hm.1 hm.2 (by rw [hm.1]; exact Nat.lt_succ_self _)

theorem readable_name {x : String} : Phrase.atom.Readable [.name x] (.name nowhere x) := by
  intro depth i rest hi hdepth hparen
  refine .bind (.nextSpan (.bind (.peekNext hi (.bind (.advanceNext hi fun hskip => ?_)))))
  exact .bind (.eatOther (hskip ▸ hparen) (.pure ⟨hskip, rfl⟩))

theorem readable_literal {l : Literal} (h : Literally ls l) :
    Phrase.atom.Readable ls (.literal nowhere l.type l.value) := by
  intro depth i rest hi hdepth hparen
  have hliteral := accepts_literal ls l h i rest hi trivial
  have hnode : Succeeds i (fun (e : Expr) r => r.lexemes = rest ∧
      e.bare = .literal nowhere l.type l.value) (do
        let l ← literal
        return .literal (← spanFrom i.here) l.type l.value) := by
    refine .seq hliteral fun l' m hm => .bind (.spanFrom (.pure ⟨hm.1, ?_⟩))
    rw [bare, hm.2]
  refine .bind (.nextSpan (.bind (.peek ?_)))
  rw [hi]
  cases h with
  | yes => exact hnode
  | no => exact hnode
  | number hn => cases hn <;> exact hnode
  | vector ht hns hlength => exact hnode

/-- In front of what ends it, an expression is read as a whole. -/
theorem Phrase.Readable.expression (h : (Phrase.level 0).Readable ls t)
    (hi : i.lexemes = ls ++ rest) (hdepth : i.lexemes.length < depth) (hstops : Stops 0 rest) :
    Succeeds i (fun e r => r.lexemes = rest ∧ e.bare = t) (expressionWithin depth) := by
  obtain ⟨depth, rfl⟩ : ∃ d, depth = d + 1 := ⟨depth - 1, by omega⟩
  rw [expressionWithin_succ]
  exact h.level hi (by omega) hstops

theorem readable_parens (h : (Phrase.level 0).Readable ls t) :
    Phrase.atom.Readable (.symbol .openParen :: ls ++ [.symbol .closeParen]) t := by
  intro depth i rest hi hdepth _
  have hskip : i.skip.lexemes = ls ++ .symbol .closeParen :: rest := by
    rw [Input.lexemes_skip_of_cons hi]
    simp
  have hlength : i.lexemes.length = i.skip.lexemes.length + 1 := by
    rw [hi, hskip]
    simp
  refine .bind (.nextSpan (.bind (.peekNext hi (.bind (.advance (.seq (h.expression hskip (by omega)
    (stops_punctuation (by decide) (by decide) (by decide) 0 _)) fun e m hm => ?_))))))
  exact .bind (.expectNext hm.1 fun hend => .pure ⟨hend, hm.2⟩)

theorem readable_call {f : String} {args : List Expr} {keywords : List (String × Expr)}
    (h : Phrase.arguments.Readable ls (args, keywords)) :
    Phrase.atom.Readable (.name f :: .symbol .openParen :: ls ++ [.symbol .closeParen])
      (.call nowhere f args keywords) := by
  intro depth i rest hi hdepth _
  have hskip : i.skip.lexemes = .symbol .openParen :: (ls ++ .symbol .closeParen :: rest) := by
    rw [Input.lexemes_skip_of_cons hi]
    simp
  have hinner : i.skip.skip.lexemes = ls ++ .symbol .closeParen :: rest :=
    Input.lexemes_skip_of_cons hskip
  have hlength : i.lexemes.length = i.skip.skip.lexemes.length + 2 := by
    rw [hi, hinner]
    simp
  refine .bind (.nextSpan (.bind (.peekNext hi (.bind (.advance (.bind (.eatNext hskip fun _ =>
    .seq (.bind (.rounds (h depth i.skip.skip rest _ [] [] hinner (by omega) (Nat.lt_succ_self _)
      (.inl rfl)))) fun r m hm => ?_)))))))
  obtain ⟨hrest, hargs, hkeywords⟩ := hm
  refine .bind (.spanFrom (.pure ⟨hrest, ?_⟩))
  rw [bare, bareAll_eq_map, bareKeywords_eq_map, hargs, hkeywords]
  rfl

end Levels

/-! ## Arguments -/

section Arguments

variable {depth n : Nat} {ls rest : List Lexeme} {t e : Expr} {k : String} {i m : Input}
  {args more : List Expr} {keywords moreKeywords : List (String × Expr)}
  {Q : List Expr × List (String × Expr) → Input → Prop}

theorem EndsItem.stops {close : Symbol} (h : EndsItem close rest) (hclose : close ∈ punctuation)
    (hdot : close ≠ .dot) (hparen : close ≠ .openParen) : Stops 0 rest := by
  cases rest with
  | nil => simp [EndsItem] at h
  | cons l rest =>
    rcases h with h | h
    · obtain rfl : l = .symbol .comma := by simpa using h
      exact stops_punctuation (by decide) (by decide) (by decide) 0 rest
    · obtain rfl : l = .symbol close := by simpa using h
      exact stops_punctuation hclose hdot hparen 0 rest

theorem succeeds_argument (h : (Phrase.level 0).Readable ls t) (hstarts : StartsArgument ls)
    (hi : i.lexemes = ls ++ rest) (hrest : EndsItem .closeParen rest)
    (hdepth : i.lexemes.length < depth)
    (hbehind : ∀ m e, m.lexemes = rest → e.bare = t →
      Succeeds m Q (argumentsBehind (expressionWithin depth) n (e :: args) [])) :
    Succeeds i Q (argumentRounds (expressionWithin depth) (n + 1) args []) := by
  have hfirst : StartsArgument i.lexemes := by
    rw [hi]
    refine hstarts.append fun heq => ?_
    rcases hrest with hrest | hrest <;> simp [heq] at hrest
  have hexpr := h.expression hi hdepth (hrest.stops (by decide) (by decide) (by decide))
  refine .bind (.eatOther hfirst.head?_ne (.bind (.peek (.bind (.peekSecond ?_)))))
  dsimp only
  split
  · rename_i k hname heq
    exact (hfirst.not_keyword hname heq).elim
  · exact .seq hexpr fun e m hm => .bind (.pure (hbehind m e hm.1 hm.2))

theorem succeeds_keyword (h : (Phrase.level 0).Readable ls t)
    (hi : i.lexemes = .name k :: .symbol .eq :: (ls ++ rest)) (hrest : EndsItem .closeParen rest)
    (hdepth : i.lexemes.length < depth)
    (hbehind : ∀ m e, m.lexemes = rest → e.bare = t →
      Succeeds m Q (argumentsBehind (expressionWithin depth) n args ((k, e) :: keywords))) :
    Succeeds i Q (argumentRounds (expressionWithin depth) (n + 1) args keywords) := by
  have hskip : i.skip.skip.lexemes = ls ++ rest :=
    Input.lexemes_skip_of_cons (Input.lexemes_skip_of_cons hi)
  have hlength : i.lexemes.length = i.skip.skip.lexemes.length + 2 := by
    rw [hi, hskip]
    rfl
  have hexpr := h.expression hskip (show _ < depth by omega)
    (hrest.stops (by decide) (by decide) (by decide))
  refine .bind (.eatOther (by simp [hi]) (.bind (.peek (.bind (.peekSecond ?_)))))
  rw [hi]
  refine .bind (.advance (.bind (.advance (.seq hexpr fun e m hm => ?_))))
  exact .bind (.pure (hbehind m e hm.1 hm.2))

theorem succeeds_lastBehind {expr : Parser Expr} (hm : m.lexemes = .symbol .closeParen :: rest)
    (h : m.skip.lexemes = rest → Q (args.reverse, keywords.reverse) m.skip) :
    Succeeds m Q (argumentsBehind expr n args keywords) :=
  .bind (.eatOther (by simp [hm]) (.bind (.expectNext hm fun hskip => .pure (h hskip))))

theorem readable_noArguments : Phrase.arguments.Readable [] ([], []) := by
  intro depth i rest n args keywords hi hdepth hn _
  obtain ⟨n, rfl⟩ : ∃ n', n = n' + 1 := ⟨n - 1, by omega⟩
  exact .bind (.eatNext hi fun hskip => .pure ⟨hskip, joined_nil⟩)

theorem readable_lastArgument (h : (Phrase.level 0).Readable ls t) (hstarts : StartsArgument ls) :
    Phrase.arguments.Readable ls ([t], []) := by
  intro depth i rest n args keywords hi hdepth hn hkeywords
  obtain ⟨n, rfl⟩ : ∃ n', n = n' + 1 := ⟨n - 1, by omega⟩
  obtain rfl : keywords = [] := hkeywords.resolve_right (by simp)
  refine succeeds_argument h hstarts hi (.inr rfl) hdepth fun m e hm he => ?_
  exact succeeds_lastBehind hm fun hskip => ⟨hskip, he ▸ joined_nil.argument⟩

theorem readable_lastKeyword (h : (Phrase.level 0).Readable ls t) :
    Phrase.arguments.Readable (.name k :: .symbol .eq :: ls) ([], [(k, t)]) := by
  intro depth i rest n args keywords hi hdepth hn _
  obtain ⟨n, rfl⟩ : ∃ n', n = n' + 1 := ⟨n - 1, by omega⟩
  refine succeeds_keyword h hi (.inr rfl) hdepth fun m e hm he => ?_
  exact succeeds_lastBehind hm fun hskip => ⟨hskip, he ▸ joined_nil.keyword⟩

variable {ls' : List Lexeme}

theorem readable_argument (h : (Phrase.level 0).Readable ls t) (hstarts : StartsArgument ls)
    (hmore : Phrase.arguments.Readable ls' (more, moreKeywords)) :
    Phrase.arguments.Readable (ls ++ .symbol .comma :: ls') (t :: more, moreKeywords) := by
  intro depth i rest n args keywords hi hdepth hn hkeywords
  obtain ⟨n, rfl⟩ : ∃ n', n = n' + 1 := ⟨n - 1, by omega⟩
  obtain rfl : keywords = [] := hkeywords.resolve_right (by simp)
  rw [append_assoc] at hi
  refine succeeds_argument h hstarts hi (.inl rfl) hdepth fun m e hm he => ?_
  refine .bind (.eatNext hm fun hskip => ?_)
  have hlength : i.lexemes.length = ls.length + (m.skip.lexemes.length + 1) := by
    rw [hi, hskip]
    simp
  refine (hmore depth m.skip rest n (e :: args) [] hskip (by omega) (by omega)
    (.inl rfl)).mono fun r q hr => ?_
  exact ⟨hr.1, he ▸ hr.2.argument⟩

theorem readable_keyword (h : (Phrase.level 0).Readable ls t)
    (hmore : Phrase.arguments.Readable ls' ([], moreKeywords)) :
    Phrase.arguments.Readable (.name k :: .symbol .eq :: ls ++ .symbol .comma :: ls')
      ([], (k, t) :: moreKeywords) := by
  intro depth i rest n args keywords hi hdepth hn _
  obtain ⟨n, rfl⟩ : ∃ n', n = n' + 1 := ⟨n - 1, by omega⟩
  rw [append_assoc] at hi
  refine succeeds_keyword h hi (.inl rfl) hdepth fun m e hm he => ?_
  refine .bind (.eatNext hm fun hskip => ?_)
  have hlength : i.lexemes.length = ls.length + 2 + (m.skip.lexemes.length + 1) := by
    rw [hi, hskip]
    simp
    omega
  refine (hmore depth m.skip rest n args ((k, e) :: keywords) hskip (by omega)
    (by omega) (.inr rfl)).mono fun r q hr => ?_
  exact ⟨hr.1, he ▸ hr.2.keyword⟩

end Arguments

theorem Derives.readable {p : Phrase} {t : p.Tree} (h : Derives p ls t) : p.Readable ls t := by
  induction h with
  | operand hk _ ih => exact readable_operand hk ih
  | binary _ _ ihe ihf => exact readable_binary ihe ihf
  | unary _ ih => exact readable_unary ih
  | accessed he ih => exact readable_accessed he.starts ih
  | field _ ih => exact readable_field ih
  | atom _ ih => exact readable_atom ih
  | parens _ ih => exact readable_parens ih
  | name => exact readable_name
  | call _ ih => exact readable_call ih
  | literal hl => exact readable_literal hl
  | noArguments => exact readable_noArguments
  | lastArgument he ih => exact readable_lastArgument ih he.starts
  | argument he _ ihe ihrest => exact readable_argument ihe he.starts ihrest
  | lastKeyword _ ih => exact readable_lastKeyword ih
  | keyword _ _ ihe ihrest => exact readable_keyword ihe ihrest

/-- An expression of the grammar is read where what follows does not extend it. -/
theorem Derives.succeeds {t : Expr} (h : Derives (.level 0) ls t) (hi : i.lexemes = ls ++ rest)
    (hstops : Stops 0 rest) : Succeeds i (fun e r => r.lexemes = rest ∧ e.bare = t) expression :=
  .bind (.rounds (h.readable.expression hi (Nat.lt_succ_self _) hstops))

end Grammar

/-! ## Whole expressions -/

open Grammar

/-- An expression with nothing behind it. -/
def Parser.wholeExpression : Parser Expr := do
  let e ← expression
  match ← peek with
  | none => return e
  | some _ => unexpected ["end of expression"]

/-- Reads a sequence of tokens as one expression. -/
def Expr.ofTokens (file size : Nat) (ts : List Token) : Except ParseError Expr :=
  (wholeExpression { file, tokens := ts, last := 0, size }).map Prod.fst

variable {ts : List Token}

theorem Expr.parse_of_tokens {file : Nat} {source : String} (h : tokens file source = .ok ts) :
    parse file source = ofTokens file source.utf8ByteSize ts := by
  have hrun : parse file source = Parser.run wholeExpression file source := rfl
  rw [hrun, Parser.run, h, ofTokens]
  cases hwhole : wholeExpression
      { file, tokens := ts, last := 0, size := source.utf8ByteSize } with
  | error e => simp only [hwhole, Except.map]
  | ok r => simp only [hwhole, Except.map]

theorem reads_wholeExpression (i : Input) :
    Ensures i (fun e _ => Derives (.level 0) i.lexemes e.bare) (fun _ => True)
      wholeExpression := by
  refine .seq (reads_expression i) fun e m hm => .bind (.peek ?_)
  obtain ⟨ls, hls, he⟩ := hm
  split
  · rename_i hend
    rw [head?_eq_none_iff.mp hend, append_nil] at hls
    exact .pure (hls ▸ he)
  · exact .unexpected trivial

theorem Grammar.Derives.succeeds_whole {t : Expr} (h : Derives (.level 0) i.lexemes t) :
    Succeeds i (fun e _ => e.bare = t) wholeExpression := by
  have hend : Stops 0 [] := ⟨by simp, by simp, by simp⟩
  refine .seq (h.succeeds (append_nil _).symm hend) fun e m hm => .bind (.peek ?_)
  rw [hm.1]
  exact .pure hm.2

theorem Expr.derives_of_ofTokens {file size : Nat} {e : Expr}
    (h : ofTokens file size ts = .ok e) : Derives (.level 0) (ts.map Token.lexeme) e.bare := by
  have hreads := reads_wholeExpression { file, tokens := ts, last := 0, size }
  unfold ofTokens at h
  cases hwhole : wholeExpression { file, tokens := ts, last := 0, size } with
  | error _ => simp [hwhole, Except.map] at h
  | ok r =>
    obtain rfl : r.1 = e := by simpa [hwhole, Except.map] using h
    exact (ensures_of_ok hwhole).mp hreads

theorem Grammar.Derives.ofTokens {t : Expr} (h : Derives (.level 0) (ts.map Token.lexeme) t)
    (file size : Nat) : ∃ e, ofTokens file size ts = .ok e ∧ e.bare = t := by
  have hwhole := Derives.succeeds_whole (i := { file, tokens := ts, last := 0, size }) h
  obtain ⟨e, r, hrun, he⟩ := hwhole.exists_ok
  exact ⟨e, by rw [Expr.ofTokens, hrun]; rfl, he⟩

/-- A sequence of tokens is read as an expression exactly if the grammar derives it, and then the
grammar gives it no tree but the one it is read as. A text is read through its tokens. -/
theorem Expr.ofTokens_iff_derives (file size : Nat) (ts : List Token) :
    ((∃ e, Expr.ofTokens file size ts = .ok e) ↔
      ∃ t, Derives (.level 0) (ts.map Token.lexeme) t) ∧
    (∀ e, Expr.ofTokens file size ts = .ok e →
      ∀ t, Derives (.level 0) (ts.map Token.lexeme) t ↔ t = e.bare) ∧
    ∀ source : String, source.utf8ByteSize = size → tokens file source = .ok ts →
      Expr.parse file source = Expr.ofTokens file size ts := by
  refine ⟨⟨?_, ?_⟩, ?_, ?_⟩
  · rintro ⟨e, he⟩
    exact ⟨e.bare, derives_of_ofTokens he⟩
  · rintro ⟨t, ht⟩
    obtain ⟨e, he, -⟩ := ht.ofTokens file size
    exact ⟨e, he⟩
  · intro e he t
    refine ⟨fun ht => ?_, fun ht => ht ▸ derives_of_ofTokens he⟩
    obtain ⟨e', he', rfl⟩ := ht.ofTokens file size
    rw [he] at he'
    cases he'
    rfl
  · rintro source rfl htokens
    exact Expr.parse_of_tokens htokens

/-- The tokens of `a-b-c`. -/
def differences : List Token :=
  [⟨.name "a", ⟨0, 0, 1⟩⟩, ⟨.symbol .minus, ⟨0, 1, 2⟩⟩, ⟨.name "b", ⟨0, 2, 3⟩⟩,
    ⟨.symbol .minus, ⟨0, 3, 4⟩⟩, ⟨.name "c", ⟨0, 4, 5⟩⟩]

theorem Expr.ofTokens_iff_derives_differences :
    ∃ e, Expr.ofTokens 0 5 differences = .ok e ∧
      ∀ t, Derives (.level 0) (differences.map Token.lexeme) t ↔
        t = .binary nowhere .sub
          (.binary nowhere .sub (.name nowhere "a") (.name nowhere "b")) (.name nowhere "c") :=
  ⟨_, rfl, (Expr.ofTokens_iff_derives 0 5 differences).2.1 _ rfl⟩

end DataMarks.Surface
