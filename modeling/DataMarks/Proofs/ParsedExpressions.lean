/-
  What is read as an expression is one.

  Each parser of the expression grammar reads a phrase of its kind: the lexemes between where
  it starts and where it stops derive the tree that it gives, places apart (`Reads`). Nesting
  is by induction on the levels that are left, repetition by induction on the rounds that are
  left; what has been read so far is a phrase at every round.
-/
import DataMarks.Proofs.ExpressionGrammar
import DataMarks.Proofs.ParserRules

namespace DataMarks.Surface

open List DataMarks.Surface.Input

namespace Parser

/-! ## Levels of operators -/

theorem levels_drop {k : Nat} (hk : k < 6) : ∃ ops, levels[k]? = some ops ∧
    levels.drop k = ops :: levels.drop (k + 1) := by
  have hlength : k < levels.length := hk
  exact ⟨levels[k], getElem?_eq_getElem hlength, drop_eq_getElem_cons hlength⟩

theorem mem_levels : ∀ q ∈ levels.zipIdx, ∀ p ∈ q.1, p.1 = p.2.symbol ∧ p.2.level = q.2 := by
  decide

/-- The table of operators gives each one its level and its symbol. -/
theorem operator?_eq_some_iff {k : Nat} {ops : List (Symbol × BinaryOp)}
    (h : levels[k]? = some ops) {l : Option Lexeme} {op : BinaryOp} :
    operator? ops l = some op ↔ l = some (.symbol op.symbol) ∧ op.level = k := by
  constructor
  · intro hop
    unfold operator? at hop
    split at hop
    · rename_i s
      obtain ⟨before, behind, hops, -⟩ := lookup_eq_some_iff.mp hop
      have hmem : (s, op) ∈ ops := by simp [hops]
      obtain ⟨hs, hlevel⟩ := mem_levels (ops, k) (mk_mem_zipIdx_iff_getElem?.mpr h) _ hmem
      exact ⟨congrArg (fun s => some (Lexeme.symbol s)) hs, hlevel⟩
    · cases hop
  · rintro ⟨rfl, rfl⟩
    cases op <;> cases h <;> rfl

theorem unaryOp?_eq_some_iff {l : Option Lexeme} {op : UnaryOp} :
    unaryOp? l = some op ↔ l = some (.symbol op.symbol) := by
  constructor
  · intro h
    unfold unaryOp? at h
    split at h <;> cases h <;> rfl
  · rintro rfl
    cases op <;> rfl

/-! ## Parsers by kind of phrase -/

/-- An atom with its fields, in which parentheses and calls nest at most `depth` levels deep. -/
def accessWithin (depth : Nat) : Parser Expr := do
  let e ← primary (expressionWithin depth)
  fields (← rounds) e

/-- Operands joined by operators of level `k` and tighter ones. -/
def levelWithin (depth k : Nat) : Parser Expr :=
  binary (unary (accessWithin depth)) (levels.drop k)

theorem expressionWithin_succ (depth : Nat) :
    expressionWithin (depth + 1) = levelWithin depth 0 := rfl

theorem levelWithin_six (depth : Nat) : levelWithin depth 6 = unary (accessWithin depth) := rfl

theorem levelWithin_of_lt (depth : Nat) {k : Nat} (hk : k < 6) : ∃ ops, levels[k]? = some ops ∧
    levelWithin depth k = levelWithin depth (k + 1) >>= fun lhs =>
      rounds >>= fun n => chain ops (levelWithin depth (k + 1)) n lhs := by
  obtain ⟨ops, hops, hdrop⟩ := levels_drop hk
  refine ⟨ops, hops, ?_⟩
  unfold levelWithin
  rw [hdrop]
  rfl

end Parser

namespace Grammar

open DataMarks.Surface.Parser

/-- Wherever it starts, the parser reads a phrase and gives the tree of it, unless it fails. -/
def Reads {α : Type} (P : List Lexeme → α → Prop) (p : Parser α) : Prop :=
  ∀ i, Ensures i (fun a r => ∃ ls, i.lexemes = ls ++ r.lexemes ∧ P ls a) (fun _ => True) p

/-! ## Lists and literals -/

theorem Reads.list {α : Type} {P : List Lexeme → α → Prop} {item : Parser α} {close : Symbol}
    (h : Reads P item) :
    Reads (fun ls as => ∃ inner, ls = inner ++ [.symbol close] ∧ Listed P inner as)
      (list close item) := by
  have hrounds : ∀ n, Reads (fun ls as => ∃ inner, ls = inner ++ [.symbol close] ∧
      Listed P inner as) (listRounds close item n) := by
    intro n
    induction n with
    | zero => exact fun i => .unexpected trivial
    | succ n ih =>
      intro i
      refine .bind (.eat (fun hclose => .pure ?_) fun _ => ?_)
      · exact ⟨[.symbol close], by rw [lexemes_eq_cons hclose]; rfl, [], rfl, .nil⟩
      · refine .seq (h i) fun a m hm => ?_
        obtain ⟨ls, hls, ha⟩ := hm
        refine .bind (.eat (fun hcomma => ?_) fun _ => ?_)
        · refine .seq (ih m.skip) fun as r hr => .pure ?_
          obtain ⟨_, hrest, inner, rfl, has⟩ := hr
          refine ⟨ls ++ .symbol .comma :: inner ++ [.symbol close], ?_, _, rfl, .cons ha has⟩
          rw [hls, lexemes_eq_cons hcomma, hrest]
          simp
        · refine .bind (.expect (fun hclose => .pure ?_) fun _ => trivial)
          refine ⟨ls ++ [.symbol close], ?_, ls, rfl, .last ha⟩
          rw [hls, lexemes_eq_cons hclose]
          simp
  exact fun i => .bind (.rounds (hrounds _ i))

theorem reads_number : Reads Signed number := by
  intro i
  -- The sign stands in front of what is read after it, and only there.
  refine .seq (R := fun negative m =>
      i.lexemes = (if negative then [.symbol .minus] else []) ++ m.lexemes) ?_
    fun negative m hm => ?_
  · exact .eat (fun h => lexemes_eq_cons h) fun _ => rfl
  · have hsigned : ∀ l n, Unsigned negative l n →
        Signed ((if negative then [.symbol .minus] else []) ++ [l]) n := by
      intro l n hn
      cases negative with
      | false => exact .plain hn
      | true => exact .negated hn
    have hread : ∀ {l n}, m.lexemes.head? = some l → Unsigned negative l n →
        ∃ ls, i.lexemes = ls ++ m.skip.lexemes ∧ Signed ls n := by
      intro l n hl hn
      refine ⟨_, ?_, hsigned l n hn⟩
      rw [hm, lexemes_eq_cons hl]
      simp
    refine .bind (.peek ?_)
    split
    · rename_i digits hnext
      refine .bind (.nextSpan (.bind (.advance (.ite (fun hmax => .pure ?_) fun _ => ?_))))
      · exact hread hnext (.int hmax)
      · exact .throw trivial
    · rename_i digits hnext
      exact .bind (.advance (.pure (hread hnext .float)))
    · exact .unexpected trivial

theorem mem_of_vectorType? {n : Nat} {t : ValueType} (h : vectorType? n = some t) :
    t ∈ [ValueType.vector2, .vector3, .vector4] ∧ n = t.components := by
  unfold vectorType? at h
  split at h
  all_goals cases h
  all_goals decide

/-- A literal as expressions have it, or a number with a minus in front. -/
theorem reads_literal : Reads (fun ls l => Literally ls l ∨ ∃ n, Signed ls n ∧ l = .number n)
    literal := by
  intro i
  refine .bind (.nextSpan (.bind (.peek ?_)))
  split
  · rename_i hnext
    exact .bind (.advance (.pure ⟨[_], lexemes_eq_cons hnext, .inl .yes⟩))
  · rename_i hnext
    exact .bind (.advance (.pure ⟨[_], lexemes_eq_cons hnext, .inl .no⟩))
  · rename_i hnext
    refine .bind (.advance (.seq (reads_number.list i.skip) fun ns m hm => ?_))
    obtain ⟨_, hrest, ls, rfl, hns⟩ := hm
    split
    · rename_i t ht
      obtain ⟨hmem, hlength⟩ := mem_of_vectorType? ht
      refine .pure ⟨_, ?_, .inl (.vector hmem hns hlength)⟩
      rw [lexemes_eq_cons hnext, hrest]
      simp
    · exact .bind (.spanFrom (.throw trivial))
  · refine .seq (reads_number i) fun n m hm => .pure ?_
    obtain ⟨ls, hls, hn⟩ := hm
    exact ⟨ls, hls, .inr ⟨n, hn, rfl⟩⟩

/-! ## Operators -/

/-- Behind `front`, what the parser reads makes a phrase together with `front`. -/
def Extends (P : List Lexeme → Expr → Prop) (front : List Lexeme) (p : Parser Expr) : Prop :=
  ∀ i, Ensures i (fun e r => ∃ ls, i.lexemes = ls ++ r.lexemes ∧ P (front ++ ls) e.bare)
    (fun _ => True) p

/-- The parser reads expressions of a kind. -/
abbrev ReadsExpr (P : List Lexeme → Expr → Prop) (p : Parser Expr) : Prop := Extends P [] p

section Extends

variable {P : List Lexeme → Expr → Prop} {front ls : List Lexeme} {p : Parser Expr} {e : Expr}
  {i m : Input}

/-- What is there already may be all. -/
theorem extends_pure (h : P front e.bare) : Extends P front (pure e) :=
  fun _ => .pure ⟨[], rfl, by rwa [append_nil]⟩

/-- More of the phrase may have been read before the parser starts. -/
theorem Extends.ensures (h : Extends P (front ++ ls) p) (hm : i.lexemes = ls ++ m.lexemes) :
    Ensures m (fun e r => ∃ ls, i.lexemes = ls ++ r.lexemes ∧ P (front ++ ls) e.bare)
      (fun _ => True) p := by
  refine (h m).mono fun e r hr => ?_
  obtain ⟨more, hmore, he⟩ := hr
  exact ⟨ls ++ more, by rw [hm, hmore, append_assoc], by rwa [← append_assoc]⟩

end Extends

variable {k : Nat} {operand p : Parser Expr} {front : List Lexeme}

/-- What is in front of the next operator is an expression of this level at every round. -/
theorem extends_chain {ops : List (Symbol × BinaryOp)} (hops : levels[k]? = some ops)
    (hoperand : ReadsExpr (Derives (.level (k + 1))) operand) (n : Nat) {lhs : Expr}
    (hlhs : Derives (.level k) front lhs.bare) :
    Extends (Derives (.level k)) front (chain ops operand n lhs) := by
  induction n generalizing lhs front with
  | zero => exact extends_pure hlhs
  | succ n ih =>
    intro i
    refine .bind (.peek ?_)
    split
    · exact extends_pure hlhs i
    · rename_i op hop
      obtain ⟨hnext, rfl⟩ := (operator?_eq_some_iff hops).mp hop
      refine .bind (.advance (.seq (hoperand i.skip) fun rhs m hm => ?_))
      obtain ⟨rs, hrs, hrhs⟩ := hm
      refine (ih (hlhs.binary hrhs)).ensures ?_
      rw [lexemes_eq_cons hnext, hrs]
      rfl

theorem reads_signs (n : Nat) : Reads
    (fun ls ops => ls = ops.map fun op => Lexeme.symbol op.2.symbol) (signs n) := by
  induction n with
  | zero => exact fun i => .pure ⟨[], rfl, rfl⟩
  | succ n ih =>
    intro i
    refine .bind (.peek ?_)
    split
    · exact .pure ⟨[], rfl, rfl⟩
    · rename_i op hop
      have hnext := unaryOp?_eq_some_iff.mp hop
      refine .bind (.nextSpan (.bind (.advance (.seq (ih i.skip) fun ops r hr => .pure ?_))))
      obtain ⟨ls, hls, rfl⟩ := hr
      refine ⟨_ :: _, ?_, rfl⟩
      rw [lexemes_eq_cons hnext, hls]
      rfl

theorem reads_unary (hoperand : ReadsExpr (Derives .access) operand) :
    ReadsExpr (Derives (.level 6)) (unary operand) := by
  intro i
  refine .bind (.rounds (.seq (reads_signs _ i) fun ops m hm => ?_))
  refine .seq (hoperand m) fun e r hr => .pure ?_
  obtain ⟨_, hsigns, rfl⟩ := hm
  obtain ⟨ls, hls, he⟩ := hr
  refine ⟨_, by rw [hsigns, hls, ← append_assoc], ?_⟩
  clear hsigns
  induction ops with
  | nil => exact .accessed he
  | cons op ops ih => exact .unary ih

theorem reads_levelWithin {depth : Nat} (hk : k ≤ 6)
    (haccess : ReadsExpr (Derives .access) (accessWithin depth)) :
    ReadsExpr (Derives (.level k)) (levelWithin depth k) := by
  -- From the tightest level down.
  obtain ⟨j, hj⟩ : ∃ j, k + j = 6 := ⟨6 - k, by omega⟩
  induction j generalizing k with
  | zero =>
    obtain rfl : k = 6 := hj
    exact reads_unary haccess
  | succ j ih =>
    obtain ⟨ops, hops, hlevel⟩ := levelWithin_of_lt depth (show k < 6 by omega)
    have hoperand := ih (k := k + 1) (by omega) (by omega)
    rw [hlevel]
    intro i
    refine .seq (hoperand i) fun lhs m hm => .bind (.rounds ?_)
    obtain ⟨front, hfront, hlhs⟩ := hm
    exact (extends_chain hops hoperand _ (.operand (by omega) hlhs)).ensures hfront

/-! ## Atoms -/

theorem extends_fields (n : Nat) {e : Expr} (he : Derives .access front e.bare) :
    Extends (Derives .access) front (fields n e) := by
  induction n generalizing e front with
  | zero => exact extends_pure he
  | succ n ih =>
    intro i
    refine .bind (.eat (fun hdot => ?_) fun _ => extends_pure he i)
    refine .bind (.name (fun f hf => ?_) fun _ => trivial)
    refine (ih (.field he)).ensures ?_
    rw [lexemes_eq_cons hdot, lexemes_eq_cons hf]
    rfl

/-- The arguments `r` are those that have been read already (the last one first) and then those
of the tree `t`. -/
def Joined (args : List Expr) (keywords : List (String × Expr))
    (t r : List Expr × List (String × Expr)) : Prop :=
  r.1.map Expr.bare = args.reverse.map Expr.bare ++ t.1 ∧
    (r.2.map fun e => (e.1, e.2.bare)) = (keywords.reverse.map fun e => (e.1, e.2.bare)) ++ t.2

/-- With the lexemes `ls` in front of the closing parenthesis, the arguments that have been read
already become all of those in `r`. -/
def Completes (args : List Expr) (keywords : List (String × Expr)) (ls : List Lexeme)
    (r : List Expr × List (String × Expr)) : Prop :=
  ∃ t : List Expr × List (String × Expr), Derives .arguments ls t ∧ Joined args keywords t r ∧
    (keywords ≠ [] → t.1 = [])

section Arguments

variable {args more : List Expr} {keywords moreKeywords : List (String × Expr)}
  {ls rest : List Lexeme} {r : List Expr × List (String × Expr)} {e : Expr} {k : String}

theorem joined_nil : Joined args keywords ([], []) (args.reverse, keywords.reverse) :=
  ⟨(append_nil _).symm, (append_nil _).symm⟩

theorem Joined.argument (h : Joined (e :: args) keywords (more, moreKeywords) r) :
    Joined args keywords (e.bare :: more, moreKeywords) r :=
  ⟨by simpa using h.1, h.2⟩

theorem Joined.keyword (h : Joined args ((k, e) :: keywords) (more, moreKeywords) r) :
    Joined args keywords (more, (k, e.bare) :: moreKeywords) r :=
  ⟨h.1, by simpa using h.2⟩

theorem completes_nil : Completes args keywords [] (args.reverse, keywords.reverse) :=
  ⟨([], []), .noArguments, joined_nil, fun _ => rfl⟩

theorem completes_last (he : Derives (.level 0) ls e.bare) :
    Completes args [] ls ((e :: args).reverse, ([] : List (String × Expr)).reverse) :=
  ⟨([e.bare], []), .lastArgument he, joined_nil.argument, fun h => absurd rfl h⟩

theorem completes_lastKeyword (he : Derives (.level 0) ls e.bare) :
    Completes args keywords (.name k :: .symbol .eq :: ls)
      (args.reverse, ((k, e) :: keywords).reverse) :=
  ⟨([], [(k, e.bare)]), .lastKeyword he, joined_nil.keyword, fun _ => rfl⟩

theorem Completes.argument (h : Completes (e :: args) [] rest r)
    (he : Derives (.level 0) ls e.bare) :
    Completes args [] (ls ++ .symbol .comma :: rest) r := by
  obtain ⟨⟨more, moreKeywords⟩, hmore, hjoined, -⟩ := h
  exact ⟨(e.bare :: more, moreKeywords), .argument he hmore, hjoined.argument,
    fun h => absurd rfl h⟩

theorem Completes.keyword (h : Completes args ((k, e) :: keywords) rest r)
    (he : Derives (.level 0) ls e.bare) :
    Completes args keywords (.name k :: .symbol .eq :: ls ++ .symbol .comma :: rest) r := by
  obtain ⟨⟨more, moreKeywords⟩, hmore, hjoined, hnone⟩ := h
  obtain rfl : more = [] := hnone (cons_ne_nil _ _)
  exact ⟨([], (k, e.bare) :: moreKeywords), .keyword he hmore, hjoined.keyword, fun _ => rfl⟩

end Arguments

theorem reads_argumentRounds (hp : ReadsExpr (Derives (.level 0)) p) (n : Nat) (args : List Expr)
    (keywords : List (String × Expr)) :
    Reads (fun ls r => ∃ inner, ls = inner ++ [.symbol .closeParen] ∧
      Completes args keywords inner r) (argumentRounds p n args keywords) := by
  induction n generalizing args keywords with
  | zero => exact fun i => .unexpected trivial
  | succ n ih =>
    intro i
    -- Behind an argument, `last` says what it is if it is the last one, and `more` if not.
    have hbehind : ∀ (args' : List Expr) (keywords' : List (String × Expr)) (m : Input)
        (ls : List Lexeme), i.lexemes = ls ++ m.lexemes →
        Completes args keywords ls (args'.reverse, keywords'.reverse) →
        (∀ rest r, Completes args' keywords' rest r →
          Completes args keywords (ls ++ .symbol .comma :: rest) r) →
        Ensures m (fun r q => ∃ ls, i.lexemes = ls ++ q.lexemes ∧
          ∃ inner, ls = inner ++ [.symbol .closeParen] ∧ Completes args keywords inner r)
          (fun _ => True) (argumentsBehind p n args' keywords') := by
      intro args' keywords' m ls hls hlast hmore
      refine .bind (.eat (fun hcomma => ?_) fun _ => ?_)
      · refine (ih args' keywords' m.skip).mono fun r q hr => ?_
        obtain ⟨_, hrest, rest, rfl, hcompletes⟩ := hr
        refine ⟨_, ?_, _, rfl, hmore rest r hcompletes⟩
        rw [hls, lexemes_eq_cons hcomma, hrest]
        simp
      · refine .bind (.expect (fun hclose => .pure ?_) fun _ => trivial)
        refine ⟨_, ?_, ls, rfl, hlast⟩
        rw [hls, lexemes_eq_cons hclose]
        simp
    refine .bind (.eat (fun hclose => .pure ?_) fun _ => ?_)
    · exact ⟨[_], lexemes_eq_cons hclose, [], rfl, completes_nil⟩
    · refine .bind (.peek (.bind (.peekSecond ?_)))
      dsimp only
      split
      · rename_i k hname heq
        rw [← head?_lexemes_skip] at heq
        refine .bind (.advance (.bind (.advance (.seq (hp i.skip.skip) fun e m hm => ?_))))
        obtain ⟨ls, hls, he⟩ := hm
        refine .bind (.pure (hbehind args ((k, e) :: keywords) m (.name k :: .symbol .eq :: ls) ?_
          (completes_lastKeyword he) fun rest r hr => hr.keyword he))
        rw [lexemes_eq_cons hname, lexemes_eq_cons heq, hls]
        rfl
      · refine .ite (fun hempty => ?_) fun _ => .bind (.unexpected trivial)
        obtain rfl := List.isEmpty_iff.mp hempty
        refine .seq (hp i) fun e m hm => ?_
        obtain ⟨ls, hls, he⟩ := hm
        exact .bind (.pure (hbehind (e :: args) [] m ls hls (completes_last he)
          fun rest r hr => hr.argument he))

theorem reads_arguments (hp : ReadsExpr (Derives (.level 0)) p) :
    Reads (fun ls r => ∃ inner, ls = inner ++ [.symbol .closeParen] ∧ Derives .arguments inner
      (r.1.map Expr.bare, r.2.map fun e => (e.1, e.2.bare))) (arguments p) := by
  intro i
  refine .bind (.rounds ((reads_argumentRounds hp _ [] [] i).mono fun r m hr => ?_))
  obtain ⟨_, hls, ls, rfl, t, hderives, hjoined, -⟩ := hr
  refine ⟨_, hls, ls, rfl, ?_⟩
  rw [hjoined.1, hjoined.2]
  exact hderives

theorem literally_of_head {ls rest all : List Lexeme} {l : Literal}
    (h : Literally ls l ∨ ∃ n, Signed ls n ∧ l = .number n) (hall : all = ls ++ rest)
    (hfirst : all.head? ≠ some (.symbol .minus)) : Literally ls l := by
  rcases h with h | ⟨n, hn, rfl⟩
  · exact h
  · cases hn with
    | plain hn => exact .number hn
    | negated hn => exact absurd (by rw [hall]; rfl) hfirst

theorem reads_primary (hp : ReadsExpr (Derives (.level 0)) p) :
    ReadsExpr (Derives .atom) (primary p) := by
  intro i
  have hliteral : i.lexemes.head? ≠ some (.symbol .minus) →
      Ensures i (fun (e : Expr) r => ∃ ls, i.lexemes = ls ++ r.lexemes ∧ Derives .atom ls e.bare)
        (fun _ => True) (do
          let l ← literal
          return Expr.literal (← spanFrom i.here) l.type l.value) := by
    intro hfirst
    refine .seq (reads_literal i) fun l m hm => .bind (.spanFrom (.pure ?_))
    obtain ⟨ls, hls, hl⟩ := hm
    exact ⟨ls, hls, .literal (literally_of_head hl hls hfirst)⟩
  refine .bind (.nextSpan (.bind (.peek ?_)))
  split
  · rename_i hopen
    refine .bind (.advance (.seq (hp i.skip) fun e m hm => ?_))
    refine .bind (.expect (fun hclose => .pure ?_) fun _ => trivial)
    obtain ⟨ls, hls, he⟩ := hm
    refine ⟨_, ?_, .parens he⟩
    rw [lexemes_eq_cons hopen, hls, lexemes_eq_cons hclose]
    simp
  · rename_i f hname
    refine .bind (.advance (.bind (.eat (fun hopen => ?_) fun _ => ?_)))
    · refine .seq (reads_arguments hp i.skip.skip) fun r m hr => ?_
      obtain ⟨args, keywords⟩ := r
      obtain ⟨_, hls, ls, rfl, hderives⟩ := hr
      refine .bind (.spanFrom (.pure ⟨.name f :: .symbol .openParen :: ls ++ [.symbol .closeParen],
        ?_, ?_⟩))
      · rw [lexemes_eq_cons hname, lexemes_eq_cons hopen, hls]
        simp
      · rw [Expr.bare, Expr.bareAll_eq_map, Expr.bareKeywords_eq_map]
        exact .call hderives
    · exact .pure ⟨[.name f], lexemes_eq_cons hname, .name⟩
  iterate 5
    · rename_i hnext
      exact hliteral (by rw [hnext]; simp)
  · exact .unexpected trivial

theorem reads_expressionWithin (depth : Nat) :
    ReadsExpr (Derives (.level 0)) (expressionWithin depth) := by
  induction depth with
  | zero => exact fun i => .unexpected trivial
  | succ depth ih =>
    rw [expressionWithin_succ]
    refine reads_levelWithin (by decide) fun i => ?_
    refine .seq (reads_primary ih i) fun e m hm => .bind (.rounds ?_)
    obtain ⟨front, hfront, he⟩ := hm
    exact (extends_fields _ (.atom he)).ensures hfront

theorem reads_expression : ReadsExpr (Derives (.level 0)) expression :=
  fun i => .bind (.rounds (reads_expressionWithin _ i))

end Grammar

end DataMarks.Surface
