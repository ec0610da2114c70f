/-
  Marks that end with a loop, read from a text in which some numbers are not known.

  An outline (`Surface.Outline`) gives the lexemes of a mark: variables for quotients by one
  number, and a loop from 0 to another number at the end. What stands between the numbers can be
  read whatever they are (`Outline.Draws`, which the parser itself decides), so the mark is read
  exactly if the numbers are in range (`Outline.ensures_mark`).
-/
import DataMarks.Proofs.AcceptedFiles
import DataMarks.Proofs.EmitCount
import DataMarks.Proofs.IntegerRange
import DataMarks.Proofs.ReadBack

namespace DataMarks

open List Number

/-- The body of the loop at the end of code. -/
def Stmt.lastBody (code : List Stmt) : List Stmt :=
  match code.getLast? with
  | some (.loop _ _ _ body) => body
  | _ => []

/-- The code emits `n` vertices in each round of a loop at its end and none in front of it, and it
has no loop that the flattener refuses. -/
def Stmt.EmitsPerRound (n : Nat) (code : List Stmt) : Prop :=
  emitCountAll code.dropLast = 0 ∧ emitCountAll (lastBody code) = n ∧
    ∀ t ∈ partsAll code.dropLast ++ partsAll (lastBody code), t.SpanFits ∧ t.EmptyLoopFits

instance (n : Nat) (code : List Stmt) : Decidable (Stmt.EmitsPerRound n code) :=
  inferInstanceAs (Decidable (_ ∧ _))

namespace Surface

open DataMarks.Surface.Parser Grammar

section Rules

variable {E : ParseError → Prop} {i j m : Input} {front ls : List Lexeme} {x digits : String}
  {n depth file size : Nat}

theorem Input.Reads.behind (h : i.Reads file size) (n : Nat) : (i.behind n).Reads file size := by
  induction n generalizing i with
  | zero => exact h
  | succ n ih => exact ih h.skip

theorem Input.lexemes_behind_suffix (n : Nat) (i : Input) :
    (i.behind n).lexemes <:+ i.lexemes := by
  induction n generalizing i with
  | zero => exact suffix_rfl
  | succ n ih => exact (ih i.skip).trans (i.lexemes_skip ▸ tail_suffix _)

/-- What a parser leaves is known from its length. -/
theorem Parser.Places.rest {α : Type} {nodes : α → List Node} {p : Parser α}
    {Q : α → Input → Prop} (hp : Places file size nodes p) (hi : i.Reads file size)
    (hls : i.lexemes = front ++ ls)
    (h : Succeeds i (fun a m => m.lexemes.length = ls.length ∧ Q a m) p) :
    Ensures i (fun a m => m.Reads file size ∧ m.lexemes = ls ∧ Q a m) E p := by
  obtain ⟨a, r, hrun, hlength, hQ⟩ := h.exists_ok
  have hreaches := ((ensures_of_ok hrun).mp (hp i hi)).reaches
  obtain ⟨k, hk⟩ := hreaches.behind
  -- What is left is a suffix of the lexemes, and so is `ls`.
  have hsuffix : r.lexemes <:+ front ++ ls := hls ▸ hk ▸ i.lexemes_behind_suffix k
  refine (ensures_of_ok hrun).mpr ⟨hreaches.reads, ?_, hQ⟩
  exact (suffix_of_suffix_length_le hsuffix (suffix_append front ls)
    (Nat.le_of_eq hlength)).eq_of_length hlength

variable {Q : List Block → Prop}

/-- One block in front of others. -/
theorem ensures_block {l : Lexeme} (hi : i.lexemes = l :: ls)
    (h : Ensures i (fun b m => Ensures m (fun bs _ => Q (b :: bs)) E (blockRounds n)) E block) :
    Ensures i (fun bs _ => Q bs) E (blockRounds (n + 1)) :=
  .bind (.peekNext hi (.seq h fun _ _ hm => .seq hm fun _ _ hbs => .pure hbs))

theorem ensures_noBlocks (hi : i.lexemes = []) (h : Q []) :
    Ensures i (fun bs _ => Q bs) E (blockRounds n) := by
  cases n with
  | zero => exact .pure h
  | succ n => exact .bind (.peek (by rw [hi]; exact .pure h))

/-- A mark at the end of a file. -/
theorem ensures_lastMark (hi : i.lexemes = .keyword .mark :: .name x :: .symbol .openParen :: ls)
    (h : Ensures (i.behind 3) (fun ps m => m.lexemes.head? = some (.symbol .openBrace) ∧
        Ensures m.skip (fun body r => r.lexemes = [] ∧ ∀ span,
          Q [.function { span, kind := .mark, name := x, params := ps, returns := none, body }])
        E (stmtRounds statement (m.skip.lexemes.length + 1))) E (list .closeParen param)) :
    Ensures i (fun bs _ => Q bs) E (blockRounds (n + 1)) := by
  refine ensures_block hi (.bind (.peekNext hi (.bind ?_)))
  refine .bind (.nextSpan (.bind (.advanceNext hi fun hname => .bind (.nameNext hname fun hparen =>
      .bind (.expectNext hparen fun _ => .seq h fun ps m hm => ?_)))))
  refine .bind (.after (fun h => by rw [hm.1] at h; cases h) fun _ => ?_)
  refine .seq (.bind (.expectNext (Input.lexemes_eq_cons hm.1) fun _ => .bind (.rounds hm.2)))
      fun body r hr => .bind (.spanFrom (.pure (.pure ?_)))
  exact ensures_noBlocks hr.1 (hr.2 _)

/-- A loop at the end of a body. -/
theorem ensures_lastLoop {Q : List Stmt → Prop}
    (hj : j.lexemes = loopHead true x ++ .int "0" :: .symbol .dotDot :: .int digits :: ls)
    (hyes : digitsValue digits.toList ≤ maxInt →
      Ensures (j.behind 7) (fun _ k => Ensures k (fun body r => r.lexemes = [.symbol .closeBrace] ∧
        ∀ span, Q [.loop span x 0 (digitsValue digits.toList) body]) E
      (statementWithin j.lexemes.length)) E (expectSymbol .closeParen))
    (hno : maxInt < digitsValue digits.toList → ∀ e, E e) :
    Ensures j (fun ss r => r.lexemes = [] ∧ Q ss) E (stmtRounds statement (n + 2)) := by
  refine .bind (.eatOther (by rw [hj]; simp [loopHead]) (.bind (.bind (.rounds ?_))))
  refine .bind (.nextSpan (.bind (.peekNext hj (.bind (.advanceNext hj fun hparen => ?_)))))
  refine .bind (.eatNext hparen fun hname => .bind (.nameNext hname fun hin =>
    .bind (.expectNext hin fun hfirst => .bind (@ensures_integer _ false _ _ _ _ hfirst
      (fun _ => .bind (.expectNext (Input.lexemes_skip_of_cons hfirst) fun hlast => ?_))
      fun h => absurd h (by decide +kernel)))))
  refine .bind (@ensures_integer _ false _ _ _ _ hlast (fun hle => ?_) fun hlt => hno hlt _)
  refine .seq (hyes hle) fun _ k hk => .seq hk fun body r hr => ?_
  refine .bind (.spanFrom (.pure (.bind (.bind (.eatNext hr.1 fun hend =>
    .pure (.pure ⟨hend, ?_⟩))))))
  have hvalue : signedValue false digits = digitsValue digits.toList := by
    rw [signedValue, digitsValue_eq_placeValue]
    rfl
  rw [hvalue]
  exact hr.2 _

/-- An operand of the operators of a level is all where no operator comes next. -/
theorem ensures_level {k : Nat} {Q : Expr → Input → Prop} (hk : k ≤ 5)
    (h : Ensures i (fun e r => Stops 0 r.lexemes ∧ Q e r) E (levelWithin depth 5)) :
    Ensures i (fun e r => Stops 0 r.lexemes ∧ Q e r) E (levelWithin depth k) := by
  induction hk using Nat.decreasingInduction with
  | self => exact h
  | of_succ k hk ih =>
    obtain ⟨ops, hops, hlevel⟩ := levelWithin_of_lt depth (show k < 6 by omega)
    rw [hlevel]
    refine .seq ih fun e m hm => .bind (.rounds ?_)
    have hall : Ensures m (fun e r => Stops 0 r.lexemes ∧ Q e r) E
        (extend depth k (m.lexemes.length + 1) e) := ensures_extend (hm.1.mono (Nat.zero_le k)) hm
    rwa [extend, hops] at hall

/-- Digits as a divisor. -/
def divisor (span : Span) (digits : String) : Expr :=
  .literal span .int (.scalar (Numeral.int false (Number.digitsValue digits.toList)).toFloat)

theorem ensures_divisor {Q : Expr → Input → Prop}
    (hj : j.lexemes = .int digits :: .symbol .semicolon :: ls)
    (hyes : digitsValue digits.toList ≤ maxInt → ∀ span, Q (divisor span digits) j.skip)
    (hno : maxInt < digitsValue digits.toList → ∀ e, E e) :
    Ensures j Q E (levelWithin depth 6) := by
  rw [levelWithin_six]
  refine .bind (.rounds (.bind (.bind (.peekNext hj (.pure (.bind (.bind (.bind (.nextSpan
    (.bind (.peekNext hj ?_)))))))))))
  refine .bind (@ensures_literal _ false _ _ _ _ hj (@ensures_number _ false _ _ _ _ hj
    (fun hle => ?_) fun hlt => hno hlt _))
  refine .bind (.spanFrom (.pure (.bind (.rounds (.bind (.eatOther ?_
    (.pure (.pure (hyes hle _)))))))))
  show j.skip.lexemes.head? ≠ _
  rw [Input.lexemes_skip_of_cons hj]
  simp

/-- A variable for the quotient of a value by digits, in front of other statements. -/
theorem ensures_quotient {Q : List Stmt → Prop} (rest : List Lexeme)
    (hj : j.lexemes = .keyword .let_ :: .name x :: .symbol .eq :: ls)
    (h : Ensures (j.behind 3)
      (fun lhs m => m.lexemes = .symbol .slash :: .int digits :: .symbol .semicolon :: rest ∧
        (digitsValue digits.toList ≤ maxInt → Ensures (m.behind 3)
          (fun ss r => r.lexemes = [] ∧ ∀ s₁ s₂ s₃, Q (.declare s₁ x none (some
          (.binary s₂ .div lhs (divisor s₃ digits))) :: ss)) E (stmtRounds statement n)))
      E (levelWithin (j.behind 3).lexemes.length 6))
    (hno : maxInt < digitsValue digits.toList → ∀ e, E e) :
    Ensures j (fun ss r => r.lexemes = [] ∧ Q ss) E (stmtRounds statement (n + 1)) := by
  refine .bind (.eatOther (by rw [hj]; simp) (.bind (.bind (.rounds ?_))))
  refine .bind (.nextSpan (.bind (.peekNext hj (.bind (.advanceNext hj fun hname =>
    .bind (.nameNext hname fun heq => ?_))))))
  refine .bind (.after (fun h => by rw [heq] at h; cases h) fun _ =>
    .bind (.afterNext heq fun _ => .bind (.rounds ?_)))
  refine (ensures_level (Nat.zero_le 5) ?_).mono fun e r hr => hr.2
  obtain ⟨ops, hops, hlevel⟩ := levelWithin_of_lt (j.behind 3).lexemes.length (show 5 < 6 by omega)
  cases hops
  refine hlevel ▸ .seq h fun lhs m hm => .bind (.rounds (.bind (.peekNext hm.1 ?_)))
  refine .bind (.advanceNext hm.1 fun hlast =>
    .bind (ensures_divisor hlast (fun hle span => ?_) hno))
  have hend := Input.lexemes_skip_of_cons hlast
  have hstops : Stops 0 m.skip.skip.lexemes := hend ▸ stops_semicolon rest
  refine ensures_extend (k := 5) (hstops.mono (Nat.zero_le 5)) ⟨hstops, ?_⟩
  refine .bind (.expectNext hend fun _ => .bind (.spanFrom (.pure (.bind ?_))))
  exact (hm.2 hle).mono fun ss r hr => .pure ⟨hr.1, hr.2 _ _ _⟩

end Rules

/-- The mark can be loaded, and among these definitions it is compiled to code that emits `n`
vertices per round. -/
def Function.EmitsPerRound (n : Nat) (ds : List Definition) (f : Function) : Prop :=
  (Compile.loadBlock (.function f) {}).result.isOk = true ∧
    match (Compile.functionOf f { resolver := { functions := ds ++ [⟨none, f⟩] } }).result with
    | .ok spec => Stmt.EmitsPerRound n spec.statements
    | .error _ => False

instance (n : Nat) (ds : List Definition) (f : Function) : Decidable (f.EmitsPerRound n ds) :=
  haveI : Decidable (match (Compile.functionOf f
      { resolver := { functions := ds ++ [⟨none, f⟩] } }).result with
    | .ok spec => Stmt.EmitsPerRound n spec.statements
    | .error _ => False) := by split <;> infer_instance
  inferInstanceAs (Decidable (_ ∧ _))

/-- The input with lexemes that stand at these places. -/
def Input.of (file size last : Nat) (spans : Nat → Span) (ls : List Lexeme) : Input :=
  { file, size, last, tokens := ls.zipIdx.map fun l => ⟨l.1, spans l.2⟩ }

theorem Input.exists_of {ls : List Lexeme} (i : Input) (h : i.lexemes = ls) :
    ∃ spans, Input.of i.file i.size i.last spans ls = i := by
  refine ⟨fun k => (i.tokens[k]?.map Token.span).getD ⟨0, 0, 0⟩, ?_⟩
  subst h
  unfold Input.of Input.lexemes
  congr 1
  refine ext_getElem (by simp) fun k h₁ h₂ => ?_
  simp [h₂]

/-- A mark that ends with a loop from 0 on. In front of it, variables for quotients by digits are
declared, each with the lexemes of what is divided. -/
structure Outline where
  name : String
  params : List Lexeme
  quotients : List (String × List Lexeme) := []
  divisor : String := ""
  index : String
  last : String
  inner : List Lexeme

def loopStart (x : String) : List Lexeme := loopHead true x ++ [.int "0", .symbol .dotDot]

def quotientStart (q : String × List Lexeme) : List Lexeme :=
  .keyword .let_ :: .name q.1 :: .symbol .eq :: (q.2 ++ [.symbol .slash])

namespace Outline

def head (o : Outline) : List Lexeme :=
  .keyword .mark :: .name o.name :: .symbol .openParen :: (o.params ++ [.symbol .openBrace])

/-- The lexemes of the body, from some of the quotients on. -/
def body (o : Outline) : List (String × List Lexeme) → List Lexeme
  | [] => loopStart o.index ++ .int o.last :: o.inner
  | q :: qs => quotientStart q ++ .int o.divisor :: .symbol .semicolon :: o.body qs

def lexemes (o : Outline) : List Lexeme := o.head ++ o.body o.quotients

/-- The numbers in the body are in range. -/
def Fits (o : Outline) (qs : List (String × List Lexeme)) : Prop :=
  (∀ _q ∈ qs, Number.digitsValue o.divisor.toList ≤ maxInt) ∧
    Number.digitsValue o.last.toList ≤ maxInt

/-- The parts of the body between the numbers can be read, and then it satisfies `Q`. -/
def ReadableBody (o : Outline) :
    List (String × List Lexeme) → Input → (List Stmt → Prop) → Prop
  | [], j, Q =>
    Succeeds (j.behind 7) (fun _ k => Succeeds k (fun body r => r.lexemes = [.symbol .closeBrace] ∧
        ∀ span, Q [.loop span o.index 0 (Number.digitsValue o.last.toList) body])
      (statementWithin j.lexemes.length)) (expectSymbol .closeParen)
  | q :: qs, j, Q =>
    Succeeds (j.behind 3) (fun lhs m => m.lexemes.length = (o.body qs).length + 3 ∧
        o.ReadableBody qs (m.behind 3) fun ss => ∀ s₁ s₂ s₃ : Span, Q (.declare s₁ q.1 none
          (some (.binary s₂ .div lhs (Surface.divisor s₃ o.divisor))) :: ss))
      (levelWithin (j.behind 3).lexemes.length 6)

/-- As `ReadableBody`, for the mark, in which each round of the loop emits `n` vertices. -/
def Readable (o : Outline) (n : Nat) (ds : List Definition) (i : Input) : Prop :=
  Succeeds (i.behind 3) (fun ps m => m.lexemes.length = (o.body o.quotients).length + 1 ∧
      o.quotients.length + 2 ≤ m.lexemes.length ∧
      o.ReadableBody o.quotients m.skip fun body => ∀ span : Span, Function.EmitsPerRound n ds
        { span, kind := .mark, name := o.name, params := ps, returns := none, body })
    (list .closeParen param)

/-- As `Readable`, wherever the lexemes of the mark stand. -/
def Draws (o : Outline) (n : Nat) (ds : List Definition) : Prop :=
  ∀ file size last spans, o.Readable n ds (Input.of file size last spans o.lexemes)

end Outline

/-- A mark that ends with a loop over the integers from 0 to `last`. -/
structure Function.Draws (name : String) (n last : Nat) (ds : List Definition) (f : Function) :
    Prop where
  name_eq : f.name = name
  kind_eq : f.kind = .mark
  body_eq : ∃ front span x body, f.body = front ++ [.loop span x 0 last body]
  emits : f.EmitsPerRound n ds

namespace Outline

variable {o : Outline} {qs : List (String × List Lexeme)} {i j : Input} {Q : List Stmt → Prop}
  {file size n k : Nat} {F : Prop} {ds : List Definition}

theorem ensures_body (hj : j.Reads file size) (hls : j.lexemes = o.body qs)
    (h : o.ReadableBody qs j Q) (hk : qs.length + 2 ≤ k) (hF : F → o.Fits qs) :
    Ensures j (fun ss r => r.lexemes = [] ∧ o.Fits qs ∧ (∃ front span body,
        ss = front ++ [.loop span o.index 0 (digitsValue o.last.toList) body]) ∧ Q ss)
      (fun _ => ¬ F) (stmtRounds statement k) := by
  induction qs generalizing j Q k with
  | nil =>
    obtain ⟨k, rfl⟩ : ∃ k', k = k' + 2 := ⟨k - 2, by omega⟩
    refine ensures_lastLoop hls (fun hle => ?_)
      fun hlt _ hfits => Nat.not_lt.mpr (hF hfits).2 hlt
    refine (h.ensures _).mono fun _ m hm => (hm.ensures _).mono fun body r hr => ⟨hr.1, ?_⟩
    intro span
    exact ⟨⟨forall_mem_nil _, hle⟩, ⟨[], span, body, rfl⟩, hr.2 span⟩
  | cons q qs ih =>
    obtain ⟨k, rfl⟩ : ∃ k', k = k' + 1 := ⟨k - 1, by omega⟩
    refine ensures_quotient (o.body qs) hls ?_
      fun hlt _ hfits => Nat.not_lt.mpr ((hF hfits).1 q mem_cons_self) hlt
    have hlhs : (j.behind 3).lexemes = q.2 ++ .symbol .slash :: .int o.divisor ::
        .symbol .semicolon :: o.body qs :=
      (@Input.lexemes_behind j [_, _, _] _ hls).trans (append_assoc _ _ _)
    refine ((places_operand (places_expressionWithin _)).rest (hj.behind 3) hlhs
      h).mono ?_
    rintro lhs m ⟨hm, hlexemes, hbody⟩
    refine ⟨hlexemes, fun hle => (ih (hm.behind 3) (@Input.lexemes_behind m [_, _, _] _
      hlexemes) hbody (Nat.le_of_succ_le_succ hk) fun hfits =>
        ⟨(forall_mem_cons.mp (hF hfits).1).2, (hF hfits).2⟩).mono ?_⟩
    rintro ss r ⟨hr, hfits, ⟨front, span, body, rfl⟩, hQ⟩
    exact ⟨hr, fun s₁ s₂ s₃ => ⟨⟨forall_mem_cons.mpr ⟨hle, hfits.1⟩, hfits.2⟩,
      ⟨_ :: front, span, body, rfl⟩, hQ s₁ s₂ s₃⟩⟩

theorem ensures_mark (hi : i.Reads file size) (hls : i.lexemes = o.lexemes)
    (h : o.Draws n ds) (hk : 0 < k) :
    Ensures i (fun bs _ => o.Fits o.quotients ∧ ∃ f : Function, bs = [.function f] ∧
        f.Draws o.name n (digitsValue o.last.toList) ds)
      (fun _ => ¬ o.Fits o.quotients) (blockRounds k) := by
  obtain ⟨k, rfl⟩ : ∃ k', k = k' + 1 := ⟨k - 1, by omega⟩
  obtain ⟨spans, hof⟩ := i.exists_of hls
  have hreadable : o.Readable n ds i := hof ▸ h _ _ _ spans
  have hparams : (i.behind 3).lexemes =
      o.params ++ .symbol .openBrace :: o.body o.quotients :=
    (@Input.lexemes_behind i [_, _, _] _ hls).trans (append_assoc _ _ _)
  refine ensures_lastMark hls (((places_param.list _).rest (hi.behind 3) hparams
    hreadable).mono ?_)
  rintro ps m ⟨hm, hlexemes, hlength, hbody⟩
  have hskip := Input.lexemes_skip_of_cons hlexemes
  refine ⟨by rw [hlexemes]; rfl, (ensures_body hm.skip hskip hbody ?_ id).mono ?_⟩
  · rwa [hskip, ← length_cons, ← hlexemes]
  · rintro body r ⟨hr, hfits, ⟨front, span, inner, rfl⟩, hemits⟩
    exact ⟨hr, fun s => ⟨hfits, _, rfl, rfl, rfl, ⟨front, span, o.index, inner, rfl⟩, hemits s⟩⟩

end Outline

end Surface

end DataMarks
