/-
  The range of integer literals.

  The parser reads the sign of a number before its digits, and it compares the digits alone with
  the greatest integer. So the integers that can be written are those from -2147483647 to
  2147483647, however they are written, and the least integer of 32 bits cannot be written
  (`parse_least`).

  `Parser.Visits q j p i` says that running `p` at `i` comes to run `q` at `j`; if `q` fails
  there, then so does `p`. With it the places of signed numbers are followed from a file to the
  number: behind the `in` and the `..` of a loop, behind the `=` of a parameter or global, and
  between the brackets of a vector (`SignedPlace`). At each of them a literal that is in range is
  read as that integer, and any other is what the file is refused for (`integer_literal_range`).
-/
import DataMarks.Proofs.LibraryText
import DataMarks.Proofs.WrittenExpressions

namespace DataMarks

open List

/-! ## Values of digits -/

namespace Number

open Float.Model Float.Model.UnpackedFloat

/-- The value of digits, the last one first. -/
def placeValue : List Char → Nat
  | [] => 0
  | c :: cs => (c.toNat - '0'.toNat) + 10 * placeValue cs

theorem digitsValue_eq_placeValue (cs : List Char) : digitsValue cs = placeValue cs.reverse := by
  induction cs using List.reverseRecOn with
  | nil => rfl
  | append_singleton cs c ih =>
    rw [reverse_concat, placeValue, ← ih, digitsValue, foldl_concat, Nat.add_comm]
    rfl

end Number

namespace Surface

open DataMarks.Surface.Parser

/-! ## Runs within runs -/

namespace Parser

variable {α β γ : Type} {q : Parser β} {p : Parser α} {i j k : Input} {e : ParseError}

/-- Running a parser at an input comes to run `q` at `j`. -/
inductive Visits {β : Type} (q : Parser β) (j : Input) : {α : Type} → Parser α → Input → Prop
  | here : Visits q j q j
  | first {α γ : Type} {p : Parser γ} {f : γ → Parser α} {i : Input} (h : Visits q j p i) :
      Visits q j (p >>= f) i
  | next {α γ : Type} {p : Parser γ} {f : γ → Parser α} {i m : Input} {a : γ}
      (hp : p i = .ok (a, m)) (h : Visits q j (f a) m) : Visits q j (p >>= f) i

namespace Visits

/-- What fails on the way fails in the end. -/
theorem fails (h : Visits q j p i) (hq : q j = .error e) : p i = .error e := by
  induction h with
  | here => exact hq
  | @first _ _ p f i h ih =>
    show (p i >>= fun r => f r.1 r.2) = _
    rw [ih]
    rfl
  | @next _ _ p f i m a hp h ih =>
    show (p i >>= fun r => f r.1 r.2) = _
    rw [hp]
    exact ih

theorem trans {r : Parser γ} (h : Visits q j p i) (hp : Visits p i r k) : Visits q j r k := by
  induction hp with
  | here => exact h
  | first _ ih => exact .first ih
  | next hstep _ ih => exact .next hstep ih

/-- A step that succeeds is passed. -/
theorem seq {r : Parser γ} {f : γ → Parser α}
    (h : Succeeds i (fun a m => Visits q j (f a) m) r) : Visits q j (r >>= f) i := by
  obtain ⟨a, m, hr, hnext⟩ := h.exists_ok
  exact .next hr hnext

end Visits

theorem eq_ok_of_succeeds {a : α} {r : Input} (h : Succeeds i (fun a' r' => a' = a ∧ r' = r) p) :
    p i = .ok (a, r) := by
  obtain ⟨_, _, hp, rfl, rfl⟩ := h.exists_ok
  exact hp

theorem eq_error_of_ensures (h : Ensures i (fun _ _ => False) (fun e' => e' = e) p) :
    p i = .error e := by
  cases hp : p i with
  | error e' => rw [(ensures_of_error hp).mp h]
  | ok s => exact ((ensures_of_ok hp).mp h).elim

end Parser

/-- Reading a source text as a file comes to run `q` at `j`. -/
def File.Visits {β : Type} (file : Nat) (source : String) (q : Parser β) (j : Input) : Prop :=
  ∃ ts, tokens file source = .ok ts ∧
    Parser.Visits q j Parser.blocks { file, tokens := ts, last := 0, size := source.utf8ByteSize }

theorem File.Visits.fails {β : Type} {file : Nat} {source : String} {q : Parser β} {j : Input}
    {e : ParseError} (h : File.Visits file source q j) (hq : q j = .error e) :
    File.parse file source = .error e := by
  obtain ⟨ts, htokens, hvisits⟩ := h
  have hfile : (do return File.mk (← Parser.blocks) : Parser File)
      { file, tokens := ts, last := 0, size := source.utf8ByteSize } = .error e :=
    (Parser.Visits.first hvisits).fails hq
  unfold File.parse Parser.run
  rw [htokens]
  simp only [hfile]

/-! ## Signed integers -/

/-- A minus or nothing. -/
def signLexemes (negative : Bool) : List Lexeme := if negative then [.symbol .minus] else []

/-- The integer that digits with or without a minus stand for. -/
def signedValue (negative : Bool) (digits : String) : Int :=
  if negative then -(Number.placeValue digits.toList.reverse : Int)
  else Number.placeValue digits.toList.reverse

section

variable {i j : Input} {negative : Bool} {digits : String} {rest : List Lexeme}
  {E : ParseError → Prop}

/-- The digits are compared without their sign. -/
theorem ensures_number {Q : Numeral → Input → Prop}
    (hj : j.lexemes = signLexemes negative ++ .int digits :: rest)
    (hyes : Number.digitsValue digits.toList ≤ maxInt →
      Q (.int negative (Number.digitsValue digits.toList))
        (j.behind ((signLexemes negative).length + 1)))
    (hno : maxInt < Number.digitsValue digits.toList →
      E (.invalidLiteral (j.behind (signLexemes negative).length).here .outOfRange)) :
    Ensures j Q E number := by
  refine .seq (R := fun n m => n = negative ∧ m = j.behind (signLexemes negative).length) ?_ ?_
  · cases negative with
    | false => exact .eatOther (by rw [hj]; simp [signLexemes]) ⟨rfl, rfl⟩
    | true => exact .eatNext hj fun _ => ⟨rfl, rfl⟩
  · rintro _ _ ⟨rfl, rfl⟩
    refine .bind (.peek ?_)
    rw [Input.lexemes_behind hj]
    refine .bind (.nextSpan (.bind (.advance (.ite (fun h => .pure ?_) fun h => ?_))))
    · rw [Input.skip_behind]
      exact hyes h
    · exact .throw (hno (Nat.lt_of_not_le h))

theorem ensures_literal {Q : Literal → Input → Prop}
    (hj : j.lexemes = signLexemes negative ++ .int digits :: rest)
    (h : Ensures j (fun n r => Q (.number n) r) E number) : Ensures j Q E literal := by
  refine .bind (.nextSpan (.bind (.peek ?_)))
  rw [hj]
  cases negative <;> exact .seq h fun n r hr => .pure hr

theorem ensures_integer {Q : Int → Input → Prop}
    (hj : j.lexemes = signLexemes negative ++ .int digits :: rest)
    (hyes : Number.digitsValue digits.toList ≤ maxInt →
      Q (signedValue negative digits) (j.behind ((signLexemes negative).length + 1)))
    (hno : maxInt < Number.digitsValue digits.toList →
      E (.invalidLiteral (j.behind (signLexemes negative).length).here .outOfRange)) :
    Ensures j Q E integer := by
  unfold signedValue at hyes
  rw [← Number.digitsValue_eq_placeValue] at hyes
  exact .bind (.nextSpan (.bind (ensures_literal hj
    (ensures_number hj (fun h => .pure (hyes h)) hno))))

/-- The value of an integer literal as a number is the integer. -/
theorem toFloat_beq {n : Nat} (h : n ≤ maxInt) (negative : Bool) :
    ((Numeral.int negative n).toFloat == Float.ofInt (if negative then -(n : Int) else n)) = true := by
  have hn : n ≤ 2 ^ 53 := Nat.le_trans h (by decide)
  cases negative with
  | false =>
    have hint : Float.ofNat n = Float.ofInt n := rfl
    rw [toFloat_int h, hint, if_neg Bool.false_ne_true,
      Number.ofInt_beq (by rwa [Int.natAbs_natCast]) (by rwa [Int.natAbs_natCast])]
    exact decide_eq_true rfl
  | true =>
    by_cases hzero : n = 0
    · subst hzero
      decide +kernel
    · have hneg : (Numeral.int true n).toFloat = Float.ofInt (-n) :=
        Number.ofInt_neg_one_mul hzero hn
      have habs : (-(n : Int)).natAbs ≤ 2 ^ 53 := by rwa [Int.natAbs_neg]
      rw [hneg, if_pos rfl, Number.ofInt_beq habs habs]
      exact decide_eq_true rfl

end

/-! ## Places of signed numbers -/

/-- What a loop starts with, up to its first bound. -/
def loopHead (parenthesized : Bool) (x : String) : List Lexeme :=
  .keyword .for_ :: ((if parenthesized then [.symbol .openParen] else []) ++
    [.name x, .keyword .in_])

/-- The components of the vector at an input: the first one is behind the bracket, and each other
one behind a comma. -/
inductive Component (i : Input) : Input → Prop
  | first (hi : i.lexemes.head? = some (.symbol .openBracket)) : Component i i.skip
  | next {j m : Input} {n : Numeral} (h : Component i j) (hj : number j = .ok (n, m))
      (hm : m.lexemes.head? = some (.symbol .comma)) : Component i m.skip

/-- The places in a source text where the grammar has a signed number. -/
inductive SignedPlace (file : Nat) (source : String) : Input → Prop
  | firstBound {depth : Nat} {i : Input} {parenthesized : Bool} {x : String} {ls : List Lexeme}
      (h : File.Visits file source (statementWithin (depth + 1)) i)
      (hi : i.lexemes = loopHead parenthesized x ++ ls) :
      SignedPlace file source (i.behind (loopHead parenthesized x).length)
  | lastBound {depth : Nat} {i m : Input} {parenthesized : Bool} {x : String} {ls : List Lexeme}
      {first : Int} (h : File.Visits file source (statementWithin (depth + 1)) i)
      (hi : i.lexemes = loopHead parenthesized x ++ ls)
      (hfirst : integer (i.behind (loopHead parenthesized x).length) = .ok (first, m))
      (hm : m.lexemes.head? = some (.symbol .dotDot)) : SignedPlace file source m.skip
  | parameter {i : Input} {x t : String} {ls : List Lexeme} (h : File.Visits file source param i)
      (hi : i.lexemes = .name x :: .symbol .colon :: .name t :: .symbol .eq :: ls) :
      SignedPlace file source (i.behind 4)
  | global {i : Input} {x t : String} {ls : List Lexeme}
      (h : File.Visits file source Parser.global i)
      (hi : i.lexemes = .keyword .global :: .name x :: .symbol .colon :: .name t :: .symbol .eq :: ls) :
      SignedPlace file source (i.behind 5)
  | component {i j : Input} (h : File.Visits file source literal i) (hj : Component i j) :
      SignedPlace file source j

namespace Parser

variable {i j m : Input}

/-- What comes behind the start of a loop. -/
def loopBehind (parenthesized : Bool) (start : Span) (x : String) (depth : Nat) : Parser Stmt := do
  let first ← integer
  expectSymbol .dotDot
  let last ← integer
  if parenthesized then
    expectSymbol .closeParen
  let body ← statementWithin depth
  return .loop (← spanFrom start) x first last body

theorem visits_loopBehind {parenthesized : Bool} {x : String} {ls : List Lexeme}
    (hi : i.lexemes = loopHead parenthesized x ++ ls) (depth : Nat) :
    Visits (loopBehind parenthesized i.here x depth) (i.behind (loopHead parenthesized x).length)
      (statementWithin (depth + 1)) i := by
  cases parenthesized with
  | false =>
    refine .seq (.nextSpan (.seq (.peekNext hi (.seq (.advanceNext hi fun hname => ?_)))))
    exact .seq (.eatOther (by rw [hname]; simp) (.seq (.nameNext hname fun hin =>
      .seq (.expectNext hin fun _ => .here))))
  | true =>
    refine .seq (.nextSpan (.seq (.peekNext hi (.seq (.advanceNext hi fun hparen => ?_)))))
    exact .seq (.eatNext hparen fun hname => .seq (.nameNext hname fun hin =>
      .seq (.expectNext hin fun _ => .here)))

theorem visits_defaultValue (hi : i.lexemes.head? = some (.symbol .eq)) :
    Visits literal i.skip defaultValue i :=
  .seq (.eatNext (Input.lexemes_eq_cons hi) fun _ => .first (.first .here))

theorem visits_param {x t : String} {ls : List Lexeme}
    (hi : i.lexemes = .name x :: .symbol .colon :: .name t :: .symbol .eq :: ls) :
    Visits literal (i.behind 4) param i :=
  .seq (.nameNext hi fun hcolon => .seq (.expectNext hcolon fun htype => .seq (.typeNameNext htype
    fun heq => .first (visits_defaultValue (by rw [heq]; rfl)))))

theorem visits_global {x t : String} {ls : List Lexeme}
    (hi : i.lexemes = .keyword .global :: .name x :: .symbol .colon :: .name t :: .symbol .eq :: ls) :
    Visits literal (i.behind 5) Parser.global i :=
  .seq (.nextSpan (.seq (.advanceNext hi fun hname => .seq (.nameNext hname fun hcolon =>
    .seq (.expectNext hcolon fun htype => .seq (.typeNameNext htype fun heq =>
      .first (visits_defaultValue (by rw [heq]; rfl))))))))

/-- A number takes a token, and it does not start with a bracket. -/
theorem number_consumes {n : Numeral} (h : number j = .ok (n, m)) :
    j.lexemes.head? ≠ some (.symbol .closeBracket) ∧ m.lexemes.length < j.lexemes.length := by
  suffices hensures : Ensures j (fun _ r => j.lexemes.head? ≠ some (.symbol .closeBracket) ∧
      r.lexemes.length < j.lexemes.length) (fun _ => True) number from
    (ensures_of_ok h).mp hensures
  refine .seq (R := fun _ k => k.lexemes.length ≤ j.lexemes.length ∧
    (j.lexemes.head? = some (.symbol .minus) ∨ k = j)) ?_ fun _ k hk => ?_
  · refine .eat (fun hminus => ⟨?_, .inl hminus⟩) fun _ => ⟨Nat.le_refl _, .inr rfl⟩
    rw [Input.lexemes_eq_cons hminus]
    exact Nat.le_succ _
  · -- The token that is read is the first one, or a minus is.
    have hread : ∀ l, k.lexemes.head? = some l → l ≠ .symbol .closeBracket →
        j.lexemes.head? ≠ some (.symbol .closeBracket) ∧
          k.skip.lexemes.length < j.lexemes.length := by
      intro l hl hclose
      have hlength := congrArg List.length (Input.lexemes_eq_cons hl)
      rw [length_cons] at hlength
      refine ⟨?_, by omega⟩
      rcases hk.2 with hminus | rfl
      · simp [hminus]
      · simpa [hl] using hclose
    refine .bind (.peek ?_)
    split
    · rename_i hl
      exact .bind (.nextSpan (.bind (.advance (.ite (fun _ => .pure (hread _ hl (by simp)))
        fun _ => .throw trivial))))
    · rename_i hl
      exact .bind (.advance (.pure (hread _ hl (by simp))))
    · exact .unexpected trivial

theorem visits_number {n : Nat} (hj : j.lexemes.head? ≠ some (.symbol .closeBracket)) :
    Visits number j (listRounds .closeBracket number (n + 1)) j :=
  .seq (.eatOther hj (.first .here))

/-- The rounds of a list are enough to come to every component. -/
theorem visits_listRounds (h : Component i j) : ∃ n, j.lexemes.length ≤ n ∧
    Visits (listRounds .closeBracket number (n + 1)) j literal i := by
  induction h with
  | first hi =>
    refine ⟨i.skip.lexemes.length, Nat.le_refl _, .seq (.nextSpan (.seq (.peek ?_)))⟩
    rw [hi]
    exact .seq (.advance (.first (.seq (.rounds .here))))
  | @next j m a h hj hm ih =>
    obtain ⟨n, hn, hvisits⟩ := ih
    obtain ⟨hhead, hlength⟩ := number_consumes hj
    have hskip := Input.lexemes_eq_cons hm
    obtain ⟨n, rfl⟩ : ∃ n', n = n' + 1 := ⟨n - 1, by omega⟩
    refine ⟨n, ?_, Visits.trans ?_ hvisits⟩
    · have := congrArg List.length hskip
      rw [length_cons] at this
      omega
    · exact .seq (.eatOther hhead (.next hj (.seq (.eatNext hskip fun _ => .first .here))))

end Parser

section

variable {file : Nat} {source : String} {j : Input} {negative : Bool} {digits : String}
  {rest : List Lexeme}

theorem File.Visits.trans {α β : Type} {q : Parser β} {p : Parser α} {i : Input}
    (h : File.Visits file source p i) (hp : Parser.Visits q j p i) :
    File.Visits file source q j := by
  obtain ⟨ts, htokens, hvisits⟩ := h
  exact ⟨ts, htokens, hp.trans hvisits⟩

/-- At all places of signed numbers an integer literal is read as a number. -/
theorem SignedPlace.visits (h : SignedPlace file source j)
    (hj : j.lexemes = signLexemes negative ++ .int digits :: rest) :
    File.Visits file source number j := by
  have hliteral : Visits number j literal j := by
    refine .seq (.nextSpan (.seq (.peek ?_)))
    rw [hj]
    cases negative <;> exact .first .here
  have hinteger : Visits number j integer j := .seq (.nextSpan (.first hliteral))
  cases h with
  | firstBound h hi =>
    exact h.trans ((Visits.trans hinteger (.first .here)).trans (visits_loopBehind hi _))
  | lastBound h hi hfirst hm =>
    exact h.trans (Visits.trans (.next hfirst (.seq (.expectNext (Input.lexemes_eq_cons hm)
      fun _ => .first hinteger))) (visits_loopBehind hi _))
  | parameter h hi => exact h.trans (hliteral.trans (visits_param hi))
  | global h hi => exact h.trans (hliteral.trans (visits_global hi))
  | component h hcomponent =>
    obtain ⟨n, -, hvisits⟩ := visits_listRounds hcomponent
    refine h.trans ((visits_number ?_).trans hvisits)
    rw [hj]
    cases negative <;> simp [signLexemes]

/-- Where the grammar has a signed number, digits with or without a minus are read if they stand for
an integer of 32 bits other than the least one, and what is read is that integer. Otherwise the file
is refused at the digits. -/
theorem integer_literal_range (hplace : SignedPlace file source j)
    (hj : j.lexemes = signLexemes negative ++ .int digits :: rest) :
    (-2147483648 < signedValue negative digits ∧ signedValue negative digits ≤ 2147483647 →
      number j = .ok (.int negative (signedValue negative digits).natAbs,
        j.behind ((signLexemes negative).length + 1)) ∧
      literal j = .ok (.number (.int negative (signedValue negative digits).natAbs),
        j.behind ((signLexemes negative).length + 1)) ∧
      integer j = .ok (signedValue negative digits,
        j.behind ((signLexemes negative).length + 1)) ∧
      ((Numeral.int negative (signedValue negative digits).natAbs).toFloat ==
        Float.ofInt (signedValue negative digits)) = true) ∧
    (¬ (-2147483648 < signedValue negative digits ∧ signedValue negative digits ≤ 2147483647) →
      File.parse file source =
        .error (.invalidLiteral (j.behind (signLexemes negative).length).here .outOfRange)) := by
  have habs : (signedValue negative digits).natAbs = Number.digitsValue digits.toList := by
    unfold signedValue
    rw [← Number.digitsValue_eq_placeValue]
    split <;> omega
  have hrange : (-2147483648 < signedValue negative digits ∧
      signedValue negative digits ≤ 2147483647) ↔ Number.digitsValue digits.toList ≤ maxInt := by
    rw [← habs, maxInt]
    omega
  rw [hrange, habs]
  constructor
  · intro h
    have hno : ¬ maxInt < Number.digitsValue digits.toList := Nat.not_lt.mpr h
    refine ⟨?_, ?_, ?_, ?_⟩
    · exact eq_ok_of_succeeds (ensures_number hj (fun _ => ⟨rfl, rfl⟩) hno)
    · exact eq_ok_of_succeeds (ensures_literal hj (ensures_number hj (fun _ => ⟨rfl, rfl⟩) hno))
    · exact eq_ok_of_succeeds (ensures_integer hj (fun _ => ⟨rfl, rfl⟩) hno)
    · have hvalue := toFloat_beq h negative
      unfold signedValue
      rwa [← Number.digitsValue_eq_placeValue]
  · intro h
    refine (hplace.visits hj).fails (eq_error_of_ensures (ensures_number hj ?_ fun _ => rfl))
    exact fun hyes => absurd hyes h

end

/-- A global at the start of a file. -/
theorem Parser.visits_firstGlobal {i : Input} (hi : i.lexemes.head? = some (.keyword .global)) :
    Visits Parser.global i Parser.blocks i := by
  refine .seq (.rounds (.seq (.peek ?_)))
  rw [hi]
  refine .first (.seq (.peek ?_))
  rw [hi]
  exact .first .here

/-- The least integer of 32 bits is refused. -/
theorem parse_least : signedValue true "2147483648" = -2147483648 ∧
    File.parse 2 "global g: int = -2147483648;" =
      .error (.invalidLiteral ⟨2, 17, 27⟩ .outOfRange) := by
  refine ⟨by decide +kernel, ?_⟩
  have hmap : (File.parseChars 2 28 "global g: int = -2147483648;".toList).map (fun _ => ()) =
      .error (.invalidLiteral ⟨2, 17, 27⟩ .outOfRange) := by decide +kernel
  rw [File.parse_eq]
  show File.parseChars 2 28 _ = _
  cases hparse : File.parseChars 2 28 "global g: int = -2147483648;".toList with
  | error e =>
    rw [hparse] at hmap
    cases hmap
    rfl
  | ok file =>
    rw [hparse] at hmap
    cases hmap

/-- The start of a text with a vector of two components, of which the second one is out of range. -/
def wideVector : Input :=
  { file := 2
    tokens :=
      [⟨.keyword .global, ⟨2, 0, 6⟩⟩, ⟨.name "g", ⟨2, 7, 8⟩⟩, ⟨.symbol .colon, ⟨2, 8, 9⟩⟩,
        ⟨.name "Vector2", ⟨2, 10, 17⟩⟩, ⟨.symbol .eq, ⟨2, 18, 19⟩⟩,
        ⟨.symbol .openBracket, ⟨2, 20, 21⟩⟩, ⟨.symbol .minus, ⟨2, 21, 22⟩⟩,
        ⟨.int "2147483647", ⟨2, 22, 32⟩⟩, ⟨.symbol .comma, ⟨2, 32, 33⟩⟩,
        ⟨.int "002147483648", ⟨2, 34, 46⟩⟩, ⟨.symbol .closeBracket, ⟨2, 46, 47⟩⟩,
        ⟨.symbol .semicolon, ⟨2, 47, 48⟩⟩]
    last := 0
    size := 48 }

theorem visits_wideVector :
    File.Visits 2 "global g: Vector2 = [-2147483647, 002147483648];" literal
      (wideVector.behind 5) := by
  refine ⟨wideVector.tokens, ?_, (visits_global rfl).trans (visits_firstGlobal rfl)⟩
  rw [tokens, lex, ← drop_zero (l := String.toList _), ← Lexer.scanFrom_eq]
  decide +kernel

theorem integer_literal_range_wideVector :
    number (wideVector.behind 6) = .ok (.int true 2147483647, wideVector.behind 8) ∧
    File.parse 2 "global g: Vector2 = [-2147483647, 002147483648];" =
      .error (.invalidLiteral ⟨2, 34, 46⟩ .outOfRange) := by
  have hfirst : Component (wideVector.behind 5) (wideVector.behind 6) := .first rfl
  have hminus : (wideVector.behind 6).lexemes = signLexemes true ++ .int "2147483647" :: _ := rfl
  have hplain : (wideVector.behind 9).lexemes = signLexemes false ++ .int "002147483648" :: _ := rfl
  have hnumber : number (wideVector.behind 6) = .ok (.int true 2147483647, wideVector.behind 8) :=
    ((integer_literal_range (.component visits_wideVector hfirst) hminus).1 (by decide +kernel)).1
  have hsecond : Component (wideVector.behind 5) (wideVector.behind 9) := .next hfirst hnumber rfl
  exact ⟨hnumber, (integer_literal_range (.component visits_wideVector hsecond) hplain).2
    (by decide +kernel)⟩

end Surface

end DataMarks
