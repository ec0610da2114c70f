/-
  Rules for running parsers.

  `Parser.Ensures i Q E p` says what comes of running `p` at the input `i`: a result and the
  input that is left satisfy `Q`, and an error satisfies `E`. With the trivial `E` it says what
  a successful run gives, with the absurd one that there is a result. There is a rule for each
  primitive and for sequence and choice; functions of the parser have rules of their own,
  beside what is proved with them.
-/
import DataMarks.Surface.Parser

namespace DataMarks.Surface

open List

namespace Input

/-- The lexemes that are left to read. -/
def lexemes (i : Input) : List Lexeme := i.tokens.map Token.lexeme

/-- The input behind the next token. -/
def skip (i : Input) : Input :=
  match i.tokens with
  | t :: rest => { i with tokens := rest, last := t.span.stop }
  | [] => i

/-- The place of the next token; at the end of the file, the empty stretch there. -/
def here (i : Input) : Span :=
  match i.tokens with
  | t :: _ => t.span
  | [] => ⟨i.file, i.size, i.size⟩

/-- The error that refuses what comes next. -/
def refusal (i : Input) (expected : List String) : ParseError :=
  match i.lexemes.head? with
  | some l => .unexpectedToken i.here l.text expected
  | none => .unexpectedEnd i.here expected

theorem length_lexemes (i : Input) : i.lexemes.length = i.tokens.length := length_map _

theorem lexemes_skip (i : Input) : i.skip.lexemes = i.lexemes.tail := by
  unfold skip lexemes
  cases h : i.tokens with
  | nil => simp [h]
  | cons t ts => rfl

variable {i : Input} {l : Lexeme}

theorem lexemes_skip_of_cons {ls : List Lexeme} (h : i.lexemes = l :: ls) :
    i.skip.lexemes = ls := by
  rw [lexemes_skip, h, tail_cons]

/-- The input behind so many tokens. -/
def behind : Nat → Input → Input
  | 0, i => i
  | n + 1, i => behind n i.skip

theorem lexemes_behind {front ls : List Lexeme} (h : i.lexemes = front ++ ls) :
    (i.behind front.length).lexemes = ls := by
  induction front generalizing i with
  | nil => exact h
  | cons l front ih => exact ih (lexemes_skip_of_cons h)

theorem skip_behind (n : Nat) (i : Input) : (i.behind n).skip = i.behind (n + 1) := by
  induction n generalizing i with
  | zero => rfl
  | succ n ih => exact ih i.skip

theorem behind_add (m n : Nat) (i : Input) : i.behind (m + n) = (i.behind m).behind n := by
  induction m generalizing i with
  | zero => rw [Nat.zero_add]; rfl
  | succ m ih => rw [Nat.add_right_comm]; exact ih i.skip

theorem tokens_eq_cons (h : i.lexemes.head? = some l) :
    ∃ t ts, i.tokens = t :: ts ∧ t.lexeme = l ∧ i.here = t.span ∧
      i.skip = { i with tokens := ts, last := t.span.stop } := by
  unfold lexemes at h
  unfold here skip
  cases htokens : i.tokens with
  | nil => simp [htokens] at h
  | cons t ts => exact ⟨t, ts, rfl, by simpa [htokens] using h, rfl, rfl⟩

theorem lexemes_eq_cons (h : i.lexemes.head? = some l) : i.lexemes = l :: i.skip.lexemes := by
  rw [lexemes_skip]
  cases hi : i.lexemes with
  | nil => simp [hi] at h
  | cons l' ls => simpa [hi] using h

theorem head?_lexemes_skip (i : Input) : i.skip.lexemes.head? = i.lexemes[1]? := by
  rw [lexemes_skip, head?_tail]

end Input

namespace Parser

/-- What comes behind an argument: more of them, or the end of the list. -/
def argumentsBehind (expr : Parser Expr) (n : Nat) (args : List Expr)
    (keywords : List (String × Expr)) : Parser (List Expr × List (String × Expr)) := do
  if ← eatSymbol .comma then
    argumentRounds expr n args keywords
  else
    expectSymbol .closeParen
    return (args.reverse, keywords.reverse)

variable {α β : Type} {i : Input} {Q R : α → Input → Prop} {E : ParseError → Prop}

/-- Run at `i`, the parser gives a result that satisfies `Q` together with the input left, or an
error that satisfies `E`. -/
def Ensures (i : Input) (Q : α → Input → Prop) (E : ParseError → Prop) (p : Parser α) : Prop :=
  match p i with
  | .ok (a, r) => Q a r
  | .error e => E e

variable {p : Parser α}

theorem ensures_of_ok {a : α} {r : Input} (h : p i = .ok (a, r)) : Ensures i Q E p ↔ Q a r := by
  rw [Ensures, h]

theorem ensures_of_error {e : ParseError} (h : p i = .error e) : Ensures i Q E p ↔ E e := by
  rw [Ensures, h]

variable {f : β → Parser α}

theorem ensures_bind_iff {p : Parser β} :
    Ensures i Q E (p >>= f) ↔ Ensures i (fun b m => Ensures m Q E (f b)) E p := by
  have hrun : (p >>= f) i = p i >>= fun r => f r.1 r.2 := rfl
  cases hp : p i with
  | error e =>
    have hbind : (p >>= f) i = .error e := by
      rw [hrun, hp]
      rfl
    rw [ensures_of_error hbind, ensures_of_error hp]
  | ok r =>
    have hbind : (p >>= f) i = f r.1 r.2 := by
      rw [hrun, hp]
      rfl
    rw [ensures_of_ok hp, Ensures, Ensures, hbind]

namespace Ensures

theorem mono (h : Ensures i R E p) (hQ : ∀ a r, R a r → Q a r) : Ensures i Q E p := by
  cases hp : p i with
  | error e => exact (ensures_of_error hp).mpr ((ensures_of_error hp).mp h)
  | ok r => exact (ensures_of_ok hp).mpr (hQ _ _ ((ensures_of_ok hp).mp h))

theorem pure {a : α} (h : Q a i) : Ensures i Q E (Pure.pure a : Parser α) := h

theorem throw {e : ParseError} (h : E e) : Ensures i Q E (throw e : Parser α) := h

theorem bind {p : Parser β} {f : β → Parser α}
    (h : Ensures i (fun b m => Ensures m Q E (f b)) E p) : Ensures i Q E (p >>= f) :=
  ensures_bind_iff.mpr h

/-- What is known after the first step is what the second one starts with. -/
theorem seq {p : Parser β} {R : β → Input → Prop} (hp : Ensures i R E p)
    (hf : ∀ b m, R b m → Ensures m Q E (f b)) : Ensures i Q E (p >>= f) :=
  bind (hp.mono hf)

theorem ite {c : Prop} [Decidable c] {q : Parser α} (hp : c → Ensures i Q E p)
    (hq : ¬ c → Ensures i Q E q) : Ensures i Q E (if c then p else q) := by
  split
  · rename_i hc
    exact hp hc
  · rename_i hc
    exact hq hc

/-! ## Primitives -/

theorem peek {Q : Option Lexeme → Input → Prop} (h : Q i.lexemes.head? i) :
    Ensures i Q E peek := by
  rw [Input.lexemes, head?_map] at h
  exact h

theorem peekSecond {Q : Option Lexeme → Input → Prop} (h : Q i.lexemes[1]? i) :
    Ensures i Q E peekSecond := by
  rw [Input.lexemes, getElem?_map] at h
  exact h

theorem nextSpan {Q : Span → Input → Prop} (h : Q i.here i) : Ensures i Q E nextSpan := by
  have hrun : Parser.nextSpan i = .ok (i.here, i) := by
    obtain ⟨file, tokens, last, size⟩ := i
    cases tokens <;> rfl
  exact (ensures_of_ok hrun).mpr h

theorem spanFrom {start : Span} {Q : Span → Input → Prop}
    (h : Q ⟨i.file, start.start, max i.last start.stop⟩ i) : Ensures i Q E (spanFrom start) := h

theorem rounds {Q : Nat → Input → Prop} (h : Q (i.lexemes.length + 1) i) :
    Ensures i Q E rounds := by
  rw [Input.length_lexemes] at h
  exact h

theorem advance {Q : Unit → Input → Prop} (h : Q () i.skip) : Ensures i Q E advance := h

theorem unexpected {expected : List String} (h : E (i.refusal expected)) :
    Ensures i Q E (unexpected expected) := by
  refine bind (nextSpan (bind (peek ?_)))
  unfold Input.refusal at h
  cases hnext : i.lexemes.head? with
  | none =>
    rw [hnext] at h
    exact throw h
  | some l =>
    rw [hnext] at h
    exact throw h

variable {l : Lexeme} {ls : List Lexeme}

theorem eat {Q : Bool → Input → Prop} (hyes : i.lexemes.head? = some l → Q true i.skip)
    (hno : i.lexemes.head? ≠ some l → Q false i) : Ensures i Q E (eat l) := by
  refine bind (peek (ite (fun h => ?_) fun h => ?_))
  · exact bind (advance (pure (hyes h)))
  · exact pure (hno h)

theorem expect {Q : Unit → Input → Prop} (hyes : i.lexemes.head? = some l → Q () i.skip)
    (hno : i.lexemes.head? ≠ some l → E (i.refusal [l.description])) :
    Ensures i Q E (expect l) := by
  refine bind (eat (fun h => ?_) fun h => ?_)
  · exact pure (hyes h)
  · exact unexpected (hno h)

theorem name {Q : Span × String → Input → Prop}
    (hyes : ∀ n, i.lexemes.head? = some (.name n) → Q (i.here, n) i.skip)
    (hno : (∀ n, i.lexemes.head? ≠ some (.name n)) → E (i.refusal ["name"])) :
    Ensures i Q E name := by
  refine bind (peek ?_)
  split
  · rename_i n hnext
    exact bind (nextSpan (bind (advance (pure (hyes n hnext)))))
  · rename_i hnext
    exact unexpected (hno hnext)

theorem typeName {Q : TypeName → Input → Prop}
    (hyes : ∀ n, i.lexemes.head? = some (.name n) → Q ⟨i.here, n⟩ i.skip)
    (hno : (∀ n, i.lexemes.head? ≠ some (.name n)) → E (i.refusal ["name"])) :
    Ensures i Q E typeName :=
  bind (name (fun n h => pure (hyes n h)) hno)

/-! ## Primitives where the next lexeme is known -/

theorem peekNext {Q : Option Lexeme → Input → Prop} (hi : i.lexemes = l :: ls) (h : Q (some l) i) :
    Ensures i Q E Parser.peek :=
  peek (by rw [hi]; exact h)

variable {Q : Unit → Input → Prop}

theorem advanceNext (hi : i.lexemes = l :: ls) (h : i.skip.lexemes = ls → Q () i.skip) :
    Ensures i Q E Parser.advance :=
  advance (h (Input.lexemes_skip_of_cons hi))

theorem eatNext {Q : Bool → Input → Prop} (hi : i.lexemes = l :: ls)
    (h : i.skip.lexemes = ls → Q true i.skip) : Ensures i Q E (Parser.eat l) :=
  eat (fun _ => h (Input.lexemes_skip_of_cons hi)) fun hno => absurd (by rw [hi]; rfl) hno

theorem eatOther {Q : Bool → Input → Prop} (hi : i.lexemes.head? ≠ some l) (h : Q false i) :
    Ensures i Q E (Parser.eat l) :=
  eat (fun hyes => absurd hyes hi) fun _ => h

theorem expectNext (hi : i.lexemes = l :: ls) (h : i.skip.lexemes = ls → Q () i.skip) :
    Ensures i Q E (Parser.expect l) :=
  bind (eatNext hi fun hskip => pure (h hskip))

theorem nameNext {n : String} {Q : Span × String → Input → Prop} (hi : i.lexemes = .name n :: ls)
    (h : i.skip.lexemes = ls → Q (i.here, n) i.skip) : Ensures i Q E Parser.name :=
  bind (peekNext hi (bind (nextSpan (bind (advanceNext hi fun hskip => pure (h hskip))))))

theorem typeNameNext {n : String} {Q : TypeName → Input → Prop} (hi : i.lexemes = .name n :: ls)
    (h : i.skip.lexemes = ls → Q ⟨i.here, n⟩ i.skip) : Ensures i Q E Parser.typeName :=
  bind (nameNext hi fun hskip => pure (h hskip))

/-! ## Optional items -/

theorem after {s : Symbol} {item : Parser α} {Q : Option α → Input → Prop}
    (hyes : i.lexemes.head? = some (.symbol s) →
      Ensures i.skip (fun a r => Q (some a) r) E item)
    (hno : i.lexemes.head? ≠ some (.symbol s) → Q none i) : Ensures i Q E (after s item) := by
  refine bind (eat (fun h => ?_) fun h => ?_)
  · exact bind ((hyes h).mono fun a r ha => pure ha)
  · exact pure (hno h)

theorem afterNext {s : Symbol} {item : Parser α} {Q : Option α → Input → Prop}
    (hi : i.lexemes = .symbol s :: ls)
    (h : i.skip.lexemes = ls → Ensures i.skip (fun a r => Q (some a) r) E item) :
    Ensures i Q E (Parser.after s item) :=
  bind (eatNext hi fun hskip => bind ((h hskip).mono fun _ _ ha => pure ha))

end Ensures

/-! ## Texts -/

/-- What comes of reading a text that is cut into tokens. -/
theorem run_cases {file : Nat} {source : String} {ts : List Token} {P : α → Prop}
    (hts : tokens file source = .ok ts)
    (h : Ensures ⟨file, ts, 0, source.utf8ByteSize⟩ (fun a _ => P a) E p) :
    (∃ a, run p file source = .ok a ∧ P a) ∨ ∃ e, run p file source = .error e ∧ E e := by
  unfold run
  simp only [hts]
  split
  · rename_i hrun
    exact .inl ⟨_, rfl, (ensures_of_ok hrun).mp h⟩
  · rename_i hrun
    exact .inr ⟨_, rfl, (ensures_of_error hrun).mp h⟩

end Parser

end DataMarks.Surface
