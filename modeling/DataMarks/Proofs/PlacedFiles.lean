/-
  Every node of a file that is read lies within the text of the file and covers its children,
  and no literal has a value that its type refuses; all that an error marks which is given
  instead lies within the text, too (`File.placed_of_parse`, `File.within_of_parse`).

  `Parser.Places nodes p` says that the nodes of what the parser gives are read from the input
  it starts at to the one it leaves, and that its errors mark places of the text. It is shown
  function by function, in the order of the parser.
-/
import DataMarks.Proofs.PlacedSyntax

namespace DataMarks

open List

/-- All that the error marks lies within the text of `size` bytes that has the number `file`. -/
def ParseError.Within (file size : Nat) (e : ParseError) : Prop :=
  ∀ l ∈ e.labels, l.span.Within file size

namespace Surface

theorem Input.Reads.refusal {file size : Nat} {i : Input} (h : i.Reads file size)
    (expected : List String) : (i.refusal expected).Within file size := by
  unfold Input.refusal
  split
  all_goals
    intro l hl
    cases mem_singleton.mp hl
    exact h.here_within

namespace Parser

open DataMarks.Surface.Input

variable {α β : Type} {file size : Nat} {i m r : Input} {ns : List Node}
  {nodes : α → List Node} {p : Parser α} {f : α → Parser β} {Q : β → Input → Prop}

/-- The nodes of a result are read from where the parser starts to where it ends, and what an error
marks lies within the text. -/
def Places (file size : Nat) (nodes : α → List Node) (p : Parser α) : Prop :=
  ∀ i : Input, i.Reads file size →
    Ensures i (fun a r => i.Carries file size (nodes a) r) (ParseError.Within file size) p

namespace Places

/-- Reads on, and adds the new nodes to those that have been read since `i`. -/
theorem next (hp : Places file size nodes p) (h : i.Carries file size ns m)
    (hf : ∀ a r, i.Carries file size (ns ++ nodes a) r →
      Ensures r Q (ParseError.Within file size) (f a)) :
    Ensures m Q (ParseError.Within file size) (p >>= f) :=
  .seq (hp m h.reaches.reads) fun a r hr => hf a r (h.trans hr)

/-- Reads on past what has no nodes. -/
theorem pass (hp : Places file size (fun _ => []) p) (h : i.Carries file size ns m)
    (hf : ∀ a r, i.Carries file size ns r → Ensures r Q (ParseError.Within file size) (f a)) :
    Ensures m Q (ParseError.Within file size) (p >>= f) :=
  hp.next h fun a r hr => hf a r (hr.subset (by simp))

theorem last (hp : Places file size nodes p) (h : i.Carries file size ns m) :
    Ensures m (fun a r => i.Carries file size (ns ++ nodes a) r) (ParseError.Within file size) p :=
  (hp m h.reaches.reads).mono fun _ _ hr => h.trans hr

theorem subset {fewer : α → List Node} (hp : Places file size nodes p)
    (h : ∀ a, ∀ n ∈ fewer a, n ∈ nodes a) : Places file size fewer p :=
  fun i hi => (hp i hi).mono fun a _ hr => hr.subset (h a)

/-- As the first of several steps. -/
theorem start (hp : Places file size (fun _ => []) p)
    (hf : ∀ a m, i.Carries file size [] m → Ensures m Q (ParseError.Within file size) (f a))
    (hi : i.Reads file size) : Ensures i Q (ParseError.Within file size) (p >>= f) :=
  hp.pass (.refl hi) hf

end Places

/-! ## Single tokens and lists -/

theorem places_unexpected (expected : List String) :
    Places file size nodes (unexpected expected) :=
  fun _ hi => .unexpected (hi.refusal expected)

theorem places_advance : Places file size (fun _ => []) advance :=
  fun _ hi => .advance (.skip hi)

theorem places_rounds : Places file size (fun _ => []) rounds := fun _ hi => .rounds (.refl hi)

theorem places_eat (l : Lexeme) : Places file size (fun _ => []) (eat l) :=
  fun _ hi => .eat (fun _ => .skip hi) fun _ => .refl hi

theorem places_expect (l : Lexeme) : Places file size (fun _ => []) (expect l) :=
  fun _ hi => .expect (fun _ => .skip hi) fun _ => hi.refusal _

theorem places_name : Places file size (fun n => [.mark n.1]) name :=
  fun _ hi => .name (fun _ h => .leaf hi h trivial rfl rfl) fun _ => hi.refusal _

theorem places_plainName : Places file size (fun _ => []) name :=
  places_name.subset (by simp)

theorem places_typeName : Places file size (fun t => [.typeName t]) typeName :=
  fun _ hi => .typeName (fun _ h => .leaf hi h trivial rfl rfl) fun _ => hi.refusal _

theorem Places.list (h : Places file size nodes p) (close : Symbol) :
    Places file size (fun xs => xs.flatMap nodes) (list close p) := by
  have hrounds : ∀ n, Places file size (fun xs => xs.flatMap nodes) (listRounds close p n) := by
    intro n
    induction n with
    | zero => exact places_unexpected _
    | succ n ih =>
      refine fun i => (places_eat _).start fun closed m hm => .ite (fun _ => .pure hm) fun _ => ?_
      refine h.next hm fun x m hm => (places_eat _).pass hm fun more m hm => .ite ?_ ?_
      · exact fun _ => ih.next hm fun xs r hr => .pure (hr.subset (by simp))
      · exact fun _ => (places_expect _).pass hm fun _ r hr => .pure (hr.subset (by simp))
  exact fun i => places_rounds.start fun n m hm => (hrounds n).last hm

theorem Places.after (h : Places file size nodes p) (s : Symbol) :
    Places file size (fun a => a.toList.flatMap nodes) (after s p) := by
  refine fun i => (places_eat _).start fun found m hm => .ite (fun _ => ?_) fun _ => .pure hm
  exact h.next hm fun a r hr => .pure (hr.subset (by simp))

/-! ## Literals -/

/-- The stretch from a token to the last token read lies within the text, also where an error marks
it. -/
theorem within_spanFrom (hi : i.Reads file size) (hr : r.Reads file size) :
    Span.Within file size ⟨r.file, i.here.start, max r.last i.here.stop⟩ := by
  obtain ⟨-, hle, hstop⟩ := hi.here_within
  have hlast := hr.last_le
  refine ⟨hr.file_eq, ?_⟩
  show i.here.start ≤ max r.last i.here.stop ∧ max r.last i.here.stop ≤ size
  omega

theorem within_invalidLiteral {s : Span} (h : s.Within file size) (fault : LiteralFault) :
    (ParseError.invalidLiteral s fault).Within file size := by
  intro l hl
  cases mem_singleton.mp hl
  exact h

/-- A number takes at least the next token. -/
theorem takes_number (hi : i.Reads file size) :
    Ensures i (fun _ r => i.skip.Carries file size [] r) (ParseError.Within file size) number := by
  refine .seq (R := fun _ m => m.Reads file size ∧ i.skip.Carries file size [] m.skip)
    (.eat (fun _ => ⟨hi.skip, .skip hi.skip⟩) fun _ => ⟨hi, .refl hi.skip⟩) ?_
  rintro negative m ⟨hm, hskip⟩
  refine .bind (.peek ?_)
  split
  · refine .bind (.nextSpan (.bind (.advance (.ite (fun _ => .pure hskip) fun _ => ?_))))
    exact .throw (within_invalidLiteral hm.here_within _)
  · exact .bind (.advance (.pure hskip))
  · exact .unexpected (hm.refusal _)

theorem places_number : Places file size (fun _ => []) number :=
  fun _ hi => (takes_number hi).mono fun _ _ hr => .of_skip hi hr

theorem accepts_vector {ns : List Numeral} {t : ValueType} (h : vectorType? ns.length = some t) :
    t.accepts (Literal.vector t ns).value = true := by
  unfold vectorType? at h
  split at h
  all_goals
    cases h
    try simp [Literal.value, ValueType.accepts, ValueType.isTexture, ValueType.storage,
      ValueType.components, *]

/-- A literal has a value of its type, and takes at least the next token. -/
theorem takes_literal (hi : i.Reads file size) :
    Ensures i (fun l r => l.type.accepts l.value = true ∧ i.skip.Carries file size [] r)
      (ParseError.Within file size) literal := by
  have hskip : i.skip.Carries file size [] i.skip := .refl hi.skip
  refine .bind (.nextSpan (.bind (.peek ?_)))
  split
  · exact .bind (.advance (.pure ⟨rfl, hskip⟩))
  · exact .bind (.advance (.pure ⟨rfl, hskip⟩))
  · refine .bind (.advance ((places_number.list _).next hskip fun components m hm => ?_))
    split
    · rename_i ht
      exact .pure ⟨accepts_vector ht, hm.subset (by simp)⟩
    · exact .bind (.spanFrom (.throw
        (within_invalidLiteral (within_spanFrom hi hm.reaches.reads) _)))
  · exact .seq (takes_number hi) fun n _ hr => .pure ⟨by cases n <;> rfl, hr⟩

theorem places_literal : Places file size (fun _ => []) literal :=
  fun _ hi => (takes_literal hi).mono fun _ _ hr => .of_skip hi hr.2

theorem places_integer : Places file size (fun _ => []) integer := by
  refine fun i hi => .bind (.nextSpan (places_literal.pass (.refl hi) fun l m hm => ?_))
  split
  · exact .pure hm
  · exact .bind (.spanFrom (.throw (within_invalidLiteral (within_spanFrom hi hm.reaches.reads) _)))

/-! ## Expressions -/

section Node

variable {node : β → Node} {build : Span → β} (hi : i.Reads file size) {l : Lexeme}
  (hnext : i.lexemes.head? = some l) (h : i.skip.Carries file size ns r) (s : Symbol)
  (hnode : ∀ s, (node (build s)).Accepted ∧ (node (build s)).span = s ∧
    ∀ c ∈ (node (build s)).children, c ∈ ns)
include hi hnext h hnode

/-- What spans from the next token of `i` to the last one read has for children what was read. -/
theorem ensures_node :
    Ensures r (fun a r => i.Carries file size [node a] r) (ParseError.Within file size)
      (spanFrom i.here >>= fun s => Pure.pure (build s)) :=
  .bind (.spanFrom (.pure (.node hi hnext h (hnode _).1 (hnode _).2.1 (hnode _).2.2)))

theorem ensures_ended :
    Ensures r (fun a r => i.Carries file size [node a] r) (ParseError.Within file size)
      (expectSymbol s >>= fun _ => spanFrom i.here >>= fun s => Pure.pure (build s)) :=
  (places_expect _).pass h fun _ _ hr => ensures_node hi hnext hr hnode

end Node

section Expressions

variable {p : Parser Expr} (hp : Places file size (fun e => [.expr e]) p)
include hp

theorem places_chain (ops : List (Symbol × BinaryOp)) (n : Nat) {lhs : Expr}
    (h : i.Carries file size [.expr lhs] m) :
    Ensures m (fun e r => i.Carries file size [.expr e] r) (ParseError.Within file size)
      (chain ops p n lhs) := by
  induction n generalizing lhs m with
  | zero => exact .pure h
  | succ n ih =>
    refine .bind (.peek ?_)
    split
    · exact .pure h
    · refine places_advance.pass h fun _ m hm => hp.next hm fun rhs r hr => ih ⟨hr.reaches, ?_⟩
      -- The new node does not end at the last token read: a parenthesis may stand behind it.
      have hlhs := hr.placed (.expr lhs) (by simp)
      have hrhs := hr.placed (.expr rhs) (by simp)
      refine forall_mem_singleton.mpr (hlhs.span.placed_merge hrhs.span trivial rfl ?_)
      refine forall_mem_cons.mpr ⟨⟨hlhs, .inl rfl⟩, ?_⟩
      exact forall_mem_singleton.mpr ⟨hrhs, .inr rfl⟩

theorem places_binary (tighter : List (List (Symbol × BinaryOp))) :
    Places file size (fun e => [.expr e]) (binary p tighter) := by
  induction tighter with
  | nil => exact hp
  | cons ops tighter ih =>
    refine fun i hi => ih.next (.refl hi) fun lhs m hm => ?_
    exact places_rounds.pass hm fun n m hm => places_chain ih ops n hm

omit hp in
theorem places_signs (n : Nat) :
    Places file size (fun ops => ops.map fun op => .mark op.1) (signs n) := by
  induction n with
  | zero => exact fun _ hi => .pure (.refl hi)
  | succ n ih =>
    refine fun i hi => .bind (.peek ?_)
    split
    · exact .pure (.refl hi)
    · rename_i hop
      obtain ⟨l, hl⟩ : ∃ l, i.lexemes.head? = some l := by
        cases hnext : i.lexemes.head? with
        | none => rw [hnext] at hop; cases hop
        | some l => exact ⟨l, rfl⟩
      have hsign : i.Carries file size [.mark i.here] i.skip := .leaf hi hl trivial rfl rfl
      exact .bind (.nextSpan (.bind (.advance (ih.next hsign fun _ _ hr => .pure hr))))

omit hp in
theorem placed_signed {ops : List (Span × UnaryOp)} (hops : ∀ op ∈ ops, i.Between file r op.1)
    {e : Expr} (he : (Node.expr e).Placed (i.Between file r)) :
    (Node.expr (ops.foldr (fun op e => .unary (op.1.merge e.span) op.2 e) e)).Placed
      (i.Between file r) := by
  induction ops with
  | nil => exact he
  | cons op ops ih =>
    obtain ⟨hop, hops⟩ := forall_mem_cons.mp hops
    refine hop.placed_merge (ih hops).span trivial rfl ?_
    exact forall_mem_singleton.mpr ⟨ih hops, .inr rfl⟩

theorem places_unary : Places file size (fun e => [.expr e]) (unary p) := by
  refine fun i => places_rounds.start fun n m hm => (places_signs n).next hm fun ops m hm => ?_
  refine hp.next hm fun e r hr => .pure ⟨hr.reaches, forall_mem_singleton.mpr ?_⟩
  refine placed_signed (fun op hop => ?_) (hr.placed (.expr e) (by simp))
  exact (hr.placed (.mark op.1) (mem_append_left _ (mem_map_of_mem hop))).span

omit hp in
theorem places_fields (n : Nat) {e : Expr} (h : i.Carries file size [.expr e] m) :
    Ensures m (fun e r => i.Carries file size [.expr e] r) (ParseError.Within file size)
      (fields n e) := by
  induction n generalizing e m with
  | zero => exact .pure h
  | succ n ih =>
    refine (places_eat _).pass h fun dot m hm => .ite (fun _ => ?_) fun _ => .pure hm
    refine places_name.next hm fun f r hr => ih ⟨hr.reaches, ?_⟩
    have he := hr.placed (.expr e) (by simp)
    have hf := hr.placed (.mark f.1) (by simp)
    refine forall_mem_singleton.mpr (he.span.placed_merge hf.span trivial rfl ?_)
    exact forall_mem_singleton.mpr ⟨he, .inl rfl⟩

theorem places_arguments :
    Places file size (fun r => r.1.map .expr ++ r.2.map fun k => .expr k.2) (arguments p) := by
  have hrounds : ∀ n args keywords (i m : Input),
      i.Carries file size (args.map .expr ++ keywords.map fun k => .expr k.2) m →
      Ensures m (fun r m => i.Carries file size (r.1.map .expr ++ r.2.map fun k => .expr k.2) m)
        (ParseError.Within file size) (argumentRounds p n args keywords) := by
    intro n
    induction n with
    | zero => exact fun _ _ _ _ h => .unexpected (h.reaches.reads.refusal _)
    | succ n ih =>
      intro args keywords i m h
      have hbehind : ∀ args keywords (m : Input),
          i.Carries file size (args.map .expr ++ keywords.map fun k => .expr k.2) m →
          Ensures m
            (fun r m => i.Carries file size (r.1.map .expr ++ r.2.map fun k => .expr k.2) m)
            (ParseError.Within file size) (argumentsBehind p n args keywords) := by
        intro args keywords m hm
        refine (places_eat _).pass hm fun comma m hm => .ite (fun _ => ih _ _ _ _ hm) fun _ => ?_
        exact (places_expect _).pass hm fun _ r hr => .pure (hr.subset (by simp))
      refine (places_eat _).pass h fun closed m hm => .ite (fun _ => ?_) fun _ => ?_
      · exact .pure (hm.subset (by simp))
      refine .bind (.peek (.bind (.peekSecond ?_)))
      dsimp only
      split
      · rename_i k _ _
        refine places_advance.pass hm fun _ m hm => places_advance.pass hm fun _ m hm => ?_
        refine hp.next hm fun e m hm => .bind (.pure (hbehind args ((k, e) :: keywords) m ?_))
        exact hm.subset (by grind)
      · refine .ite (fun hempty => ?_) fun _ => .bind (.unexpected (hm.reaches.reads.refusal _))
        refine hp.next hm fun e m hm => .bind (.pure (hbehind (e :: args) keywords m ?_))
        exact hm.subset (by grind)
  exact fun i => places_rounds.start fun n m hm => hrounds n [] [] i m hm

theorem places_primary : Places file size (fun e => [.expr e]) (primary p) := by
  intro i hi
  have hskip : i.skip.Carries file size [] i.skip := .refl hi.skip
  have hliteral : ∀ l, i.lexemes.head? = some l →
      Ensures i (fun e r => i.Carries file size [.expr e] r) (ParseError.Within file size) (do
        let l ← literal
        return .literal (← spanFrom i.here) l.type l.value) := fun l hl =>
    .seq (takes_literal hi) fun l r hr =>
      ensures_node hi hl hr.2 fun _ => ⟨hr.1, rfl, by simp [Node.children]⟩
  refine .bind (.nextSpan (.bind (.peek ?_)))
  split
  · refine .bind (.advance (hp.next hskip fun e m hm => ?_))
    exact (places_expect _).pass hm fun _ r hr => .pure (.of_skip hi hr)
  · rename_i n hname
    refine .bind (.advance ((places_eat _).pass hskip fun isCall m hm => .ite (fun _ => ?_) ?_))
    · refine (places_arguments hp).next hm fun args r hr => ?_
      exact ensures_node hi hname hr fun _ => ⟨trivial, rfl, fun _ h => h⟩
    · exact fun _ => .pure ((Carries.leaf hi hname (by trivial) rfl rfl).trans hm)
  -- All forms of literals are read alike, and nothing else starts an expression.
  all_goals first | exact hliteral _ ‹_› | exact .unexpected (hi.refusal _)

theorem places_operand : Places file size (fun e => [.expr e]) (unary (do
    let e ← primary p
    fields (← rounds) e)) := by
  refine places_unary fun i hi => (places_primary hp).next (.refl hi) fun e m hm => ?_
  exact places_rounds.pass hm fun n m hm => places_fields n hm

end Expressions

theorem places_expressionWithin (depth : Nat) :
    Places file size (fun e => [.expr e]) (expressionWithin depth) := by
  induction depth with
  | zero => exact places_unexpected _
  | succ depth ih => exact places_binary (places_operand ih) levels

theorem places_expression : Places file size (fun e => [.expr e]) expression :=
  fun _ => places_rounds.start fun n _ hm => (places_expressionWithin n).last hm

/-! ## Statements -/

theorem places_vertex : Places file size (fun v => v.flatMap Attribute.nodes) vertex := by
  refine fun i => (places_expect _).start fun _ m hm => (Places.list (fun i hi => ?_) _).last hm
  refine places_name.next (.refl hi) fun n m hm => (places_expect _).pass hm fun _ m hm => ?_
  exact places_expression.next hm fun e r hr => .pure hr

section Statements

variable {p : Parser Stmt} (hp : Places file size (fun s => [.stmt s]) p)
include hp

/-- Statements between braces lie behind the opening brace. -/
theorem takes_braced (hi : i.Reads file size) :
    Ensures i (fun ss r => i.skip.Carries file size (ss.map .stmt) r)
      (ParseError.Within file size) (braced p) := by
  have hrounds : ∀ n, Places file size (fun ss => ss.map .stmt) (stmtRounds p n) := by
    intro n
    induction n with
    | zero => exact places_unexpected _
    | succ n ih =>
      refine fun i => (places_eat _).start fun closed m hm => .ite (fun _ => .pure hm) fun _ => ?_
      exact hp.next hm fun s m hm => ih.next hm fun ss r hr => .pure hr
  refine .bind (.expect (fun _ => ?_) fun _ => hi.refusal _)
  exact places_rounds.pass (.refl hi.skip) fun n m hm => (hrounds n).last hm

theorem places_alternatives (n : Nat) :
    Places file size Alternatives.nodes (alternatives p n) := by
  induction n with
  | zero => exact fun _ hi => .pure (.refl hi)
  | succ n ih =>
    refine fun i => (places_eat _).start fun hasElse m hm => .ite (fun _ => ?_) fun _ => .pure hm
    refine (places_eat _).pass hm fun hasIf m hm => .ite (fun _ => ?_) fun _ => ?_
    · refine places_expression.next hm fun test m hm => hp.next hm fun body m hm => ?_
      exact ih.next hm fun rest r hr => .pure hr
    · exact hp.next hm fun body r hr => .pure hr

end Statements

theorem places_statementWithin (depth : Nat) :
    Places file size (fun s => [.stmt s]) (statementWithin depth) := by
  induction depth with
  | zero => exact places_unexpected _
  | succ depth ih =>
    intro i hi
    -- The children of a statement are read behind the token that tells its form.
    have hskip : i.skip.Carries file size [] i.skip := .refl hi.skip
    refine .bind (.nextSpan (.bind (.peek ?_)))
    split
    · rename_i hnext
      refine .seq (takes_braced ih hi) fun body r hr => ?_
      exact ensures_node hi hnext hr fun _ => ⟨trivial, rfl, fun _ h => h⟩
    · rename_i hnext
      refine .bind (.advance (places_plainName.pass hskip fun x m hm => ?_))
      refine (places_typeName.after _).next hm fun type m hm => ?_
      refine (places_expression.after _).next hm fun init m hm => ?_
      exact ensures_ended hi hnext hm _ fun _ =>
        ⟨trivial, rfl, by simp [Node.children, map_eq_flatMap]⟩
    · rename_i hnext
      refine .bind (.advance (places_expression.next hskip fun e m hm => ?_))
      exact ensures_ended hi hnext hm _ fun _ => ⟨trivial, rfl, fun _ h => h⟩
    · rename_i hnext
      exact .bind (.advance (ensures_ended hi hnext hskip _ fun _ => ⟨trivial, rfl, fun _ h => h⟩))
    · rename_i hnext
      have hemit : ∀ vs (m : Input),
          i.skip.Carries file size (vs.flatMap fun v => v.flatMap Attribute.nodes) m →
          Ensures m (fun s r => i.Carries file size [.stmt s] r) (ParseError.Within file size) (do
            expectSymbol .semicolon
            return .emit (← spanFrom i.here) vs) := by
        intro vs m hm
        exact ensures_ended hi hnext hm _ fun _ => ⟨trivial, rfl, fun _ h => h⟩
      refine .bind (.advance ((places_eat _).pass hskip fun many m hm => .ite ?_ ?_))
      · exact fun _ => (places_vertex.list _).next hm fun vs m hm => hemit vs m hm
      · exact fun _ => places_vertex.next hm fun v m hm => hemit [v] m (hm.subset (by simp))
    · rename_i hnext
      have hloop : ∀ x first last (m : Input), i.skip.Carries file size [] m →
          Ensures m (fun s r => i.Carries file size [.stmt s] r) (ParseError.Within file size) (do
            let body ← statementWithin depth
            return .loop (← spanFrom i.here) x first last body) := by
        intro x first last m hm
        refine ih.next hm fun body r hr => ?_
        exact ensures_node hi hnext hr fun _ => ⟨trivial, rfl, fun _ h => h⟩
      refine .bind (.advance ((places_eat _).pass hskip fun parenthesized m hm => ?_))
      refine places_plainName.pass hm fun x m hm => (places_expect _).pass hm fun _ m hm => ?_
      refine places_integer.pass hm fun first m hm => (places_expect _).pass hm fun _ m hm => ?_
      refine places_integer.pass hm fun last m hm => .ite (fun _ => ?_) fun _ => hloop _ _ _ m hm
      exact (places_expect _).pass hm fun _ m hm => hloop _ _ _ m hm
    · rename_i hnext
      refine .bind (.advance (places_expression.next hskip fun test m hm => ?_))
      refine ih.next hm fun body m hm => places_rounds.pass hm fun n m hm => ?_
      refine (places_alternatives ih n).next hm fun rest r hr => ?_
      exact ensures_node hi hnext hr fun _ => ⟨trivial, rfl, fun _ h => h⟩
    · refine .bind (.peekSecond ?_)
      split
      · rename_i hnext _
        refine .bind (.advance (places_advance.pass hskip fun _ m hm => ?_))
        refine places_expression.next hm fun e m hm => ?_
        exact ensures_ended hi hnext hm _ fun _ => ⟨trivial, rfl, fun _ h => h⟩
      · refine places_expression.next (.refl hi) fun e m hm => ?_
        refine (places_expect _).pass hm fun _ r hr => .pure ⟨hr.reaches, ?_⟩
        -- Here the semicolon is no part of the node: its span is that of the expression.
        have he := hr.placed (.expr e) (mem_append_right _ mem_cons_self)
        refine forall_mem_singleton.mpr (.intro he.span trivial ?_ ?_)
        · exact forall_mem_singleton.mpr (Span.covers_refl _)
        · exact forall_mem_singleton.mpr he

theorem places_statement : Places file size (fun s => [.stmt s]) statement :=
  fun _ => places_rounds.start fun n _ hm => (places_statementWithin n).last hm

/-! ## Blocks -/

theorem places_defaultValue : Places file size (fun _ => []) defaultValue := by
  have hvalue : Places file size (fun _ => []) (do return (← literal).value) :=
    fun _ hi => places_literal.pass (.refl hi) fun _ _ hr => .pure hr
  exact (hvalue.after .eq).subset (by simp)

theorem places_param : Places file size (fun p => [.param p]) param := by
  refine fun i hi => .bind (.name (fun n hname => ?_) fun _ => hi.refusal _)
  refine (places_expect _).pass (.refl hi.skip) fun _ m hm => places_typeName.next hm ?_
  refine fun type m hm => places_defaultValue.pass hm fun default r hr => ?_
  exact ensures_node hi hname hr fun _ => ⟨trivial, rfl, fun _ h => h⟩

section Blocks

variable {l : Lexeme} (hi : i.Reads file size) (hnext : i.lexemes.head? = some l)
include hi hnext

theorem places_function (kind : FunctionKind) :
    Ensures i (fun f r => i.Carries file size [.function f] r) (ParseError.Within file size)
      (function kind) := by
  refine .bind (.nextSpan (.bind (.advance ?_)))
  refine places_plainName.pass (.refl hi.skip) fun n m hm => (places_expect _).pass hm ?_
  refine fun _ m hm => (places_param.list _).next hm fun params m hm => ?_
  refine (places_typeName.after _).next hm fun returns m hm => ?_
  refine .seq (takes_braced places_statement hm.reaches.reads) fun body r hr => ?_
  have hall := hm.trans (.of_skip hm.reaches.reads hr)
  exact ensures_node hi hnext hall fun _ =>
    ⟨trivial, rfl, by simp [Node.children, map_eq_flatMap]⟩

theorem places_global :
    Ensures i (fun g r => i.Carries file size [.global g] r) (ParseError.Within file size)
      global := by
  refine .bind (.nextSpan (.bind (.advance ?_)))
  refine places_plainName.pass (.refl hi.skip) fun n m hm => (places_expect _).pass hm ?_
  refine fun _ m hm => places_typeName.next hm fun type m hm => ?_
  refine places_defaultValue.pass hm fun default m hm => ?_
  exact ensures_ended hi hnext hm _ fun _ => ⟨trivial, rfl, fun _ h => h⟩

omit hi hnext in
theorem places_importedNames :
    Places file size (fun names => (names.getD []).map fun n => .mark n.1) importedNames := by
  refine fun i hi => .bind (.peek (.bind (.peekSecond ?_)))
  split
  · refine places_advance.pass (.refl hi) fun _ m hm => (places_name.list _).next hm ?_
    refine fun names m hm => (places_expect _).pass hm fun _ r hr => .pure (hr.subset ?_)
    simp [map_eq_flatMap]
  · refine places_name.next (.refl hi) fun n m hm => ?_
    exact places_advance.pass hm fun _ r hr => .pure hr
  · exact .pure (.refl hi)

theorem places_import :
    Ensures i (fun d r => i.Carries file size [.import_ d] r) (ParseError.Within file size)
      import_ := by
  refine .bind (.nextSpan (.bind (.advance ?_)))
  refine places_importedNames.next (.refl hi.skip) fun names m hm => ?_
  refine places_plainName.pass hm fun module m hm => ?_
  exact ensures_ended hi hnext hm _ fun _ => ⟨trivial, rfl, fun _ h => h⟩

end Blocks

theorem places_block : Places file size (fun b => [b.node]) block := by
  refine fun i hi => .bind (.peek ?_)
  split
  · rename_i hnext
    exact .seq (places_function hi hnext _) fun _ _ hr => .pure hr
  · rename_i hnext
    exact .seq (places_function hi hnext _) fun _ _ hr => .pure hr
  · rename_i hnext
    exact .seq (places_function hi hnext _) fun _ _ hr => .pure hr
  · rename_i hnext
    exact .seq (places_global hi hnext) fun _ _ hr => .pure hr
  · rename_i hnext
    exact .seq (places_import hi hnext) fun _ _ hr => .pure hr
  · exact .unexpected (hi.refusal _)

theorem places_blocks : Places file size (fun bs => bs.map Block.node) blocks := by
  have hrounds : ∀ n, Places file size (fun bs => bs.map Block.node) (blockRounds n) := by
    intro n
    induction n with
    | zero => exact fun _ hi => .pure (.refl hi)
    | succ n ih =>
      refine fun i hi => .bind (.peek ?_)
      split
      · exact .pure (.refl hi)
      · exact places_block.next (.refl hi) fun b m hm => ih.next hm fun bs r hr => .pure hr
  exact fun i => places_rounds.start fun n m hm => (hrounds n).last hm

/-! ## Texts -/

theorem Places.run_cases {source : String} (hp : Places file source.utf8ByteSize nodes p) :
    (∃ a, run p file source = .ok a ∧
      ∀ n ∈ nodes a, n.Placed (Span.Within file source.utf8ByteSize)) ∨
    ∃ e, run p file source = .error e ∧ e.Within file source.utf8ByteSize := by
  have htokens := placed_tokens file source
  cases hts : tokens file source with
  | error e =>
    rw [hts] at htokens
    exact .inr ⟨.lexical e, by rw [run, hts], htokens⟩
  | ok ts =>
    rw [hts] at htokens
    have hplaces := hp ⟨file, ts, 0, source.utf8ByteSize⟩ ⟨rfl, rfl, htokens⟩
    refine Parser.run_cases hts (hplaces.mono fun a r hr n hn => ?_)
    exact (hr.placed n hn).mono fun s hs => hs.within hr.reaches.reads

theorem Places.error_run {source : String} (hp : Places file source.utf8ByteSize nodes p)
    {e : ParseError} (h : run p file source = .error e) : e.Within file source.utf8ByteSize := by
  obtain ⟨a, ha, -⟩ | ⟨e', he', hwithin⟩ := hp.run_cases
  · cases h.symm.trans ha
  · cases h.symm.trans he'
    exact hwithin

end Parser

namespace File

theorem places_parse {file size : Nat} :
    Parser.Places file size File.nodes (do return ⟨← Parser.blocks⟩) :=
  fun _ hi => Parser.places_blocks.next (.refl hi) fun _ _ hr => .pure hr

variable {file : File} {n : Nat} {source : String}

/-- Every node of a file lies within its text and covers its children. -/
theorem placed_of_parse (h : File.parse n source = .ok file) :
    ∀ m ∈ file.nodes, m.Placed (Span.Within n source.utf8ByteSize) := by
  obtain ⟨f, hf, hplaced⟩ | ⟨e, he, -⟩ := (@places_parse n source.utf8ByteSize).run_cases
  · cases h.symm.trans hf
    exact hplaced
  · cases h.symm.trans he

/-- Every literal in a function that is read from a source text has a value of its type. -/
theorem wellFormed_of_parse (h : File.parse n source = .ok file) :
    ∀ f ∈ file.functions, f.WellFormed := fun f hf =>
  (placed_of_parse h (.function f) (mem_map.mpr ⟨_, mem_functions_iff.mp hf, rfl⟩)).wellFormed

theorem within_of_parse {e : ParseError} (h : File.parse n source = .error e) :
    e.Within n source.utf8ByteSize :=
  places_parse.error_run h

end File

theorem Expr.within_of_parse {n : Nat} {source : String} {e : ParseError}
    (h : Expr.parse n source = .error e) : e.Within n source.utf8ByteSize := by
  refine @Parser.Places.error_run Expr n (fun e => [.expr e]) _ source (fun i hi => ?_) e h
  refine Parser.places_expression.next (.refl hi) fun e m hm => .bind (.peek ?_)
  split
  · exact .pure hm
  · exact .unexpected (hm.reaches.reads.refusal _)

end Surface

end DataMarks
