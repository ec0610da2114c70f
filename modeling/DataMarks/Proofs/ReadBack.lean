/-
  A file that has been written is read back.

  The text of a file is cut into its lexemes again, and these are read construct by construct.
  For statements and blocks there is one lemma each, about any lexemes behind them. Only the end
  of a condition depends on these: an `else` would be taken for a part of it.
-/
import DataMarks.Proofs.WrittenExpressions

namespace DataMarks.Surface

open DataMarks.Surface.Parser Grammar List DataMarks.Surface.Stmt

/-! ## Statements -/

/-- How a statement is read that has `rest` behind it. -/
def Stmt.Readable (s : Stmt) : Prop :=
  ∀ depth i rest, i.lexemes = s.lexemes ++ rest → i.lexemes.length < depth →
    (s.IsBlock ∨ rest.head? ≠ some (.keyword .else_)) →
    Succeeds i (fun s' r => r.lexemes = rest ∧ s'.bare = s.bare) (statementWithin depth)

def Alternatives.Readable (a : Alternatives) : Prop :=
  ∀ depth i rest n, i.lexemes = a.lexemes ++ rest → i.lexemes.length < depth →
    i.lexemes.length < n → rest.head? ≠ some (.keyword .else_) →
    Succeeds i (fun a' r => r.lexemes = rest ∧ a'.bare = a.bare)
      (alternatives (statementWithin depth) n)

section Statements

variable {span : Span} {x : String} {e : Expr}
variable {i : Input} {rest : List Lexeme} {body : Stmt} {test : Expr}

theorem stops_semicolon (rest : List Lexeme) : Stops 0 (.symbol .semicolon :: rest) :=
  stops_punctuation (by decide) (by decide) (by decide) 0 rest

theorem readable_expr (h : e.Writable) : (expr e).Readable := by
  intro depth i rest hi hdepth _
  obtain ⟨depth, rfl⟩ : ∃ d, depth = d + 1 := ⟨depth - 1, by omega⟩
  rw [lexemes, append_assoc, singleton_append] at hi
  have hstmt : Succeeds i (fun s' r => r.lexemes = rest ∧ s'.bare = (expr e).bare) (do
      let e ← expression
      expectSymbol .semicolon
      return expr e) := by
    refine .seq (Expr.succeeds h hi (stops_semicolon rest)) fun e' m hm => ?_
    refine .bind (.expectNext hm.1 fun hend => .pure ⟨hend, ?_⟩)
    rw [bare, bare, hm.2]
  have hstarts : StartsArgument i.lexemes := by
    rw [hi]
    exact (e.derives h).starts.1.append (by simp)
  obtain ⟨first, more, hlexemes, hfirst⟩ := (e.derives h).atomStart
  refine .bind (.nextSpan (.bind (.peek ?_)))
  rw [hlexemes] at hi
  rw [hi]
  cases hfirst with
  | name x =>
    refine .bind (.peekSecond ?_)
    split
    · rename_i heq
      exact (hstarts.not_keyword (by rw [hi]; rfl) heq).elim
    · exact hstmt
  | int digits => exact .bind (.peekSecond hstmt)
  | float digits => exact .bind (.peekSecond hstmt)
  | true_ => exact .bind (.peekSecond hstmt)
  | false_ => exact .bind (.peekSecond hstmt)
  | openBracket => exact .bind (.peekSecond hstmt)
  | openParen => exact .bind (.peekSecond hstmt)

theorem readable_assign (h : e.Writable) : (assign span x e).Readable := by
  intro depth i rest hi hdepth _
  obtain ⟨depth, rfl⟩ : ∃ d, depth = d + 1 := ⟨depth - 1, by omega⟩
  have hi' : i.lexemes = .name x :: .symbol .eq :: (e.lexemes ++ .symbol .semicolon :: rest) := by
    rw [hi, lexemes]
    simp
  refine .bind (.nextSpan (.bind (.peekNext hi' (.bind (.peekSecond ?_)))))
  rw [hi']
  refine .bind (.advanceNext hi' fun heq => .bind (.advanceNext heq fun hskip =>
    .seq (Expr.succeeds h hskip (stops_semicolon rest)) fun e' m hm => ?_))
  refine .bind (.expectNext hm.1 fun hend => .bind (.spanFrom (.pure ⟨hend, ?_⟩)))
  rw [bare, bare, hm.2]

theorem readable_return (h : e.Writable) : (return_ span e).Readable := by
  intro depth i rest hi hdepth _
  obtain ⟨depth, rfl⟩ : ∃ d, depth = d + 1 := ⟨depth - 1, by omega⟩
  have hi' : i.lexemes = .keyword .return_ :: (e.lexemes ++ .symbol .semicolon :: rest) := by
    rw [hi, lexemes]
    simp
  refine .bind (.nextSpan (.bind (.peekNext hi' (.bind (.advanceNext hi' fun hskip =>
    .seq (Expr.succeeds h hskip (stops_semicolon rest)) fun e' m hm => ?_)))))
  refine .bind (.expectNext hm.1 fun hend => .bind (.spanFrom (.pure ⟨hend, ?_⟩)))
  rw [bare, bare, hm.2]

theorem readable_discard : (discard span).Readable := by
  intro depth i rest hi hdepth _
  obtain ⟨depth, rfl⟩ : ∃ d, depth = d + 1 := ⟨depth - 1, by omega⟩
  have hi' : i.lexemes = .keyword .discard :: .symbol .semicolon :: rest := by
    rw [hi, lexemes]
    simp
  refine .bind (.nextSpan (.bind (.peekNext hi' (.bind (.advanceNext hi' fun hskip =>
    .bind (.expectNext hskip fun hend => .bind (.spanFrom (.pure ⟨hend, ?_⟩))))))))
  rw [bare, bare]

theorem succeeds_type {t : Option TypeName} (hi : i.lexemes = typeLexemes t ++ rest)
    (hrest : rest.head? ≠ some (.symbol .colon)) :
    Succeeds i (fun t' r => r.lexemes = rest ∧ t'.map TypeName.bare = t.map TypeName.bare)
      (after .colon typeName) := by
  cases t with
  | none => exact .after (fun h => absurd (by rw [hi] at h; exact h) hrest) fun _ => ⟨hi, rfl⟩
  | some t =>
    exact .afterNext hi fun htype => .typeNameNext htype fun hskip => ⟨hskip, rfl⟩

theorem readable_declare {t : Option TypeName} {init : Option Expr}
    (h : ∀ e ∈ init, e.Writable) : (declare span x t init).Readable := by
  intro depth i rest hi hdepth _
  obtain ⟨depth, rfl⟩ : ∃ d, depth = d + 1 := ⟨depth - 1, by omega⟩
  have hi' : i.lexemes = .keyword .let_ :: .name x ::
      (typeLexemes t ++ (initLexemes init ++ .symbol .semicolon :: rest)) := by
    rw [hi, lexemes]
    simp
  have hinit : ∀ m : Input, m.lexemes = initLexemes init ++ .symbol .semicolon :: rest →
      Succeeds m (fun init' r => r.lexemes = .symbol .semicolon :: rest ∧
        init'.map Expr.bare = init.map Expr.bare) (after .eq expression) := by
    intro m hm
    cases init with
    | none => exact .after (fun h => absurd (hm ▸ h) (by simp [initLexemes])) fun _ => ⟨hm, rfl⟩
    | some e =>
      exact .afterNext hm fun hskip => (Expr.succeeds (h e rfl) hskip (stops_semicolon rest)).mono
        fun e' r hr => ⟨hr.1, congrArg some hr.2⟩
  refine .bind (.nextSpan (.bind (.peekNext hi' (.bind (.advanceNext hi' fun hname =>
    .bind (.nameNext hname fun hskip => .seq (succeeds_type hskip ?_) fun t' m hm => ?_))))))
  · cases init <;> simp [initLexemes]
  · refine .seq (hinit m hm.1) fun init' q hq => ?_
    refine .bind (.expectNext hq.1 fun hend => .bind (.spanFrom (.pure ⟨hend, ?_⟩)))
    rw [bare, bare, hm.2, hq.2]

theorem startsOtherThan_cons {l first : Lexeme} {more : List Lexeme} (h : first ≠ l) :
    StartsOtherThan l (first :: more) :=
  ⟨first, more, rfl, h⟩

theorem succeeds_vertex {as : List Attribute} (h : ∀ a ∈ as, a.Writable)
    (hi : i.lexemes = vertexLexemes as ++ rest) :
    Succeeds i (fun as' r => r.lexemes = rest ∧ as'.map Attribute.bare = as.map Attribute.bare)
      vertex := by
  have hi' : i.lexemes = .symbol .openBrace ::
      (commas (as.map Attribute.lexemes) ++ .symbol .closeBrace :: rest) := by
    rw [hi, vertexLexemes, enclosed]
    simp
  refine .bind (.expectNext hi' (succeeds_commas (W := Attribute.Writable) (by decide)
    (fun a => startsOtherThan_cons (by simp)) ?_ h))
  intro a m rest ha hm hrest
  refine .bind (.nameNext hm fun hcolon => .bind (.expectNext hcolon fun hskip => ?_))
  refine .seq (Expr.succeeds ha.2 hskip (hrest.stops (by decide) (by decide) (by decide)))
    fun e q hq => .pure ⟨hq.1, ?_⟩
  rw [Attribute.bare, Attribute.bare, hq.2]

theorem readable_emit {vertices : List (List Attribute)}
    (h : ∀ v ∈ vertices, ∀ a ∈ v, a.Writable) : (emit span vertices).Readable := by
  intro depth i rest hi hdepth _
  obtain ⟨depth, rfl⟩ : ∃ d, depth = d + 1 := ⟨depth - 1, by omega⟩
  have hi' : i.lexemes = .keyword .emit :: .symbol .openBracket ::
      (commas (vertices.map vertexLexemes) ++
        .symbol .closeBracket :: .symbol .semicolon :: rest) := by
    rw [hi, lexemes, enclosed]
    simp
  refine .bind (.nextSpan (.bind (.peekNext hi' (.bind (.advanceNext hi' fun hopen =>
    .bind (.eatNext hopen fun hskip => .seq (succeeds_commas (by decide)
      (fun v => startsOtherThan_cons (by simp)) (fun v m rest hv hm _ => succeeds_vertex hv hm) h
      hskip) fun vs m hm => ?_))))))
  refine .bind (.expectNext hm.1 fun hend => .bind (.spanFrom (.pure ⟨hend, ?_⟩)))
  rw [bare, bare, hm.2]

/-! ## Statements that contain statements -/

theorem Stmt.IsBlock.lexemes_eq {s : Stmt} (h : s.IsBlock) :
    ∃ more, s.lexemes = .symbol .openBrace :: more := by
  obtain ⟨span, body, rfl⟩ := h
  rw [lexemes]
  exact ⟨_, rfl⟩

theorem readable_loop {first last : Int} (hfirst : first.natAbs ≤ maxInt)
    (hlast : last.natAbs ≤ maxInt) (hblock : body.IsBlock) (hbody : body.Readable) :
    (loop span x first last body).Readable := by
  intro depth i rest hi hdepth _
  obtain ⟨depth, rfl⟩ : ∃ d, depth = d + 1 := ⟨depth - 1, by omega⟩
  have hi' : i.lexemes = .keyword .for_ :: .symbol .openParen :: .name x :: .keyword .in_ ::
      (integerLexemes first ++ .symbol .dotDot ::
        (integerLexemes last ++ .symbol .closeParen :: (body.lexemes ++ rest))) := by
    rw [hi, lexemes, enclosed]
    simp
  refine .bind (.nextSpan (.bind (.peekNext hi' (.bind (.advanceNext hi' fun hparen =>
    .bind (.eatNext hparen fun hname => .bind (.nameNext hname fun hin =>
      .bind (.expectNext hin fun hskip => .seq (succeeds_integer hfirst hskip)
        fun a m hm => ?_))))))))
  obtain ⟨hm, rfl⟩ := hm
  refine .bind (.expectNext hm fun hskip => .seq (succeeds_integer hlast hskip) fun b q hq => ?_)
  obtain ⟨hq, rfl⟩ := hq
  refine .bind (.expectNext hq fun hskip => ?_)
  have hlength : q.skip.lexemes.length < depth := by
    rw [hskip]
    rw [hi'] at hdepth
    simp only [length_cons, length_append] at hdepth ⊢
    omega
  refine .seq (hbody depth q.skip rest hskip hlength (.inl hblock)) fun body' r hr =>
    .bind (.spanFrom (.pure ⟨hr.1, ?_⟩))
  rw [bare, bare, hr.2]

/-- The test of a branch, in parentheses in front of a block. -/
theorem succeeds_test (h : test.Writable) (hblock : body.IsBlock)
    (hi : i.lexemes = enclosed .openParen test.lexemes .closeParen ++ (body.lexemes ++ rest)) :
    Succeeds i (fun e r => r.lexemes = body.lexemes ++ rest ∧ e.bare = test.bare) expression := by
  obtain ⟨more, hmore⟩ := hblock.lexemes_eq
  have hparens : Derives .atom (enclosed .openParen test.lexemes .closeParen) test.bare :=
    .parens ((test.derives h).ofAtom (Nat.zero_le 6))
  refine (hparens.ofAtom (Nat.zero_le 6)).succeeds hi ?_
  rw [hmore]
  exact stops_punctuation (by decide) (by decide) (by decide) 0 _

/-- A test and the block behind it, with what is read of the rest. -/
theorem succeeds_guarded {α : Type} {Q : α → Input → Prop} {f : Expr → Stmt → Parser α}
    {depth : Nat} (htest : test.Writable) (hblock : body.IsBlock) (hbody : body.Readable)
    (hi : i.lexemes = enclosed .openParen test.lexemes .closeParen ++ (body.lexemes ++ rest))
    (hdepth : i.lexemes.length < depth)
    (hf : ∀ e body' r, e.bare = test.bare → body'.bare = body.bare → r.lexemes = rest →
      r.lexemes.length ≤ i.lexemes.length → Succeeds r Q (f e body')) :
    Succeeds i Q (expression >>= fun e => statementWithin depth >>= fun body' => f e body') := by
  refine .seq (succeeds_test htest hblock hi) fun e m hm => ?_
  have hless : m.lexemes.length ≤ i.lexemes.length := by
    rw [hm.1, hi]
    simp only [length_append]
    omega
  refine .seq (hbody depth m rest hm.1 (by omega) (.inl hblock)) fun body' r hr => ?_
  refine hf e body' r hm.2 hr.2 hr.1 (Nat.le_trans ?_ hless)
  rw [hr.1, hm.1, length_append]
  omega

theorem readable_none : Alternatives.none.Readable := by
  intro depth i rest n hi _ hn hrest
  obtain ⟨n, rfl⟩ : ∃ n', n = n' + 1 := ⟨n - 1, by omega⟩
  rw [Alternatives.lexemes, nil_append] at hi
  exact .bind (.eatOther (hi ▸ hrest) (.pure ⟨hi, rfl⟩))

theorem readable_otherwise (hblock : body.IsBlock) (hbody : body.Readable) :
    (Alternatives.otherwise body).Readable := by
  intro depth i rest n hi hdepth hn hrest
  obtain ⟨n, rfl⟩ : ∃ n', n = n' + 1 := ⟨n - 1, by omega⟩
  obtain ⟨more, hmore⟩ := hblock.lexemes_eq
  have hi' : i.lexemes = .keyword .else_ :: (body.lexemes ++ rest) := by
    rw [hi, Alternatives.lexemes]
    rfl
  refine .bind (.eatNext hi' fun hskip => .bind (.eatOther (by rw [hskip, hmore]; simp) ?_))
  have hlength : i.skip.lexemes.length < depth := by
    rw [hskip]
    rw [hi', length_cons] at hdepth
    omega
  refine .seq (hbody depth i.skip rest hskip hlength (.inl hblock)) fun body' m hm => ?_
  refine .pure ⟨hm.1, ?_⟩
  rw [Alternatives.bare, Alternatives.bare, hm.2]

theorem readable_elseIf {others : Alternatives} (htest : test.Writable) (hblock : body.IsBlock)
    (hbody : body.Readable) (hothers : others.Readable) :
    (Alternatives.elseIf test body others).Readable := by
  intro depth i rest n hi hdepth hn hrest
  obtain ⟨n, rfl⟩ : ∃ n', n = n' + 1 := ⟨n - 1, by omega⟩
  have hi' : i.lexemes = .keyword .else_ :: .keyword .if_ ::
      (enclosed .openParen test.lexemes .closeParen ++
        (body.lexemes ++ (others.lexemes ++ rest))) := by
    rw [hi, Alternatives.lexemes]
    simp
  refine .bind (.eatNext hi' fun hif => .bind (.eatNext hif fun htail => ?_))
  have hlength : i.lexemes.length = i.skip.skip.lexemes.length + 2 := by
    rw [hi', htail, length_cons, length_cons]
  refine succeeds_guarded htest hblock hbody htail (by omega) fun e body' q he hb hq hless => ?_
  refine .seq (hothers depth q rest n hq (by omega) (by omega) hrest) fun others' r hr =>
    .pure ⟨hr.1, ?_⟩
  rw [Alternatives.bare, Alternatives.bare, he, hb, hr.2]

theorem readable_branch {others : Alternatives} (htest : test.Writable) (hblock : body.IsBlock)
    (hbody : body.Readable) (hothers : others.Readable) :
    (branch span test body others).Readable := by
  intro depth i rest hi hdepth hrest
  obtain ⟨depth, rfl⟩ : ∃ d, depth = d + 1 := ⟨depth - 1, by omega⟩
  have hrest : rest.head? ≠ some (.keyword .else_) := by
    refine hrest.resolve_left fun h => ?_
    obtain ⟨span, body, h⟩ := h
    cases h
  have hi' : i.lexemes = .keyword .if_ :: (enclosed .openParen test.lexemes .closeParen ++
      (body.lexemes ++ (others.lexemes ++ rest))) := by
    rw [hi, lexemes]
    simp
  refine .bind (.nextSpan (.bind (.peekNext hi' (.bind (.advanceNext hi' fun htail => ?_)))))
  have hlength : i.lexemes.length = i.skip.lexemes.length + 1 := by
    rw [hi', htail, length_cons]
  refine succeeds_guarded htest hblock hbody htail (by omega) fun e body' q he hb hq hless => ?_
  refine .bind (.rounds (.seq (hothers depth q rest _ hq (by omega) (Nat.lt_succ_self _) hrest)
    fun others' r hr => .bind (.spanFrom (.pure ⟨hr.1, ?_⟩))))
  rw [bare, bare, he, hb, hr.2]

/-- A statement starts neither the end of a block nor an alternative. -/
theorem Stmt.starts {s : Stmt} (h : s.Writable) : ∃ first more, s.lexemes = first :: more ∧
    first ≠ .symbol .closeBrace ∧ first ≠ .keyword .else_ := by
  cases s with
  | expr e =>
    rw [Stmt.Writable] at h
    obtain ⟨first, more, hlexemes, hfirst⟩ := (e.derives h).atomStart
    rw [lexemes, hlexemes]
    exact ⟨first, _, rfl, by cases hfirst <;> simp, by cases hfirst <;> simp⟩
  | _ =>
    rw [lexemes]
    exact ⟨_, _, rfl, by simp, by simp⟩

/-- Statements up to the brace that ends them, where each can be read in at most `bound` tokens. -/
theorem succeeds_stmtRounds {stmt : Parser Stmt} {bound : Nat} {ss : List Stmt}
    (hw : ∀ s ∈ ss, s.Writable)
    (h : ∀ s ∈ ss, ∀ i rest, i.lexemes = s.lexemes ++ rest → i.lexemes.length < bound →
      rest.head? ≠ some (.keyword .else_) →
      Succeeds i (fun s' r => r.lexemes = rest ∧ s'.bare = s.bare) stmt) {n : Nat}
    (hi : i.lexemes = lexemesAll ss ++ .symbol .closeBrace :: rest)
    (hbound : i.lexemes.length < bound) (hn : i.lexemes.length < n) :
    Succeeds i (fun ss' r => r.lexemes = rest ∧ ss'.map bare = ss.map bare)
      (stmtRounds stmt n) := by
  induction ss generalizing i n with
  | nil =>
    obtain ⟨n, rfl⟩ : ∃ n', n = n' + 1 := ⟨n - 1, by omega⟩
    exact .bind (.eatNext hi fun hskip => .pure ⟨hskip, rfl⟩)
  | cons s ss ih =>
    obtain ⟨n, rfl⟩ : ∃ n', n = n' + 1 := ⟨n - 1, by omega⟩
    obtain ⟨hs, hss⟩ := forall_mem_cons.mp hw
    obtain ⟨first, more, hlexemes, hbrace, -⟩ := starts hs
    have helse : (lexemesAll ss ++ .symbol .closeBrace :: rest).head? ≠
        some (.keyword .else_) := by
      cases ss with
      | nil => simp [lexemesAll]
      | cons s' ss =>
        obtain ⟨first', more', hlexemes', -, helse'⟩ := starts (hss s' mem_cons_self)
        simpa [lexemesAll, hlexemes'] using helse'
    rw [lexemesAll, append_assoc] at hi
    have hlength : i.lexemes.length = more.length + 1 +
        (lexemesAll ss ++ .symbol .closeBrace :: rest).length := by
      rw [hi, hlexemes, length_append, length_cons]
    refine .bind (.eatOther (by rw [hi, hlexemes]; simpa using hbrace) ?_)
    refine .seq (h s mem_cons_self i _ hi hbound helse) fun s' m hm => ?_
    refine .seq (ih hss (fun s hs => h s (mem_cons_of_mem _ hs)) hm.1 (by rw [hm.1]; omega)
      (by rw [hm.1]; omega)) fun ss' r hr => .pure ⟨hr.1, ?_⟩
    rw [map_cons, map_cons, hm.2, hr.2]

theorem readable_block {body : List Stmt} (hw : ∀ s ∈ body, s.Writable)
    (h : ∀ s ∈ body, s.Readable) : (block span body).Readable := by
  intro depth i rest hi hdepth _
  obtain ⟨depth, rfl⟩ : ∃ d, depth = d + 1 := ⟨depth - 1, by omega⟩
  have hi' : i.lexemes = .symbol .openBrace ::
      (lexemesAll body ++ .symbol .closeBrace :: rest) := by
    rw [hi, lexemes, enclosed]
    simp
  have hlength : i.lexemes.length = i.skip.lexemes.length + 1 := by
    rw [hi', Input.lexemes_skip_of_cons hi', length_cons]
  refine .bind (.nextSpan (.bind (.peekNext hi' (.seq (.bind (.expectNext hi' fun hskip =>
    .bind (.rounds (succeeds_stmtRounds hw (fun s hs i rest hi hlength helse =>
      h s hs depth i rest hi hlength (.inr helse)) hskip (by omega) (Nat.lt_succ_self _)))))
    fun ss m hm => .bind (.spanFrom (.pure ⟨hm.1, ?_⟩))))))
  rw [bare, bare, bareAll_eq_map, bareAll_eq_map, hm.2]

end Statements

theorem Stmt.writable_of_mem {ss : List Stmt} (h : Stmt.WritableAll ss) : ∀ s ∈ ss, s.Writable := by
  induction ss with
  | nil => simp
  | cons s ss ih =>
    rw [Stmt.WritableAll] at h
    exact forall_mem_cons.mpr ⟨h.1, ih h.2⟩

mutual

theorem Stmt.readable : ∀ s : Stmt, s.Writable → s.Readable
  | .expr e, h => by
    rw [Stmt.Writable] at h
    exact readable_expr h
  | .declare _ x t init, h => by
    rw [Stmt.Writable] at h
    exact readable_declare h.2.2
  | .assign _ x value, h => by
    rw [Stmt.Writable] at h
    exact readable_assign h.2
  | .return_ _ value, h => by
    rw [Stmt.Writable] at h
    exact readable_return h
  | .discard _, _ => readable_discard
  | .emit _ vertices, h => by
    rw [Stmt.Writable] at h
    exact readable_emit h
  | .loop _ x first last body, h => by
    rw [Stmt.Writable] at h
    exact readable_loop h.2.1 h.2.2.1 h.2.2.2.1 (Stmt.readable body h.2.2.2.2)
  | .branch _ test body rest, h => by
    rw [Stmt.Writable] at h
    exact readable_branch h.1 h.2.1 (Stmt.readable body h.2.2.1)
      (Alternatives.readable rest h.2.2.2)
  | .block _ body, h => by
    rw [Stmt.Writable] at h
    exact readable_block (Stmt.writable_of_mem h) (Stmt.readable_all body h)

theorem Alternatives.readable : ∀ rest : Alternatives, rest.Writable → rest.Readable
  | .none, _ => readable_none
  | .otherwise body, h => by
    rw [Alternatives.Writable] at h
    exact readable_otherwise h.1 (Stmt.readable body h.2)
  | .elseIf test body rest, h => by
    rw [Alternatives.Writable] at h
    exact readable_elseIf h.1 h.2.1 (Stmt.readable body h.2.2.1)
      (Alternatives.readable rest h.2.2.2)

theorem Stmt.readable_all : ∀ ss : List Stmt, Stmt.WritableAll ss → ∀ s ∈ ss, s.Readable
  | [], _ => by simp
  | s :: ss, h => by
    rw [Stmt.WritableAll] at h
    exact forall_mem_cons.mpr ⟨Stmt.readable s h.1, Stmt.readable_all ss h.2⟩

end

/-! ## Blocks -/

/-- How a block of a file is read. -/
def Block.Readable (b : Block) : Prop :=
  ∀ i rest, i.lexemes = b.lexemes ++ rest →
    Succeeds i (fun b' r => r.lexemes = rest ∧ b'.bare = b.bare) block

variable {i : Input} {rest : List Lexeme}

theorem succeeds_default {d : Option Value} (h : ∀ v ∈ d, WritableValue v)
    (hi : i.lexemes = defaultLexemes d ++ rest) (hrest : rest.head? ≠ some (.symbol .eq)) :
    Succeeds i (fun d' r => r.lexemes = rest ∧ d' = d) defaultValue := by
  cases d with
  | none => exact .after (fun h => absurd (by rw [hi] at h; exact h) hrest) fun _ => ⟨hi, rfl⟩
  | some v =>
    exact .afterNext hi fun hskip => .seq (succeeds_value (h v rfl) hskip) fun l m hm =>
      .pure ⟨hm.1, by rw [hm.2]⟩

theorem succeeds_param {p : Param} (h : p.Writable) (hi : i.lexemes = p.lexemes ++ rest)
    (hrest : rest.head? ≠ some (.symbol .eq)) :
    Succeeds i (fun p' r => r.lexemes = rest ∧ p'.bare = p.bare) param := by
  refine .bind (.nameNext hi fun hcolon => .bind (.expectNext hcolon fun htype =>
    .bind (.typeNameNext htype fun hskip => .seq (succeeds_default h.2.2 hskip hrest)
      fun d m hm => ?_)))
  exact .bind (.spanFrom (.pure ⟨hm.1, by rw [hm.2]; rfl⟩))

theorem succeeds_function {f : Function} (h : f.Writable) (hi : i.lexemes = f.lexemes ++ rest) :
    Succeeds i (fun f' r => r.lexemes = rest ∧ f'.bare = f.bare) (function f.kind) := by
  have hi' : i.lexemes = .keyword f.kind.word :: .name f.name :: .symbol .openParen ::
      (commas (f.params.map Param.lexemes) ++ .symbol .closeParen :: (typeLexemes f.returns ++
        .symbol .openBrace :: (lexemesAll f.body ++ .symbol .closeBrace :: rest))) := by
    rw [hi, Function.lexemes, enclosed, enclosed]
    simp
  have hparam : ∀ (p : Param) (m : Input) rest, p.Writable → m.lexemes = p.lexemes ++ rest →
      EndsItem .closeParen rest →
      Succeeds m (fun p' r => r.lexemes = rest ∧ p'.bare = p.bare) param := by
    intro p m rest hp hm hrest
    refine succeeds_param hp hm fun heq => ?_
    rcases hrest with hrest | hrest <;> simp [heq] at hrest
  have hstmt : ∀ s ∈ f.body, ∀ (i : Input) rest, i.lexemes = s.lexemes ++ rest →
      rest.head? ≠ some (.keyword .else_) →
      Succeeds i (fun s' r => r.lexemes = rest ∧ s'.bare = s.bare) statement :=
    fun s hs i rest hi helse => .bind (.rounds
      (readable_all f.body h.2.2.2 s hs _ i rest hi (Nat.lt_succ_self _) (.inr helse)))
  refine .bind (.nextSpan (.bind (.advanceNext hi' fun hname => .bind (.nameNext hname fun hparen =>
    .bind (.expectNext hparen fun hskip => .seq (succeeds_commas (by decide)
      (fun p => startsOtherThan_cons (by simp)) hparam h.2.1 hskip) fun ps m hm => ?_)))))
  refine .seq (succeeds_type hm.1 (by simp)) fun t q hq => ?_
  refine .seq (.bind (.expectNext hq.1 fun hskip => .bind (.rounds (succeeds_stmtRounds
    (writable_of_mem h.2.2.2) (fun s hs i rest hi _ helse => hstmt s hs i rest hi helse)
    hskip (Nat.lt_succ_self _) (Nat.lt_succ_self _)))))
    fun body r hr => .bind (.spanFrom (.pure ⟨hr.1, ?_⟩))
  simp only [Function.bare, hm.2, hq.2, hr.2]

theorem readable_function {f : Function} (h : f.Writable) : (Block.function f).Readable := by
  intro i rest hi
  have hfunction := succeeds_function h hi
  have hnext : i.lexemes.head? = some (.keyword f.kind.word) := by
    rw [hi]
    rfl
  refine .bind (.peek ?_)
  rw [hnext]
  cases hkind : f.kind <;> rw [hkind] at hfunction <;>
    exact .seq hfunction fun f' m hm => .pure ⟨hm.1, congrArg Block.function hm.2⟩

theorem readable_global {g : Global} (h : g.Writable) : (Block.global g).Readable := by
  intro i rest hi
  have hi' : i.lexemes = .keyword .global :: .name g.name :: .symbol .colon :: .name g.type.name ::
      (defaultLexemes g.default ++ .symbol .semicolon :: rest) := by
    rw [hi, Block.lexemes, Global.lexemes]
    simp
  refine .bind (.peekNext hi' (.seq (R := fun g' r => r.lexemes = rest ∧ g'.bare = g.bare) ?_
    fun g' m hm => .pure ⟨hm.1, congrArg Block.global hm.2⟩))
  refine .bind (.nextSpan (.bind (.advanceNext hi' fun hname => .bind (.nameNext hname fun hcolon =>
    .bind (.expectNext hcolon fun htype => .bind (.typeNameNext htype fun hskip =>
      .seq (succeeds_default h.2.2 hskip (by simp)) fun d m hm => ?_))))))
  exact .bind (.expectNext hm.1 fun hend => .bind (.spanFrom (.pure ⟨hend, by rw [hm.2]; rfl⟩)))

/-- The names of an import in braces. -/
theorem succeeds_importedList {names : List (Span × String)}
    (hi : i.lexemes = enclosed .openBrace (commas (names.map fun n => [.name n.2])) .closeBrace ++
      .keyword .from_ :: rest) :
    Succeeds i (fun names' r => r.lexemes = rest ∧
      (names'.map fun ns => ns.map Prod.snd) = some (names.map Prod.snd)) importedNames := by
  have hi' : i.lexemes = .symbol .openBrace :: (commas (names.map fun n => [.name n.2]) ++
      .symbol .closeBrace :: .keyword .from_ :: rest) := by
    rw [hi, enclosed]
    simp
  have hname : ∀ (n : Span × String) (m : Input) rest, True → m.lexemes = [.name n.2] ++ rest →
      EndsItem .closeBrace rest → Succeeds m (fun n' r => r.lexemes = rest ∧ n'.2 = n.2) name :=
    fun n m rest _ hm _ => .nameNext hm fun hskip => ⟨hskip, rfl⟩
  refine .bind (.peekNext hi' (.bind (.peekSecond (.bind (.advanceNext hi' fun hskip =>
    .seq (succeeds_commas (by decide) (fun n => startsOtherThan_cons (by simp)) hname
      (fun _ _ => trivial) hskip) fun ns m hm => ?_)))))
  exact .bind (.expectNext hm.1 fun hend => .pure ⟨hend, congrArg some hm.2⟩)

theorem succeeds_importedNames {names : Option (List (Span × String))} {x : String}
    (hi : i.lexemes = importLexemes names ++ .name x :: .symbol .semicolon :: rest) :
    Succeeds i (fun names' r => r.lexemes = .name x :: .symbol .semicolon :: rest ∧
      (names'.map fun ns => ns.map Prod.snd) = names.map fun ns => ns.map Prod.snd)
      importedNames := by
  unfold importLexemes at hi
  split at hi
  · refine .bind (.peek (.bind (.peekSecond ?_)))
    rw [hi]
    exact .pure ⟨hi, rfl⟩
  · refine .bind (.peek (.bind (.peekSecond ?_)))
    rw [hi]
    exact .bind (.nameNext hi fun hskip => .bind (.advanceNext hskip fun hend => .pure ⟨hend, rfl⟩))
  · rw [append_assoc] at hi
    exact succeeds_importedList hi

theorem names_bare_eq {names names' : Option (List (Span × String))}
    (h : (names'.map fun ns => ns.map Prod.snd) = names.map fun ns => ns.map Prod.snd) :
    (names'.map fun ns => ns.map fun n => (nowhere, n.2)) =
      names.map fun ns => ns.map fun n => (nowhere, n.2) := by
  have hmap := congrArg (Option.map fun xs => xs.map fun x => (nowhere, x)) h
  simpa [Function.comp_def] using hmap

theorem readable_import (d : Import) : (Block.import_ d).Readable := by
  intro i rest hi
  have hi' : i.lexemes = .keyword .import_ :: (importLexemes d.names ++ .name d.module ::
      .symbol .semicolon :: rest) := by
    rw [hi, Block.lexemes, Import.lexemes]
    simp
  refine .bind (.peekNext hi' (.seq (R := fun d' r => r.lexemes = rest ∧ d'.bare = d.bare) ?_
    fun d' m hm => .pure ⟨hm.1, congrArg Block.import_ hm.2⟩))
  refine .bind (.nextSpan (.bind (.advanceNext hi' fun hskip =>
    .seq (succeeds_importedNames hskip) fun names m hm => ?_)))
  refine .bind (.nameNext hm.1 fun hsemicolon => .bind (.expectNext hsemicolon fun hend =>
    .bind (.spanFrom (.pure ⟨hend, ?_⟩))))
  simp only [Import.bare, names_bare_eq hm.2]

theorem Block.readable {b : Block} (h : b.Writable) : b.Readable := by
  cases b with
  | function f => exact readable_function h
  | global g => exact readable_global h
  | import_ d => exact readable_import d

theorem Block.starts (b : Block) : ∃ first more, b.lexemes = first :: more := by
  cases b <;> exact ⟨_, _, rfl⟩

theorem succeeds_blockRounds {bs : List Block} (h : ∀ b ∈ bs, b.Writable) {n : Nat}
    (hi : i.lexemes = bs.flatMap Block.lexemes) (hn : i.lexemes.length < n) :
    Succeeds i (fun bs' _ => bs'.map Block.bare = bs.map Block.bare) (blockRounds n) := by
  induction bs generalizing i n with
  | nil =>
    obtain ⟨n, rfl⟩ : ∃ n', n = n' + 1 := ⟨n - 1, by omega⟩
    refine .bind (.peek ?_)
    rw [hi]
    exact .pure rfl
  | cons b bs ih =>
    obtain ⟨n, rfl⟩ : ∃ n', n = n' + 1 := ⟨n - 1, by omega⟩
    obtain ⟨hb, hbs⟩ := forall_mem_cons.mp h
    obtain ⟨first, more, hlexemes⟩ := b.starts
    rw [flatMap_cons] at hi
    have hnext : i.lexemes.head? = some first := by
      rw [hi, hlexemes]
      rfl
    have hlength : i.lexemes.length = more.length + 1 + (bs.flatMap Block.lexemes).length := by
      rw [hi, hlexemes, length_append, length_cons]
    refine .bind (.peek ?_)
    rw [hnext]
    refine .seq (Block.readable hb i _ hi) fun b' m hm => ?_
    refine .seq (ih hbs hm.1 (by rw [hm.1]; omega)) fun bs' r hr => .pure ?_
    rw [map_cons, map_cons, hm.2, hr]

/-! ## Files -/

/-- A file that can be written is read back from its text, up to the places in it. -/
theorem File.parse_text {file : File} (h : file.Writable) (id : Nat) :
    ∃ file', File.parse id file.text = .ok file' ∧ file'.bare = file.bare := by
  obtain ⟨ts, htokens, hlexemes⟩ := tokens_spaced (File.allSpelled h) id
  refine (run_cases (E := fun _ => False) htokens (.seq (.bind (.rounds (succeeds_blockRounds h
    hlexemes (Nat.lt_succ_self _)))) fun bs m hbs => .pure ?_)).resolve_right (by simp)
  exact congrArg File.mk hbs

/-- A file with every kind of block and statement. -/
def everyForm : File :=
  let x : Expr := .name nowhere "x"
  let half : Expr := .literal nowhere .float (.scalar 0.5)
  let two : Expr := .literal nowhere .int (.scalar (Float.ofNat 2))
  let block : List Stmt → Stmt := .block nowhere
  ⟨[.import_ ⟨nowhere, "P2D", none⟩,
    .import_ ⟨nowhere, "P2D", some [(nowhere, "Line")]⟩,
    .import_ ⟨nowhere, "P3D", some [(nowhere, "Cube"), (nowhere, "Line")]⟩,
    .global ⟨nowhere, "scale", ⟨nowhere, "float"⟩, some (.scalar (-2.25))⟩,
    .function
      { span := nowhere, kind := .mark, name := "Dot", returns := none
        params := [⟨nowhere, "x", ⟨nowhere, "float"⟩, none⟩,
          ⟨nowhere, "c", ⟨nowhere, "Vector2"⟩, some (.vector [1, -0.5])⟩]
        body :=
          [.declare nowhere "y" (some ⟨nowhere, "float"⟩) (some (.binary nowhere .mul x half)),
            .assign nowhere "y" (.unary nowhere .neg (.field nowhere (.name nowhere "c") "x")),
            .loop nowhere "i" (-1) 2 (block [.expr (.call nowhere "f" [x, two] [("k", half)])]),
            .branch nowhere (.literal nowhere .bool (.ofBool true)) (block [.discard nowhere])
              (.elseIf (.binary nowhere .lt x two) (block [])
                (.otherwise (block [.return_ nowhere x]))),
            .emit nowhere [[⟨nowhere, "position", x⟩, ⟨nowhere, "size", half⟩], []]] }]⟩

theorem File.parse_text_everyForm : everyForm.Writable ∧
    ∃ file, File.parse 2 everyForm.text = .ok file ∧ file.bare = everyForm.bare := by
  have hnames : ∀ s ∈ ["P2D", "P3D", "Line", "Cube", "scale", "float", "Dot", "x", "c", "Vector2",
      "y", "i", "f", "k", "position", "size"], Lexer.isName s = true := by decide
  have hhalf : (0.5 : Float) ≠ Float.nan ∧ Number.isNegative 0.5 = false := by decide +kernel
  have hscale : (-2.25 : Float) ≠ Float.nan := by decide +kernel
  have htwo : ∃ n ≤ maxInt, Float.ofNat 2 = Float.ofNat n := ⟨2, by decide, rfl⟩
  have hvector : ∃ t, IsVectorOf t [1, -0.5] := ⟨.vector2, by decide, rfl, by decide +kernel⟩
  have hbound : 2 ≤ maxInt := by decide
  have hw : everyForm.Writable := by
    simp [everyForm, File.Writable, Block.Writable, Import.Writable, Global.Writable,
      Function.Writable, Param.Writable, WritableType, WritableValue, Stmt.WritableAll,
      Stmt.Writable, Alternatives.Writable, Attribute.Writable, Expr.Writable,
      Expr.WritableArguments, Expr.WritableKeywords, WritableLiteral, Stmt.IsBlock, hnames, hhalf,
      hscale, htwo, hvector, hbound]
    refine ⟨?_, by decide⟩
    rintro _ b (⟨-, rfl⟩ | ⟨-, rfl⟩)
    · decide
    · decide
  exact ⟨hw, File.parse_text hw 2⟩

end DataMarks.Surface
