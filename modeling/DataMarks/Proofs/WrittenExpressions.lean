/-
  An expression that has been written is read back.

  Numbers, vectors and truth values are literals as they are written, and expressions are in the
  grammar as they are written, as themselves; so the parser reads them, whatever cannot go on
  with them stands behind.
-/
import DataMarks.Proofs.PrintedFiles
import DataMarks.Proofs.ReadableExpressions

namespace DataMarks.Surface

open DataMarks.Surface.Parser Grammar List Surface.Expr Number

/-! ## Lists -/

theorem commas_cons (item : List Lexeme) {items : List (List Lexeme)} (h : items ≠ []) :
    commas (item :: items) = item ++ .symbol .comma :: commas items := by
  cases items with
  | nil => exact absurd rfl h
  | cons item' items => rfl

variable {α β : Type} {i : Input} {rest : List Lexeme}
variable {f : α → List Lexeme} {as : List α}

theorem listed_commas {P : List Lexeme → β → Prop} {g : α → β} (h : ∀ a ∈ as, P (f a) (g a)) :
    Listed P (commas (as.map f)) (as.map g) := by
  induction as with
  | nil => exact .nil
  | cons a as ih =>
    obtain ⟨ha, has⟩ := forall_mem_cons.mp h
    cases as with
    | nil => exact .last ha
    | cons a' as => exact .cons ha (ih has)

theorem map_eq_of_forall₂ {f : α → β} {as' : List α} (h : Forall₂ (fun a a' => f a' = f a) as as') :
    as'.map f = as.map f := by
  induction h with
  | nil => rfl
  | cons ha _ ih => rw [map_cons, map_cons, ha, ih]

/-- Items that are read one by one are read as a list in front of `close`. -/
theorem succeeds_commas {item : Parser α} {g : α → β} {W : α → Prop} {close : Symbol}
    (hclose : close ≠ .comma) (hstarts : ∀ a, StartsOtherThan (.symbol close) (f a))
    (hitem : ∀ a i rest, W a → i.lexemes = f a ++ rest → EndsItem close rest →
      Succeeds i (fun a' r => r.lexemes = rest ∧ g a' = g a) item)
    (h : ∀ a ∈ as, W a) (hi : i.lexemes = commas (as.map f) ++ .symbol close :: rest) :
    Succeeds i (fun as' r => r.lexemes = rest ∧ as'.map g = as.map g) (list close item) := by
  have hlisted : Listed (fun ls a => ls = f a ∧ W a) (commas (as.map f)) (as.map id) :=
    listed_commas fun a ha => ⟨rfl, h a ha⟩
  rw [map_id] at hlisted
  have haccepts := accepts_list (S := fun a a' => g a' = g a) hclose
    (fun ls a (hls : ls = f a ∧ W a) => hls.1 ▸ hstarts a)
    (fun ls a hls i rest hi hrest => hitem a i rest hls.2 (hls.1 ▸ hi) hrest)
  refine (haccepts _ as ⟨_, rfl, hlisted⟩ i rest (by rw [hi]; simp) trivial).mono fun as' r hr => ?_
  exact ⟨hr.1, map_eq_of_forall₂ hr.2⟩

/-! ## Literals -/

variable {x : Float} {n : Int} {t : ValueType} {v : Value} {ls : List Lexeme} {e : Expr}

theorem unsigned_number (h : x.isNaN = false) :
    Unsigned (isNegative x) (.float (spelling x)) (.float x) := by
  have hfloat := @Unsigned.float (isNegative x) (spelling x)
  rwa [sign_mul_spelling h] at hfloat

theorem signed_number (h : x.isNaN = false) : Signed (numberLexemes x) (.float x) := by
  have hunsigned := unsigned_number h
  unfold numberLexemes
  cases hnegative : isNegative x with
  | false => exact .plain (hnegative ▸ hunsigned)
  | true => exact .negated (hnegative ▸ hunsigned)

theorem signed_integer (h : n.natAbs ≤ maxInt) :
    Signed (integerLexemes n) (.int (n < 0) n.natAbs) := by
  have hunsigned : Unsigned (decide (n < 0)) (.int (Nat.repr n.natAbs))
      (.int (n < 0) n.natAbs) := by
    have hint := @Unsigned.int (decide (n < 0)) (Nat.repr n.natAbs)
    rw [digitsValue_repr] at hint
    exact hint h
  unfold integerLexemes
  split
  · rename_i hn
    rw [decide_eq_true hn] at hunsigned ⊢
    exact .negated hunsigned
  · rename_i hn
    rw [decide_eq_false hn] at hunsigned ⊢
    exact .plain hunsigned

theorem literally_vector {xs : List Float} (h : IsVectorOf t xs) :
    Literally (valueLexemes (.vector xs)) (.vector t (xs.map .float)) := by
  refine .vector h.1 (listed_commas fun x hx => signed_number (h.2.2 x hx)) ?_
  rw [length_map]
  exact h.2.1

theorem value_vector (t : ValueType) (xs : List Float) :
    (Literal.vector t (xs.map .float)).value = .vector xs := by
  simp [Literal.value, Function.comp_def, Numeral.toFloat]

theorem literally_int {n : Nat} (h : n ≤ maxInt) :
    Literally (literalLexemes .int (.scalar (Float.ofNat n))) (.number (.int false n)) := by
  have hdigits : (Float.ofNat n).toUInt64.toNat = n :=
    toUInt64_ofInt (Nat.lt_of_le_of_lt h (by decide))
  have hint := @Unsigned.int false (Nat.repr n)
  rw [digitsValue_repr] at hint
  rw [literalLexemes, hdigits]
  exact .number (hint h)

/-- The sign of a literal without one is a factor of one. -/
theorem toFloat_int {n : Nat} (h : n ≤ maxInt) : (Numeral.int false n).toFloat = Float.ofNat n := by
  have hn : n ≤ 2 ^ 53 := Nat.le_trans h (by decide)
  have hmul := ofInt_mul (show 1 ≤ 2 ^ 53 by decide) hn (by rwa [Nat.one_mul])
  rwa [Nat.one_mul] at hmul

theorem literally_lexemes (h : WritableLiteral t v) :
    ∃ l, Literally (literalLexemes t v) l ∧ l.type = t ∧ l.value = v := by
  have hvector : (∃ xs, v = .vector xs ∧ IsVectorOf t xs) →
      ∃ l, Literally (valueLexemes v) l ∧ l.type = t ∧ l.value = v := by
    rintro ⟨xs, rfl, hxs⟩
    exact ⟨_, literally_vector hxs, rfl, value_vector t xs⟩
  cases t with
  | bool =>
    obtain ⟨b, rfl⟩ := h
    have htruthy : (Value.ofBool b).truthy = b := by
      cases b <;> decide +kernel
    refine ⟨.bool b, ?_, rfl, rfl⟩
    rw [literalLexemes, htruthy]
    cases b
    · exact .no
    · exact .yes
  | int =>
    obtain ⟨n, hn, rfl⟩ := h
    refine ⟨_, literally_int hn, rfl, ?_⟩
    rw [Literal.value, toFloat_int hn]
  | float =>
    obtain ⟨x, rfl, hnan, hpositive⟩ := h
    have hunsigned := unsigned_number hnan
    refine ⟨.number (.float x), ?_, rfl, rfl⟩
    show Literally (numberLexemes x) _
    rw [hpositive] at hunsigned
    rw [numberLexemes, hpositive]
    exact .number hunsigned
  | vector2 => exact hvector h
  | vector3 => exact hvector h
  | vector4 => exact hvector h
  | _ =>
    obtain ⟨xs, -, ht, -⟩ := h
    simp at ht

theorem succeeds_signed {n : Numeral} (h : Signed ls n) (hi : i.lexemes = ls ++ rest) :
    Succeeds i (fun l r => r.lexemes = rest ∧ l = .number n) literal := by
  have hnumber : Succeeds i (fun l r => r.lexemes = rest ∧ l = .number n)
      (do return Literal.number (← number)) :=
    .seq (accepts_number ls n h i rest hi trivial) fun n' m hm => .pure ⟨hm.1, by rw [hm.2]⟩
  refine .bind (.nextSpan (.bind (.peek ?_)))
  rw [hi]
  cases h with
  | plain hn => cases hn <;> exact hnumber
  | negated hn => exact hnumber

theorem succeeds_value (h : WritableValue v) (hi : i.lexemes = valueLexemes v ++ rest) :
    Succeeds i (fun l r => r.lexemes = rest ∧ l.value = v) literal := by
  cases v with
  | scalar x =>
    refine (succeeds_signed (signed_number h) hi).mono fun l r hr => ⟨hr.1, ?_⟩
    rw [hr.2]
    rfl
  | vector xs =>
    obtain ⟨t, ht⟩ := h
    refine (accepts_literal _ _ (literally_vector ht) i rest hi trivial).mono fun l r hr => ?_
    exact ⟨hr.1, by rw [← hr.2, value_vector]⟩

theorem succeeds_integer (h : n.natAbs ≤ maxInt) (hi : i.lexemes = integerLexemes n ++ rest) :
    Succeeds i (fun n' r => r.lexemes = rest ∧ n' = n) integer := by
  refine .bind (.nextSpan (.seq (succeeds_signed (signed_integer h) hi) ?_))
  rintro _ m ⟨hm, rfl⟩
  refine .pure ⟨hm, ?_⟩
  split
  · rename_i hn
    rw [decide_eq_true_eq] at hn
    omega
  · rename_i hn
    rw [decide_eq_true_eq] at hn
    omega

/-! ## Expressions -/

namespace Grammar.Derives

variable {ls : List Lexeme} {e : Expr}

theorem loosen {k j : Nat} (h : Derives (.level j) ls e) (hk : k ≤ j) (hj : j ≤ 6) :
    Derives (.level k) ls e := by
  obtain ⟨d, rfl⟩ := Nat.exists_eq_add_of_le hk
  induction d with
  | zero => exact h
  | succ d ih => exact ih (.operand (by omega) h) (by omega) (by omega)

/-- An atom is an operand of every level. -/
theorem ofAtom (h : Derives .atom ls e) {k : Nat} (hk : k ≤ 6) : Derives (.level k) ls e :=
  loosen (.accessed (.atom h)) hk (le_refl 6)

end Grammar.Derives

mutual

theorem Expr.derives : ∀ e : Expr, e.Writable → Derives .atom e.lexemes e.bare
  | .literal _ t v, h => by
    rw [Expr.Writable] at h
    obtain ⟨l, hl, rfl, rfl⟩ := literally_lexemes h
    rw [Expr.lexemes, Expr.bare]
    exact .literal hl
  | .name _ x, _ => by
    rw [Expr.lexemes, Expr.bare]
    exact .name
  | .field _ base f, h => by
    rw [Expr.Writable] at h
    have hfield : Derives (.level 6) _ (.field nowhere base.bare f) :=
      .accessed (.field (.atom (Expr.derives base h.1)))
    rw [Expr.lexemes, Expr.bare]
    exact .parens (hfield.loosen (Nat.zero_le _) (le_refl 6))
  | .call _ f args keywords, h => by
    rw [Expr.Writable] at h
    rw [Expr.lexemes, Expr.bare]
    exact .call (Expr.derives_arguments args keywords h.2.1
      (Expr.derives_keywords keywords h.2.2))
  | .unary _ op arg, h => by
    rw [Expr.Writable] at h
    have hunary : Derives (.level 6) _ (.unary nowhere op arg.bare) :=
      .unary ((Expr.derives arg h).ofAtom (le_refl 6))
    rw [Expr.lexemes, Expr.bare]
    exact .parens (hunary.loosen (Nat.zero_le _) (le_refl 6))
  | .binary _ op lhs rhs, h => by
    rw [Expr.Writable] at h
    have hlevel := op.level_lt
    have hbinary : Derives (.level op.level) _ (.binary nowhere op lhs.bare rhs.bare) :=
      .binary ((Expr.derives lhs h.1).ofAtom (by omega)) ((Expr.derives rhs h.2).ofAtom hlevel)
    rw [Expr.lexemes, Expr.bare]
    exact .parens (hbinary.loosen (Nat.zero_le _) (by omega))

theorem Expr.derives_arguments : ∀ (args : List Expr) (keywords : List (String × Expr)),
    Expr.WritableArguments args →
    Derives .arguments (commas (keywordLexemes keywords)) ([], bareKeywords keywords) →
    Derives .arguments (commas (argumentLexemes args ++ keywordLexemes keywords))
      (bareAll args, bareKeywords keywords)
  | [], keywords, _, hkeywords => by
    rw [argumentLexemes, bareAll]
    exact hkeywords
  | e :: es, keywords, h, hkeywords => by
    rw [Expr.WritableArguments] at h
    have he := (derives e h.1).ofAtom (Nat.zero_le 6)
    have hes := derives_arguments es keywords h.2 hkeywords
    rw [argumentLexemes, bareAll, cons_append]
    cases es with
    | cons e' es =>
      rw [commas_cons _ (by rw [argumentLexemes]; exact cons_ne_nil _ _)]
      exact .argument he hes
    | nil =>
      cases keywords with
      | cons k keywords =>
        rw [commas_cons _ (by rw [keywordLexemes]; exact cons_ne_nil _ _)]
        exact .argument he hes
      | nil =>
        rw [argumentLexemes, keywordLexemes, bareAll, bareKeywords]
        exact .lastArgument he

theorem Expr.derives_keywords : ∀ es : List (String × Expr), Expr.WritableKeywords es →
    Derives .arguments (commas (keywordLexemes es)) ([], bareKeywords es)
  | [], _ => by
    rw [keywordLexemes, bareKeywords]
    exact .noArguments
  | (k, e) :: es, h => by
    rw [Expr.WritableKeywords] at h
    have he := (derives e h.1.2).ofAtom (Nat.zero_le 6)
    have hes := derives_keywords es h.2
    rw [keywordLexemes, bareKeywords]
    cases es with
    | nil =>
      rw [keywordLexemes, bareKeywords]
      exact .lastKeyword he
    | cons e' es =>
      rw [commas_cons _ (by rw [keywordLexemes]; exact cons_ne_nil _ _)]
      exact .keyword he hes

end

/-- In front of what ends it, a written expression is read as itself. -/
theorem Expr.succeeds (h : e.Writable) (hi : i.lexemes = e.lexemes ++ rest)
    (hstops : Stops 0 rest) :
    Succeeds i (fun e' r => r.lexemes = rest ∧ e'.bare = e.bare) expression :=
  ((e.derives h).ofAtom (Nat.zero_le 6)).succeeds hi hstops

/-- What an atom starts with. -/
inductive AtomStart : Lexeme → Prop
  | name (x : String) : AtomStart (.name x)
  | int (digits : String) : AtomStart (.int digits)
  | float (digits : String) : AtomStart (.float digits)
  | true_ : AtomStart (.keyword .true_)
  | false_ : AtomStart (.keyword .false_)
  | openBracket : AtomStart (.symbol .openBracket)
  | openParen : AtomStart (.symbol .openParen)

theorem Grammar.Derives.atomStart (h : Derives .atom ls e) :
    ∃ first more, ls = first :: more ∧ AtomStart first := by
  cases h with
  | parens _ => exact ⟨_, _, rfl, .openParen⟩
  | name => exact ⟨_, _, rfl, .name _⟩
  | call _ => exact ⟨_, _, rfl, .name _⟩
  | literal hl =>
    cases hl with
    | yes => exact ⟨_, _, rfl, .true_⟩
    | no => exact ⟨_, _, rfl, .false_⟩
    | number hn =>
      cases hn with
      | int _ => exact ⟨_, _, rfl, .int _⟩
      | float => exact ⟨_, _, rfl, .float _⟩
    | vector _ _ _ => exact ⟨_, _, rfl, .openBracket⟩

end DataMarks.Surface
