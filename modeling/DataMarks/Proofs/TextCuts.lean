/-
  How a text is cut into pieces.

  `Cut offset c cs p n` lists what the piece at the front of `c :: cs` can be: it is `p`, and it
  takes `n` more characters. It says the same as `piece` (`cut_iff`), but shows what each kind of
  piece depends on. A piece stays the same where the text behind it is left out (`Cut.within`).
  A lexeme stays the same in front of a blank (`Cut.before_blank`), and every piece that ends
  before a slash stays the same whatever stands behind that slash (`Cut.before_slash`).
-/
import DataMarks.Proofs.NestedComments
import Mathlib.Data.List.TakeWhile

namespace DataMarks.Lexer

open List

variable {α : Type} {p : α → Bool} {xs ys : List α} {offset n : Nat} {c d : Char}
  {cs mid tail : List Char}
variable {body : List Char}

/-! ## The first character -/

theorem isBlank_eq_false (h : 33 ≤ c.toNat) (h' : c.toNat < 128) : Text.isBlank c = false := by
  simp only [Text.isBlank, Text.blankRanges, any_cons, any_nil,
    Bool.or_false, Bool.or_eq_false_iff, Bool.and_eq_false_iff, decide_eq_false_iff_not]
  omega

theorem toNat_of_isDigit (h : c.isDigit = true) : 48 ≤ c.toNat ∧ c.toNat ≤ 57 := by
  simp only [Char.isDigit, Bool.and_eq_true, decide_eq_true_eq] at h
  exact h

theorem toNat_of_isNameStart (h : isNameStart c = true) : 65 ≤ c.toNat ∧ c.toNat < 128 := by
  change (decide (c.val ≥ 'A'.val ∧ c.val ≤ 'Z'.val) ||
    (decide (c.val ≥ 'a'.val) && decide (c.val ≤ 'z'.val)) || c == '_') = true at h
  simp only [Bool.or_eq_true, Bool.and_eq_true, decide_eq_true_eq, beq_iff_eq,
    UInt32.le_iff_toNat_le, ge_iff_le] at h
  change ((65 ≤ c.toNat ∧ c.toNat ≤ 90) ∨ (97 ≤ c.toNat ∧ c.toNat ≤ 122)) ∨ c = '_' at h
  rcases h with (h | h) | rfl
  · omega
  · omega
  · decide

theorem isNameStart_eq_false (h : c.isDigit = true) : isNameStart c = false := by
  rw [Bool.eq_false_iff]
  intro hc
  have := toNat_of_isNameStart hc
  have := toNat_of_isDigit h
  omega

theorem isNameChar_of_isNameStart (h : isNameStart c = true) : isNameChar c = true := by
  simp only [isNameStart, isNameChar, Char.isAlphanum, Bool.or_eq_true] at h ⊢
  exact h.imp_left .inl

theorem piece_digit (hc : c.isDigit = true) : piece offset c cs =
    (.lexeme (number (c :: cs)), (numberLength (c :: cs)).1 + (numberLength (c :: cs)).2 - 1) := by
  have hrange := toNat_of_isDigit hc
  unfold piece
  rw [isBlank_eq_false (by omega) (by omega), if_neg (by decide), isNameStart_eq_false hc,
    if_neg (by decide), if_pos hc]

/-! ## Runs of characters -/

theorem length_takeWhile_le (p : α → Bool) (xs : List α) : (xs.takeWhile p).length ≤ xs.length :=
  (List.takeWhile_prefix p).length_le

/-- A run that fits into the front part of a list is the run of that part. -/
theorem takeWhile_fits (h : ((xs ++ ys).takeWhile p).length ≤ xs.length) :
    (xs ++ ys).takeWhile p = xs.takeWhile p := by
  rw [takeWhile_append] at h ⊢
  split
  · rename_i hall
    rw [if_pos hall, length_append] at h
    have hnil : ys.takeWhile p = [] := length_eq_zero_iff.mp (by omega)
    rw [hnil, append_nil, (List.takeWhile_prefix p).eq_of_length hall]
  · rfl

/-- A run goes no further than the front part of a list if the rest cannot go on with it. -/
theorem takeWhile_ends (h : ∀ y ∈ ys.head?, p y = false) :
    (xs ++ ys).takeWhile p = xs.takeWhile p := by
  have hnil : ys.takeWhile p = [] := by
    cases ys with
    | nil => rfl
    | cons y ys => rw [takeWhile_cons, h y rfl]; rfl
  refine takeWhile_fits ?_
  rw [takeWhile_append, hnil]
  split
  · simp
  · exact length_takeWhile_le p xs

/-! ## Numbers -/

/-- Characters that a number can go on with. -/
def isNumberPart (c : Char) : Bool :=
  c.isDigit || c == '.' || c == 'e' || c == 'E' || c == '+' || c == '-'

theorem isNumberPart_eq_false (h : isNumberPart c = false) :
    c.isDigit = false ∧ c ≠ '.' ∧ (c == 'e' || c == 'E') = false ∧ (c == '+' || c == '-') = false := by
  simp only [isNumberPart, Bool.or_eq_false_iff, beq_eq_false_iff_ne] at h ⊢
  obtain ⟨⟨⟨⟨⟨hdigit, hpoint⟩, he⟩, hE⟩, hplus⟩, hminus⟩ := h
  exact ⟨hdigit, hpoint, ⟨he, hE⟩, hplus, hminus⟩

/-- The number of digits at the front of a text. -/
def digitsLength (cs : List Char) : Nat := (cs.takeWhile Char.isDigit).length

/-- The length of a sign at the front of a text. -/
def signLength : List Char → Nat
  | s :: _ => if s == '+' || s == '-' then 1 else 0
  | [] => 0

/-- What so many digits behind a mark of length `k` come to: without digits it is no mark. -/
def behind (k digits : Nat) : Nat := if digits = 0 then 0 else k + digits

theorem behind_le {k digits m : Nat} (h : digits ≤ m) : behind k digits ≤ k + m := by
  unfold behind
  split <;> omega

theorem le_of_behind_le {k digits m : Nat} (h : behind k digits ≤ k + m) : digits ≤ m := by
  unfold behind at h
  split at h <;> omega

theorem fractionLength_point : fractionLength ('.' :: cs) = behind 1 (digitsLength cs) := by
  rw [fractionLength]
  unfold behind digitsLength
  generalize (cs.takeWhile Char.isDigit).length = digits
  cases digits <;> rfl

theorem fractionLength_other (h : c ≠ '.') : fractionLength (c :: cs) = 0 := by
  unfold fractionLength
  split
  · rename_i heq
    cases heq
    exact absurd rfl h
  · rfl

theorem exponentLength_cons : exponentLength (c :: cs) =
    if c == 'e' || c == 'E' then behind (1 + signLength cs) (digitsLength (cs.drop (signLength cs)))
    else 0 := by
  unfold exponentLength
  dsimp only
  split
  · unfold behind digitsLength signLength
    generalize (List.takeWhile Char.isDigit _).length = digits
    cases digits <;> rfl
  · rfl

theorem digitsLength_le (cs : List Char) : digitsLength cs ≤ cs.length :=
  length_takeWhile_le Char.isDigit cs

theorem signLength_le (cs : List Char) : signLength cs ≤ cs.length := by
  unfold signLength
  split
  · split <;> simp
  · rfl

theorem fractionLength_le (cs : List Char) : fractionLength cs ≤ cs.length := by
  cases cs with
  | nil => rfl
  | cons c cs =>
    by_cases hc : c = '.'
    · rw [hc, fractionLength_point, length_cons, Nat.add_comm]
      exact behind_le (digitsLength_le cs)
    · rw [fractionLength_other hc]
      exact Nat.zero_le _

theorem exponentLength_le (cs : List Char) : exponentLength cs ≤ cs.length := by
  cases cs with
  | nil => rfl
  | cons c cs =>
    rw [exponentLength_cons]
    split
    · have hdigits := digitsLength_le (cs.drop (signLength cs))
      rw [length_drop] at hdigits
      have hsign := signLength_le cs
      have := behind_le (k := 1 + signLength cs) hdigits
      rw [length_cons]
      omega
    · exact Nat.zero_le _

section Ends

variable (h : ∀ d ∈ tail.head?, isNumberPart d = false)
include h

theorem digitsLength_ends : digitsLength (cs ++ tail) = digitsLength cs := by
  unfold digitsLength
  rw [takeWhile_ends fun d hd => (isNumberPart_eq_false (h d hd)).1]

theorem signLength_ends : signLength (cs ++ tail) = signLength cs := by
  cases cs with
  | cons s cs => rfl
  | nil =>
    cases tail with
    | nil => rfl
    | cons d tail =>
      show (if d == '+' || d == '-' then 1 else 0) = 0
      rw [(isNumberPart_eq_false (h d rfl)).2.2.2]
      rfl

theorem fractionLength_ends : fractionLength (cs ++ tail) = fractionLength cs := by
  cases cs with
  | nil =>
    cases tail with
    | nil => rfl
    | cons d tail => exact fractionLength_other (isNumberPart_eq_false (h d rfl)).2.1
  | cons c cs =>
    by_cases hc : c = '.'
    · rw [hc, cons_append, fractionLength_point, fractionLength_point, digitsLength_ends h]
    · rw [cons_append, fractionLength_other hc, fractionLength_other hc]

theorem exponentLength_ends : exponentLength (cs ++ tail) = exponentLength cs := by
  cases cs with
  | nil =>
    cases tail with
    | nil => rfl
    | cons d tail =>
      rw [nil_append, exponentLength_cons, (isNumberPart_eq_false (h d rfl)).2.2.1]
      rfl
  | cons c cs =>
    rw [cons_append, exponentLength_cons, exponentLength_cons, signLength_ends h,
      drop_append_of_le_length (signLength_le cs), digitsLength_ends h]

end Ends

theorem digitsLength_fits (h : digitsLength (cs ++ tail) ≤ cs.length) :
    digitsLength (cs ++ tail) = digitsLength cs := by
  unfold digitsLength
  rw [takeWhile_fits h]

theorem fractionLength_fits (h : fractionLength (cs ++ tail) ≤ cs.length) :
    fractionLength (cs ++ tail) = fractionLength cs := by
  cases cs with
  | nil => exact Nat.le_zero.mp h
  | cons c cs =>
    by_cases hc : c = '.'
    · rw [hc, cons_append, fractionLength_point] at h
      rw [length_cons, Nat.add_comm] at h
      rw [hc, cons_append, fractionLength_point, fractionLength_point,
        digitsLength_fits (le_of_behind_le h)]
    · rw [cons_append, fractionLength_other hc, fractionLength_other hc]

theorem exponentLength_fits (h : exponentLength (cs ++ tail) ≤ cs.length) :
    exponentLength (cs ++ tail) = exponentLength cs := by
  cases cs with
  | nil => exact Nat.le_zero.mp h
  | cons c cs =>
    rw [cons_append, exponentLength_cons] at h ⊢
    rw [exponentLength_cons]
    split
    · rename_i hc
      rw [if_pos hc] at h
      cases cs with
      | cons s cs =>
        -- The sign, if there is one, is within the front part, so only the digits have to fit.
        have hsign : signLength (s :: cs ++ tail) = signLength (s :: cs) := rfl
        have hle := signLength_le (s :: cs)
        rw [hsign, drop_append_of_le_length hle] at h ⊢
        rw [digitsLength_fits]
        refine le_of_behind_le (k := 1 + signLength (s :: cs)) (Nat.le_trans h ?_)
        rw [length_drop, length_cons (a := c)]
        omega
      | nil =>
        -- An exponent of one character would have no digits.
        have hnone : digitsLength (tail.drop (signLength tail)) = 0 := by
          unfold behind at h
          split at h
          · assumption
          · simp only [length_cons, length_nil] at h
            omega
        rw [nil_append, hnone]
        rfl
    · rfl

theorem numberLength_eq (cs : List Char) : numberLength cs =
    (digitsLength cs, fractionLength (cs.drop (digitsLength cs)) +
      exponentLength (cs.drop (digitsLength cs + fractionLength (cs.drop (digitsLength cs))))) :=
  rfl

theorem numberLength_le (cs : List Char) :
    (numberLength cs).1 + (numberLength cs).2 ≤ cs.length := by
  have hwhole := digitsLength_le cs
  have hfraction := fractionLength_le (cs.drop (digitsLength cs))
  have hexponent :=
    exponentLength_le (cs.drop (digitsLength cs + fractionLength (cs.drop (digitsLength cs))))
  rw [length_drop] at hfraction hexponent
  rw [numberLength_eq]
  dsimp only
  omega

/-- A number ends where the text behind it cannot go on with it. -/
theorem numberLength_ends (h : ∀ d ∈ tail.head?, isNumberPart d = false) :
    numberLength (cs ++ tail) = numberLength cs := by
  have hwhole := digitsLength_le cs
  have hfraction := fractionLength_le (cs.drop (digitsLength cs))
  rw [length_drop] at hfraction
  rw [numberLength_eq, numberLength_eq, digitsLength_ends h, drop_append_of_le_length hwhole,
    fractionLength_ends h, drop_append_of_le_length (by omega), exponentLength_ends h]

/-- A number that fits into the front part of a text is the number of that part. -/
theorem numberLength_fits
    (h : (numberLength (cs ++ tail)).1 + (numberLength (cs ++ tail)).2 ≤ cs.length) :
    numberLength (cs ++ tail) = numberLength cs := by
  rw [numberLength_eq] at h ⊢
  dsimp only at h
  have hwhole : digitsLength (cs ++ tail) = digitsLength cs := digitsLength_fits (by omega)
  have hle := digitsLength_le cs
  rw [hwhole, drop_append_of_le_length hle] at h ⊢
  have hfraction : fractionLength (cs.drop (digitsLength cs) ++ tail) =
      fractionLength (cs.drop (digitsLength cs)) :=
    fractionLength_fits (by rw [length_drop]; omega)
  have hle' := fractionLength_le (cs.drop (digitsLength cs))
  rw [length_drop] at hle'
  rw [hfraction, drop_append_of_le_length (by omega)] at h ⊢
  rw [exponentLength_fits (by rw [length_drop]; omega), ← numberLength_eq]

/-- The number at the front of a text is cut from as many characters as its length says. -/
theorem number_append (h : numberLength (cs ++ tail) = numberLength cs) :
    number (cs ++ tail) = number cs := by
  have hle := numberLength_le cs
  unfold number
  rw [h]
  split
  · rename_i whole hlength
    rw [hlength] at hle
    rw [take_append_of_le_length (show whole ≤ cs.length from hle)]
  · rename_i whole more _ hlength
    rw [hlength] at hle
    rw [take_append_of_le_length hle]

theorem text_number (cs : List Char) : (number cs).text.toList =
    cs.take ((numberLength cs).1 + (numberLength cs).2) := by
  unfold number
  split
  · rename_i whole hlength
    rw [hlength]
    exact String.toList_ofList
  · rename_i whole more _ hlength
    rw [hlength]
    exact String.toList_ofList

/-! ## Words and symbols -/

theorem word_congr (h : cs.takeWhile isNameChar = mid.takeWhile isNameChar) :
    word (c :: cs) = word (c :: mid) := by
  unfold word
  rw [takeWhile_cons, takeWhile_cons, h]

theorem text_word (cs : List Char) : (word cs).text.toList = cs.takeWhile isNameChar := by
  unfold word
  dsimp only
  split
  · rename_i k hk
    show k.text.toList = _
    rw [Keyword.text_of_ofText? hk, String.toList_ofList]
  · exact String.toList_ofList

theorem text_ofPair? {s : Symbol} (h : Symbol.ofPair? c d = some s) : s.text.toList = [c, d] := by
  unfold Symbol.ofPair? at h
  split at h <;> cases h <;> rfl

theorem text_ofChar? {s : Symbol} (h : Symbol.ofChar? c = some s) : s.text.toList = [c] := by
  unfold Symbol.ofChar? at h
  split at h <;> cases h <;> rfl

/-- The next character makes no other piece of a symbol. -/
def Alone (c : Char) (cs : List Char) : Prop :=
  ∀ d ∈ cs.head?, Symbol.ofPair? c d = none ∧ (c = '/' → d ≠ '/' ∧ d ≠ '*')

theorem Alone.within (h : Alone c (mid ++ tail)) : Alone c mid := by
  cases mid with
  | nil => exact fun d hd => by cases hd
  | cons d mid => exact h

/-- Only the next character matters. -/
theorem Alone.of_head (h : Alone c (mid ++ d :: tail)) (tail' : List Char) :
    Alone c (mid ++ d :: tail') := by
  cases mid with
  | nil => exact h
  | cons d mid => exact h

theorem Alone.of_blank (h : Alone c (mid ++ cs)) (htail : ∀ d ∈ tail.head?, d = ' ') :
    Alone c (mid ++ tail) := by
  cases mid with
  | cons d mid => exact h
  | nil =>
    intro d hd
    rw [htail d hd]
    refine ⟨?_, fun _ => by decide⟩
    unfold Symbol.ofPair?
    split <;> simp_all

/-! ## Pieces -/

/-- The piece at the front of a text, and how many characters belong to it behind the first. -/
inductive Cut (offset : Nat) : Char → List Char → Piece → Nat → Prop
  | blank {c : Char} (h : Text.isBlank c = true) (cs : List Char) : Cut offset c cs .skipped 0
  | word {c : Char} (h : isNameStart c = true) (cs : List Char) :
      Cut offset c cs (.lexeme (word (c :: cs))) (cs.takeWhile isNameChar).length
  | number {c : Char} (h : c.isDigit = true) (cs : List Char) :
      Cut offset c cs (.lexeme (number (c :: cs)))
        ((numberLength (c :: cs)).1 + (numberLength (c :: cs)).2 - 1)
  | line (cs : List Char) :
      Cut offset '/' ('/' :: cs) .skipped (1 + (cs.takeWhile (· != '\n')).length)
  | comment {body : List Char} (h : Closes 1 body) (cs : List Char) :
      Cut offset '/' ('*' :: (body ++ cs)) .skipped (1 + body.length)
  | unclosed {body : List Char} (h : ¬ Matched body) :
      Cut offset '/' ('*' :: body) (.unclosed offset (unmatched (offset + 2) body)) (1 + body.length)
  | pair {c d : Char} {s : Symbol} (h : Symbol.ofPair? c d = some s) (cs : List Char) :
      Cut offset c (d :: cs) (.lexeme (.symbol s)) 1
  | single {c : Char} {s : Symbol} (h : Symbol.ofChar? c = some s) {cs : List Char}
      (hnext : Alone c cs) : Cut offset c cs (.lexeme (.symbol s)) 0
  | stray {c : Char} (hblank : Text.isBlank c = false) (hname : isNameStart c = false)
      (hdigit : c.isDigit = false) (h : Symbol.ofChar? c = none) {cs : List Char}
      (hnext : Alone c cs) : Cut offset c cs .stray 0

/-- The lexemes that a piece is, unless it is a fault. -/
def Piece.lexemes? : Piece → Option (List Lexeme)
  | .lexeme l => some [l]
  | .skipped => some []
  | .stray | .unclosed .. => none

/-- What the walk through a comment leaves open says what the comment is. -/
theorem piece_walk {opens : List Nat} (h : comment (offset + 2) [offset] body = (opens, n)) :
    (opens = [] → piece offset '/' ('*' :: body) = (.skipped, 1 + n)) ∧
      ∀ outermost nested, opens.reverse = outermost :: nested →
        piece offset '/' ('*' :: body) = (.unclosed outermost nested, 1 + n) := by
  unfold piece
  simp only [h, show Text.isBlank '/' = false from rfl, show isNameStart '/' = false from rfl,
    show '/'.isDigit = false from rfl, Bool.false_eq_true, if_false]
  constructor
  · rintro rfl
    rfl
  · intro outermost nested hopens
    rw [hopens]

theorem piece_comment (h : Closes 1 body) (cs : List Char) :
    piece offset '/' ('*' :: (body ++ cs)) = (.skipped, 1 + body.length) :=
  (piece_walk (comment_of_closes (show Closes [offset].length body from h) cs)).1 rfl

/-- The walk through a comment that is not closed. -/
theorem comment_open (h : ¬ Matched body) (offset : Nat) :
    surplus body < [offset].length ∧ comment (offset + 2) [offset] body =
      ((unmatched (offset + 2) body).reverse ++ [offset], body.length) := by
  have hlt : surplus body < [offset].length := by
    rw [surplus_eq_zero h]
    exact Nat.zero_lt_one
  refine ⟨hlt, ?_⟩
  rw [comment_of_surplus_lt hlt, surplus_eq_zero h]
  rfl

theorem piece_open (h : ¬ Matched body) :
    piece offset '/' ('*' :: body) =
      (.unclosed offset (unmatched (offset + 2) body), 1 + body.length) :=
  (piece_walk (comment_open h offset).2).2 _ _ (by simp)

theorem piece_alone (hblank : Text.isBlank c = false) (hname : isNameStart c = false)
    (hdigit : c.isDigit = false) (hnext : Alone c cs) :
    (∀ s, Symbol.ofChar? c = some s → piece offset c cs = (.lexeme (.symbol s), 0)) ∧
      (Symbol.ofChar? c = none → piece offset c cs = (.stray, 0)) := by
  have hpair : cs.head?.bind (Symbol.ofPair? c) = none := by
    cases cs with
    | nil => rfl
    | cons d cs => exact (hnext d rfl).1
  unfold piece
  rw [hblank, hname, hdigit, if_neg (by decide), if_neg (by decide), if_neg (by decide), hpair]
  split
  · exact absurd rfl ((hnext '/' rfl).2 rfl).1
  · exact absurd rfl ((hnext '*' rfl).2 rfl).2
  · constructor
    · intro s hs
      rw [hs]
    · intro hs
      rw [hs]

theorem Cut.piece_eq {p : Piece} (h : Cut offset c cs p n) : piece offset c cs = (p, n) := by
  cases h with
  | blank h =>
    unfold piece
    rw [if_pos h]
  | word h =>
    have := toNat_of_isNameStart h
    unfold piece
    rw [isBlank_eq_false (by omega) (by omega), if_neg (by decide), if_pos h]
  | number h => exact piece_digit h
  | line cs => rfl
  | comment h cs => exact piece_comment h cs
  | unclosed h => exact piece_open h
  | pair h =>
    unfold Symbol.ofPair? at h
    split at h <;> cases h <;> rfl
  | single h hnext =>
    have hother : Text.isBlank c = false ∧ isNameStart c = false ∧ c.isDigit = false := by
      unfold Symbol.ofChar? at h
      split at h <;> cases h <;> exact ⟨rfl, rfl, rfl⟩
    exact (piece_alone hother.1 hother.2.1 hother.2.2 hnext).1 _ h
  | stray hblank hname hdigit h hnext => exact (piece_alone hblank hname hdigit hnext).2 h

theorem exists_cut (offset : Nat) (c : Char) (cs : List Char) : ∃ p n, Cut offset c cs p n := by
  by_cases hblank : Text.isBlank c = true
  · exact ⟨_, _, .blank hblank cs⟩
  by_cases hname : isNameStart c = true
  · exact ⟨_, _, .word hname cs⟩
  by_cases hdigit : c.isDigit = true
  · exact ⟨_, _, .number hdigit cs⟩
  rw [Bool.not_eq_true] at hblank hname hdigit
  have halone : Alone c cs → ∃ p n, Cut offset c cs p n := by
    intro hnext
    cases h : Symbol.ofChar? c with
    | some s => exact ⟨_, _, .single h hnext⟩
    | none => exact ⟨_, _, .stray hblank hname hdigit h hnext⟩
  cases cs with
  | nil => exact halone fun d hd => by cases hd
  | cons d cs =>
    cases hpair : Symbol.ofPair? c d with
    | some s => exact ⟨_, _, .pair hpair cs⟩
    | none =>
      by_cases hline : c = '/' ∧ d = '/'
      · rw [hline.1, hline.2]
        exact ⟨_, _, .line cs⟩
      by_cases hopening : c = '/' ∧ d = '*'
      · rw [hopening.1, hopening.2]
        by_cases hmatched : Matched cs
        · obtain ⟨body, rest, rfl, hbody⟩ := hmatched
          exact ⟨_, _, .comment hbody rest⟩
        · exact ⟨_, _, .unclosed hmatched⟩
      refine halone fun d' hd => ?_
      cases hd
      exact ⟨hpair, fun hc => ⟨fun hd => hline ⟨hc, hd⟩, fun hd => hopening ⟨hc, hd⟩⟩⟩

theorem cut_iff {p : Piece} : Cut offset c cs p n ↔ piece offset c cs = (p, n) := by
  constructor
  · exact Cut.piece_eq
  · intro h
    obtain ⟨p', n', hcut⟩ := exists_cut offset c cs
    rw [hcut.piece_eq] at h
    cases h
    exact hcut

namespace Cut

variable {p : Piece} {l : Lexeme}

theorem le_length (h : Cut offset c cs p n) : n ≤ cs.length := by
  cases h with
  | blank | single | stray => exact Nat.zero_le _
  | word => exact length_takeWhile_le _ _
  | number =>
    have := numberLength_le (c :: cs)
    rw [length_cons] at this
    omega
  | line cs =>
    have := length_takeWhile_le (· != '\n') cs
    rw [length_cons]
    omega
  | comment =>
    rw [length_cons, length_append]
    omega
  | unclosed =>
    rw [length_cons]
    omega
  | pair =>
    rw [length_cons]
    omega

/-- A lexeme is spelled by the characters that belong to it. -/
theorem text (h : Cut offset c cs (.lexeme l) n) : l.text.toList = c :: cs.take n := by
  cases h with
  | word h =>
    rw [text_word, takeWhile_cons, if_pos (isNameChar_of_isNameStart h)]
    rw [prefix_iff_eq_take.mp (List.takeWhile_prefix (l := cs) isNameChar), length_take,
      Nat.min_eq_left (length_takeWhile_le _ _)]
  | number h =>
    have hwhole : 0 < (numberLength (c :: cs)).1 := by
      show 0 < ((c :: cs).takeWhile Char.isDigit).length
      rw [takeWhile_cons, if_pos h]
      exact Nat.succ_pos _
    obtain ⟨m, hm⟩ := Nat.exists_eq_add_of_lt
      (Nat.lt_of_lt_of_le hwhole (Nat.le_add_right _ (numberLength (c :: cs)).2))
    rw [text_number, hm]
    simp
  | pair h => exact text_ofPair? h
  | single h => exact text_ofChar? h

/-- A character in front of two lists, of which the first is not empty. -/
theorem cons_of_append_eq (h : mid ++ tail = c :: cs) (hmid : 0 < mid.length) :
    ∃ mid', mid = c :: mid' ∧ mid' ++ tail = cs := by
  cases mid with
  | nil => cases hmid
  | cons d mid =>
    cases h
    exact ⟨mid, rfl, rfl⟩

/-- A list within the first of two lists. -/
theorem append_of_append_eq {body : List Char} (h : mid ++ tail = body ++ cs)
    (hbody : body.length ≤ mid.length) : ∃ more, mid = body ++ more ∧ more ++ tail = cs := by
  obtain ⟨more, rfl⟩ := prefix_of_prefix_length_le ⟨cs, rfl⟩ ⟨tail, h⟩ hbody
  rw [append_assoc] at h
  exact ⟨more, rfl, append_cancel_left h⟩

/-- A piece that fits into the front part of a text stays the same with another text behind that
part if this one cannot go on with it. -/
theorem of_tail {tail' : List Char} (h : Cut offset c (mid ++ tail) p n) (hn : n ≤ mid.length)
    (hends : ∀ d ∈ tail'.head?, isNameChar d = false ∧ isNumberPart d = false)
    (halone : Alone c (mid ++ tail) → Alone c (mid ++ tail'))
    (hcomment : (∃ l, p = .lexeme l) ∨ tail' = [] ∨ ∃ d rest, tail = d :: rest ∧ d ≠ '\n') :
    Cut offset c (mid ++ tail') p n := by
  generalize hcs : mid ++ tail = cs at h
  cases h with
  | blank h => exact .blank h _
  | word h =>
    subst hcs
    have htake : (mid ++ tail).takeWhile isNameChar = (mid ++ tail').takeWhile isNameChar :=
      (takeWhile_fits hn).trans (takeWhile_ends fun d hd => (hends d hd).1).symm
    rw [word_congr htake, htake]
    exact .word h _
  | number h =>
    subst hcs
    have hlength : numberLength (c :: mid ++ tail) = numberLength (c :: mid) :=
      numberLength_fits (by rw [length_cons, cons_append]; omega)
    have hlength' : numberLength (c :: mid ++ tail') = numberLength (c :: mid) :=
      numberLength_ends fun d hd => (hends d hd).2
    rw [← cons_append, number_append hlength, hlength, ← number_append hlength', ← hlength']
    exact .number h _
  | line cs =>
    obtain ⟨mid, rfl, rfl⟩ := cons_of_append_eq hcs (by omega)
    rw [length_cons] at hn
    have hfits := takeWhile_fits (Nat.le_of_add_le_add_right (Nat.add_comm 1 _ ▸ hn))
    rw [hfits]
    rcases hcomment with ⟨l, hl⟩ | rfl | ⟨d, rest, rfl, hd⟩
    · cases hl
    · rw [append_nil]
      exact .line mid
    · -- The line ends before `d`, which is no line break.
      have hall : (mid.takeWhile (· != '\n')).length ≠ mid.length := by
        intro hall
        rw [takeWhile_append, if_pos hall, takeWhile_cons_of_pos (by simpa using hd)] at hn
        simp at hn
        omega
      have hends : (mid ++ tail').takeWhile (· != '\n') = mid.takeWhile (· != '\n') := by
        rw [takeWhile_append, if_neg hall]
      rw [← hends]
      exact .line _
  | comment h cs =>
    obtain ⟨mid, rfl, hmid⟩ := cons_of_append_eq hcs (by omega)
    rw [length_cons] at hn
    obtain ⟨more, rfl, -⟩ := append_of_append_eq hmid (by omega)
    rw [cons_append, append_assoc]
    exact .comment h _
  | unclosed h =>
    have hlength := congrArg List.length hcs
    rw [length_append, length_cons] at hlength
    obtain rfl : tail = [] := length_eq_zero_iff.mp (by omega)
    rcases hcomment with ⟨l, hl⟩ | rfl | ⟨d, rest, hd, -⟩
    · cases hl
    · rw [hcs]
      exact .unclosed h
    · cases hd
  | pair h cs =>
    obtain ⟨mid, rfl, -⟩ := cons_of_append_eq hcs (by omega)
    exact .pair h _
  | single h hnext => exact .single h (halone (hcs ▸ hnext))
  | stray hblank hname hdigit h hnext =>
    exact .stray hblank hname hdigit h (halone (hcs ▸ hnext))

/-- A piece that fits into the front part of a text is the piece of that part. -/
theorem within (h : Cut offset c (mid ++ tail) p n) (hn : n ≤ mid.length) : Cut offset c mid p n := by
  rw [← append_nil mid]
  exact h.of_tail hn (by simp) (fun halone => by simpa using halone.within) (.inr (.inl rfl))

/-- Only faults depend on where a piece stands. -/
theorem moved {ls : List Lexeme} (h : Cut offset c cs p n) (hp : p.lexemes? = some ls)
    (offset' : Nat) : Cut offset' c cs p n := by
  cases h with
  | blank h => exact .blank h _
  | word h => exact .word h _
  | number h => exact .number h _
  | line => exact .line _
  | comment h => exact .comment h _
  | pair h => exact .pair h _
  | single h hnext => exact .single h hnext
  | stray => cases hp
  | unclosed => cases hp

/-- A lexeme is cut from its own text with a blank behind it, wherever that stands. -/
theorem before_blank (h : Cut offset c cs (.lexeme l) n) (offset' : Nat)
    (htail : ∀ d ∈ tail.head?, d = ' ') : Cut offset' c (cs.take n ++ tail) (.lexeme l) n := by
  have hmoved : Cut offset' c (cs.take n ++ cs.drop n) (.lexeme l) n := by
    rw [take_append_drop]
    exact h.moved rfl offset'
  refine hmoved.of_tail (length_take_of_le h.le_length).ge (fun d hd => ?_) (fun halone => ?_)
    (.inl ⟨l, rfl⟩)
  · rw [htail d hd]
    exact ⟨rfl, rfl⟩
  · exact halone.of_blank htail

/-- What stands behind a slash does not matter for a piece that ends before the slash. -/
theorem before_slash (h : Cut offset c (mid ++ '/' :: tail) p n) (hn : n ≤ mid.length)
    (tail' : List Char) : Cut offset c (mid ++ '/' :: tail') p n :=
  h.of_tail hn (by simp; decide) (fun halone => halone.of_head tail')
    (.inr (.inr ⟨'/', tail, rfl, by decide⟩))

end Cut

/-! ## Texts -/

theorem scan_cut {p : Piece} (h : Cut offset c cs p n) (file : Nat) :
    scan file offset (c :: cs) =
      (p.item? file offset (offset + byteLength (c :: cs.take n))).toList ++
        scan file (offset + byteLength (c :: cs.take n)) (cs.drop n) := by
  rw [scan, h.piece_eq]

end DataMarks.Lexer
