/-
  Lexemes written one after another.

  `Lexeme.Spelled` says which lexemes can be read from their own text: names that are names,
  and numbers that are spelled as numbers. With a blank behind each of them, such lexemes are
  just what the text is cut into (`tokens_spaced`): a blank ends every lexeme.
-/
import DataMarks.Proofs.LosslessTokens

namespace DataMarks

open List

/-- A letter or an underscore, then letters, digits and underscores; but no reserved word. -/
def Lexer.isName (s : String) : Bool :=
  match s.toList with
  | c :: cs => isNameStart c && cs.all isNameChar && (Keyword.ofText? s).isNone
  | [] => false

def IsDigits (cs : List Char) : Prop := cs ≠ [] ∧ ∀ c ∈ cs, c.isDigit = true

/-- Lexemes that their text is read as. Of the floats these are only those with an exponent. -/
def Lexeme.Spelled : Lexeme → Prop
  | name s => Lexer.isName s = true
  | int s => IsDigits s.toList
  | float s => ∃ whole sign exponent, s.toList = whole ++ 'e' :: (sign ++ exponent) ∧
      (sign = [] ∨ sign = ['-']) ∧ IsDigits whole ∧ IsDigits exponent
  | keyword _ | symbol _ => True

namespace Lexer

variable {c : Char} {cs rest : List Char} {l : Lexeme}

/-! ## Names and reserved words -/

theorem respelled_word (hl : l.text.toList = c :: cs) (hc : isNameStart c = true)
    (hcs : ∀ d ∈ cs, isNameChar d = true)
    (hword : (∃ k, Keyword.ofText? l.text = some k ∧ l = .keyword k) ∨
      Keyword.ofText? l.text = none ∧ l = .name l.text) : Respelled l := by
  have hall : ∀ d ∈ c :: cs, isNameChar d = true :=
    forall_mem_cons.mpr ⟨isNameChar_of_isNameStart hc, hcs⟩
  have hcut := @Cut.word 0 c hc cs
  unfold word at hcut
  rw [takeWhile_eq_self_iff.mpr hall, takeWhile_eq_self_iff.mpr hcs, ← hl,
    String.ofList_toList] at hcut
  rcases hword with ⟨k, hk, rfl⟩ | ⟨hnone, hname⟩
  · simp only [hk] at hcut
    exact hcut.respelled
  · simp only [hnone] at hcut
    rw [← hname] at hcut
    exact hcut.respelled

theorem respelled_name {s : String} (h : isName s = true) : Respelled (.name s) := by
  unfold isName at h
  split at h
  · rename_i c cs hs
    simp only [Bool.and_eq_true, all_eq_true, Option.isNone_iff_eq_none] at h
    exact respelled_word hs h.1.1 h.1.2 (.inr ⟨h.2, rfl⟩)
  · cases h

theorem Keyword.text_spelled (k : Keyword) : ∃ c cs, k.text.toList = c :: cs ∧
    isNameStart c = true ∧ ∀ d ∈ cs, isNameChar d = true := by
  cases k <;> exact ⟨_, _, rfl, rfl, all_eq_true.mp rfl⟩

theorem respelled_keyword (k : Keyword) : Respelled (.keyword k) := by
  obtain ⟨c, cs, hk, hc, hcs⟩ := Keyword.text_spelled k
  exact respelled_word hk hc hcs (.inl ⟨k, Keyword.ofText?_text k, rfl⟩)

theorem respelled_symbol (s : Symbol) : Respelled (.symbol s) := by
  have hpiece : ∀ {c cs n}, (Lexeme.symbol s).text.toList = c :: cs →
      piece 0 c cs = (.lexeme (.symbol s), n) → Respelled (.symbol s) :=
    fun _ h => (cut_iff.mpr h).respelled
  cases s <;> exact hpiece rfl rfl

/-! ## Numbers -/

theorem respelled_number (h : IsDigits cs) (hnumber : number (cs ++ rest) = l) : Respelled l := by
  obtain ⟨hne, hall⟩ := h
  obtain ⟨c, ds, rfl⟩ := exists_cons_of_ne_nil hne
  rw [← hnumber]
  exact (@Cut.number 0 c (hall c mem_cons_self) (ds ++ rest)).respelled

theorem numberLength_digits (h : IsDigits cs) : numberLength cs = (cs.length, 0) := by
  rw [numberLength_eq, digitsLength, takeWhile_eq_self_iff.mpr h.2, drop_length,
    drop_eq_nil_of_le (Nat.le_add_right _ _)]
  rfl

theorem number_digits (h : IsDigits cs) : number cs = .int (String.ofList cs) := by
  unfold number
  rw [numberLength_digits h]
  show Lexeme.int (String.ofList (cs.take cs.length)) = _
  rw [take_length]

/-- Digits and what a number has behind them. -/
theorem number_parts (h : IsDigits cs) (hc : c.isDigit = false)
    (hlength : fractionLength (c :: rest) +
      exponentLength ((c :: rest).drop (fractionLength (c :: rest))) = rest.length + 1) :
    number (cs ++ c :: rest) = .float (String.ofList (cs ++ c :: rest)) := by
  have htake : (cs ++ c :: rest).takeWhile Char.isDigit = cs := by
    rw [takeWhile_append_of_pos h.2, takeWhile_cons, hc]
    simp
  have hnumber : numberLength (cs ++ c :: rest) = (cs.length, rest.length + 1) := by
    rw [numberLength_eq, digitsLength, htake, drop_left, drop_append,
      drop_eq_nil_of_le (Nat.le_add_right _ _), Nat.add_sub_cancel_left, nil_append, hlength]
  unfold number
  rw [hnumber]
  show Lexeme.float (String.ofList ((cs ++ c :: rest).take _)) = _
  rw [take_of_length_le (by rw [length_append, length_cons])]

theorem exponentLength_spelled {sign exponent : List Char} (hsign : sign = [] ∨ sign = ['-'])
    (h : IsDigits exponent) :
    exponentLength ('e' :: (sign ++ exponent)) = (sign ++ exponent).length + 1 := by
  obtain ⟨hne, hall⟩ := h
  obtain ⟨d, ds, rfl⟩ := exists_cons_of_ne_nil hne
  obtain ⟨hd, hds⟩ := forall_mem_cons.mp hall
  have htake : ds.takeWhile Char.isDigit = ds := takeWhile_eq_self_iff.mpr hds
  have hplus : d ≠ '+' := by
    rintro rfl
    exact absurd hd (by decide)
  have hminus : d ≠ '-' := by
    rintro rfl
    exact absurd hd (by decide)
  rcases hsign with rfl | rfl
  · simp [exponentLength, hplus, hminus, hd, htake]
    omega
  · simp [exponentLength, hd, htake]
    omega

/-! ## Texts -/

theorem respelled_of_spelled (h : l.Spelled) : Respelled l := by
  cases l with
  | name s => exact respelled_name h
  | int s =>
    refine @respelled_number _ [] _ h ?_
    rw [append_nil, number_digits h, String.ofList_toList]
  | float s =>
    obtain ⟨whole, sign, exponent, hs, hsign, hwhole, hexponent⟩ := h
    have hfloat := number_parts hwhole (rfl : 'e'.isDigit = false)
      ((Nat.zero_add _).trans (exponentLength_spelled hsign hexponent))
    exact respelled_number hwhole (by rw [hfloat, ← hs, String.ofList_toList])
  | keyword k => exact respelled_keyword k
  | symbol s => exact respelled_symbol s

end Lexer

/-- The text of lexemes, with a blank behind each. -/
def Lexeme.spaced (ls : List Lexeme) : String :=
  String.ofList (ls.flatMap fun l => l.text.toList ++ [' '])

theorem reads_spaced {ls : List Lexeme} (h : ∀ l ∈ ls, l.Spelled) :
    Lexer.Reads (ls.flatMap fun l => l.text.toList ++ [' ']) ls [] := by
  induction ls with
  | nil => exact Lexer.reads_nil []
  | cons l ls ih =>
    obtain ⟨hl, hls⟩ := forall_mem_cons.mp h
    rw [flatMap_cons, append_assoc]
    exact ((Lexer.respelled_of_spelled hl).reads (by simp)).append
      ((Lexer.reads_blank _).append (ih hls))

theorem mapM_ok (ts : List Token) :
    (ts.map (Except.ok : Token → Except LexError Token)).mapM id = .ok ts := by
  induction ts with
  | nil => rfl
  | cons t ts ih =>
    rw [map_cons, mapM_cons, ih]
    rfl

theorem Lexer.Reads.tokens {source : String} {ls : List Lexeme}
    (h : Lexer.Reads source.toList ls []) (file : Nat) :
    ∃ ts, tokens file source = .ok ts ∧ ts.map Token.lexeme = ls := by
  obtain ⟨ts, hts, hscan⟩ := h.scan file 0
  exact ⟨ts, by rw [DataMarks.tokens, lex, hscan, mapM_ok], hts⟩

/-- Lexemes that are spelled as such are the tokens of their text. -/
theorem tokens_spaced {ls : List Lexeme} (h : ∀ l ∈ ls, l.Spelled) (file : Nat) :
    ∃ ts, tokens file (Lexeme.spaced ls) = .ok ts ∧ ts.map Token.lexeme = ls := by
  refine Lexer.Reads.tokens ?_ file
  rw [Lexeme.spaced, String.toList_ofList]
  exact reads_spaced h

end DataMarks
