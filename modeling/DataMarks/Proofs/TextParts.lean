/-
  Texts with numbers written into them.

  A part of a text is closed if it is cut into the same lexemes whatever stands behind it, and no
  number in front of it goes on in it (`Lexer.Closed`). So a text of closed parts with numbers
  between them has the lexemes of the parts, with the numbers between them (`Lexer.reads_weave`).
-/
import DataMarks.Proofs.PrintedFiles

namespace DataMarks.Lexer

open List

variable {cs tail : List Char} {l : Lexeme} {ls : List Lexeme}

/-- The lexemes of a part of a text with `tail` behind it, after passing over so many characters;
none if the part has a fault or ends within a piece. -/
def partLexemes (tail : List Char) : Nat → List Char → Option (List Lexeme)
  | 0, [] => some []
  | _ + 1, [] => none
  | skip + 1, _ :: cs => partLexemes tail skip cs
  | 0, c :: cs =>
    match piece 0 c (cs ++ tail) with
    | (p, more) => return (← p.lexemes?) ++ (← partLexemes tail more cs)

theorem reads_part {skip : Nat} (h : partLexemes tail skip cs = some ls) :
    skip ≤ cs.length ∧ Reads (cs.drop skip) ls tail := by
  induction cs generalizing skip ls with
  | nil =>
    cases skip with
    | zero =>
      cases h
      exact ⟨Nat.le_refl 0, reads_nil tail⟩
    | succ skip => cases h
  | cons c cs ih =>
    cases skip with
    | succ skip => exact ⟨Nat.succ_le_succ (ih h).1, (ih h).2⟩
    | zero =>
      rw [partLexemes] at h
      obtain ⟨ks, hks, h⟩ := Option.bind_eq_some_iff.mp h
      obtain ⟨rest, hrest, h⟩ := Option.bind_eq_some_iff.mp h
      cases h
      obtain ⟨hle, hreads⟩ := ih hrest
      exact ⟨Nat.zero_le _, (cut_iff.mpr rfl).reads hks hle hreads⟩

/-- The lexemes of a part of a text. -/
def lexemesOf (cs : List Char) : List Lexeme := (partLexemes [] 0 cs).getD []

/-- A part of a text that is cut in one way whatever stands behind it, and that does not go on with
a number. -/
def Closed (cs : List Char) : Prop :=
  (cs.head?.any (!isNumberPart ·)) = true ∧ ∀ tail, partLexemes tail 0 cs = some (lexemesOf cs)

theorem Closed.reads (h : Closed cs) (tail : List Char) : Reads cs (lexemesOf cs) tail :=
  (reads_part (h.2 tail)).2

theorem Closed.head (h : Closed cs) (tail : List Char) :
    ∀ d ∈ (cs ++ tail).head?, isNumberPart d = false := by
  obtain ⟨hhead, -⟩ := h
  cases cs with
  | nil => cases hhead
  | cons c cs => simpa using hhead

/-! ## Numbers between the parts -/

/-- A number that is cut from its own text. -/
def IsNumeral (l : Lexeme) : Prop :=
  (∃ c ∈ l.text.toList.head?, c.isDigit = true) ∧ number l.text.toList = l

theorem IsNumeral.reads (h : IsNumeral l) (htail : ∀ d ∈ tail.head?, isNumberPart d = false) :
    Reads l.text.toList [l] tail := by
  obtain ⟨⟨c, hc, hdigit⟩, hl⟩ := h
  obtain ⟨cs, hcs⟩ := head?_eq_some_iff.mp hc
  have htext := text_number l.text.toList
  rw [hl, hcs] at htext
  rw [hcs] at hl ⊢
  have hends := @numberLength_ends (c :: cs) _ htail
  have hlength : (numberLength (c :: cs)).1 + (numberLength (c :: cs)).2 = cs.length + 1 := by
    have hle := numberLength_le (c :: cs)
    have := congrArg length htext
    simp at this hle
    omega
  have hcut := @Cut.number 0 c hdigit (cs ++ tail)
  rw [← cons_append, hends, number_append hends, hlength, hl] at hcut
  have hrest : Reads (cs.drop (cs.length + 1 - 1)) [] tail := by
    rw [Nat.add_sub_cancel, drop_length]
    exact reads_nil tail
  exact hcut.reads rfl (Nat.le_refl _) hrest

theorem isNumeral_int (n : Nat) : IsNumeral (.int (Nat.repr n)) := by
  have hdigits := Surface.isDigits_repr n
  obtain ⟨c, cs, hcs⟩ := exists_cons_of_ne_nil hdigits.1
  refine ⟨⟨c, by rw [Lexeme.text, hcs]; rfl, hdigits.2 c (hcs ▸ mem_cons_self)⟩, ?_⟩
  rw [Lexeme.text, number_digits hdigits, String.ofList_toList]

theorem isNumeral_float (n : Nat) : IsNumeral (.float (Nat.repr n ++ ".0")) := by
  obtain ⟨⟨c, hc, hdigit⟩, -⟩ := isNumeral_int n
  have htext : (Nat.repr n ++ ".0").toList = (Nat.repr n).toList ++ ['.', '0'] := by simp
  refine ⟨⟨c, ?_, hdigit⟩, ?_⟩
  · rw [Lexeme.text, htext]
    exact mem_head?_append_of_mem_head? hc
  · rw [Lexeme.text, htext, number_parts (Surface.isDigits_repr n) rfl rfl, ← htext,
      String.ofList_toList]

/-- A text with numbers in it, each in front of the next part. -/
def weave (a : String) (ps : List (Lexeme × String)) : String :=
  ps.foldl (fun s p => s ++ p.1.text ++ p.2) a

theorem toList_weave (a : String) (ps : List (Lexeme × String)) :
    (weave a ps).toList = a.toList ++ ps.flatMap fun p => p.1.text.toList ++ p.2.toList := by
  unfold weave
  induction ps generalizing a with
  | nil => simp
  | cons p ps ih => simp [ih]

theorem reads_weave {a : String} (ha : Closed a.toList) (ps : List (Lexeme × String))
    (h : ∀ p ∈ ps, IsNumeral p.1 ∧ Closed p.2.toList) :
    Reads (weave a ps).toList
      (lexemesOf a.toList ++ ps.flatMap fun p => p.1 :: lexemesOf p.2.toList) [] := by
  rw [toList_weave]
  refine (ha.reads _).append ?_
  clear ha
  induction ps with
  | nil => exact reads_nil []
  | cons p ps ih =>
    obtain ⟨⟨hnumeral, hclosed⟩, hps⟩ := forall_mem_cons.mp h
    rw [flatMap_cons, append_assoc]
    refine (hnumeral.reads ?_).append ((hclosed.reads _).append (ih hps))
    rw [append_assoc]
    exact hclosed.head _

end DataMarks.Lexer
