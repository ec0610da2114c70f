/-
  Comments that nest.

  The marks of a text are read from left to right, and no two of them share a character.
  `Closes n cs` says that a text closes `n` levels of comments and ends where the last of them
  is closed. So a block comment is an opening and a text that closes one level behind it
  (`IsBlockComment`), and an opening is matched if some block comment starts with it.

  The lexer walks a comment with a stack of the openings that are not closed yet. It stops
  behind the block comment if there is one (`comment_of_closes`). Otherwise it walks to the
  end of the text, and what is left on the stack are the openings that are not matched
  (`comment_of_surplus_lt`).
-/
import DataMarks.Token.Lexer

namespace DataMarks.Lexer

open List

variable {offset n : Nat} {opens : List Nat} {c : Char} {cs body rest : List Char}
variable {innermost : Nat} {outer : List Nat}

/-! ## Bytes -/

theorem byteLength_cons (c : Char) (cs : List Char) :
    byteLength (c :: cs) = c.utf8Size + byteLength cs := rfl

theorem byteLength_append (cs ds : List Char) :
    byteLength (cs ++ ds) = byteLength cs + byteLength ds := by
  induction cs with
  | nil => simp [byteLength]
  | cons c cs ih => rw [cons_append, byteLength_cons, byteLength_cons, ih, Nat.add_assoc]

theorem byteLength_eq (cs : List Char) : byteLength cs = (String.ofList cs).utf8ByteSize := by
  induction cs with
  | nil => rfl
  | cons c cs ih =>
    rw [String.ofList_cons, String.utf8ByteSize_append, String.utf8ByteSize_singleton, ← ih]
    rfl

theorem byteLength_toList (s : String) : byteLength s.toList = s.utf8ByteSize := by
  rw [byteLength_eq, String.ofList_toList]

/-! ## Marks -/

/-- Whether a text starts with an opening or a closing. -/
def startsMark : List Char → Bool
  | '/' :: '*' :: _ => true
  | '*' :: '/' :: _ => true
  | _ => false

/-- The text closes so many levels of comments, and ends where the last of them is closed. -/
inductive Closes : Nat → List Char → Prop
  | done : Closes 0 []
  | opening {n : Nat} {cs : List Char} (h : Closes (n + 2) cs) : Closes (n + 1) ('/' :: '*' :: cs)
  | closing {n : Nat} {cs : List Char} (h : Closes n cs) : Closes (n + 1) ('*' :: '/' :: cs)
  | other {n : Nat} {c : Char} {cs : List Char} (hc : startsMark (c :: cs) = false)
      (h : Closes (n + 1) cs) : Closes (n + 1) (c :: cs)

/-- A comment from its opening to the closing that belongs to it. -/
def IsBlockComment (cs : List Char) : Prop := ∃ body, cs = '/' :: '*' :: body ∧ Closes 1 body

/-- The opening with `cs` behind it is closed again: a block comment starts there. -/
def Matched (cs : List Char) : Prop := ∃ body rest, cs = body ++ rest ∧ Closes 1 body

/-- The openings in a text, each with its offset and the text behind it. -/
def openings (offset : Nat) : List Char → List (Nat × List Char)
  | '/' :: '*' :: cs => (offset, cs) :: openings (offset + 2) cs
  | '*' :: '/' :: cs => openings (offset + 2) cs
  | c :: cs => openings (offset + c.utf8Size) cs
  | [] => []

/-- How many levels a text closes of those that are open in front of it. -/
def surplus : List Char → Nat
  | '/' :: '*' :: cs => surplus cs - 1
  | '*' :: '/' :: cs => surplus cs + 1
  | _ :: cs => surplus cs
  | [] => 0

theorem startsMark_eq_false (hopening : ∀ cs', c = '/' → cs = '*' :: cs' → False)
    (hclosing : ∀ cs', c = '*' → cs = '/' :: cs' → False) : startsMark (c :: cs) = false := by
  unfold startsMark
  split
  · rename_i h
    cases h
    exact (hopening _ rfl rfl).elim
  · rename_i h
    cases h
    exact (hclosing _ rfl rfl).elim
  · rfl

theorem ne_mark (h : startsMark (c :: cs) = false) :
    (∀ cs', c = '/' → cs = '*' :: cs' → False) ∧ ∀ cs', c = '*' → cs = '/' :: cs' → False := by
  constructor
  · rintro cs' rfl rfl
    cases h
  · rintro cs' rfl rfl
    cases h

/-- Whether a text starts with a mark is seen from its first two characters. -/
theorem startsMark_append (hcs : cs ≠ []) (rest : List Char) :
    startsMark (c :: (cs ++ rest)) = startsMark (c :: cs) := by
  obtain ⟨d, ds, rfl⟩ := exists_cons_of_ne_nil hcs
  unfold startsMark
  split <;> split <;> simp_all

/-- A line break is no part of a mark. -/
theorem startsMark_break (h : startsMark (c :: cs) = false) (rest : List Char) :
    startsMark (c :: (cs ++ '\n' :: rest)) = false := by
  cases cs with
  | nil =>
    refine startsMark_eq_false ?_ ?_
    · rintro cs' - h
      cases h
    · rintro cs' - h
      cases h
  | cons d ds => rw [startsMark_append (cons_ne_nil d ds), h]

theorem surplus_other (h : startsMark (c :: cs) = false) : surplus (c :: cs) = surplus cs :=
  surplus.eq_3 c cs (ne_mark h).1 (ne_mark h).2

theorem openings_other (h : startsMark (c :: cs) = false) :
    openings offset (c :: cs) = openings (offset + c.utf8Size) cs :=
  openings.eq_3 offset c cs (ne_mark h).1 (ne_mark h).2

theorem Closes.ne_nil (h : Closes (n + 1) cs) : cs ≠ [] := by
  cases h <;> exact cons_ne_nil _ _

theorem Closes.le_surplus (h : Closes n body) (rest : List Char) : n ≤ surplus (body ++ rest) := by
  induction h with
  | done => exact Nat.zero_le _
  | @opening n cs h ih =>
    show n + 1 ≤ surplus (cs ++ rest) - 1
    omega
  | @closing n cs h ih =>
    show n + 1 ≤ surplus (cs ++ rest) + 1
    omega
  | other hc h ih =>
    rw [cons_append, surplus_other]
    · exact ih
    · rw [startsMark_append h.ne_nil, hc]

theorem exists_closes_of_le_surplus (h : n ≤ surplus cs) :
    ∃ body rest, cs = body ++ rest ∧ Closes n body := by
  induction cs using surplus.induct generalizing n with
  | case1 cs ih =>
    cases n with
    | zero => exact ⟨[], _, rfl, .done⟩
    | succ n =>
      change n + 1 ≤ surplus cs - 1 at h
      obtain ⟨body, rest, rfl, hbody⟩ := ih (n := n + 2) (by omega)
      exact ⟨'/' :: '*' :: body, rest, rfl, .opening hbody⟩
  | case2 cs ih =>
    cases n with
    | zero => exact ⟨[], _, rfl, .done⟩
    | succ n =>
      change n + 1 ≤ surplus cs + 1 at h
      obtain ⟨body, rest, rfl, hbody⟩ := ih (n := n) (by omega)
      exact ⟨'*' :: '/' :: body, rest, rfl, .closing hbody⟩
  | case3 c cs hopening hclosing ih =>
    have hc := startsMark_eq_false hopening hclosing
    cases n with
    | zero => exact ⟨[], _, rfl, .done⟩
    | succ n =>
      rw [surplus_other hc] at h
      obtain ⟨body, rest, rfl, hbody⟩ := ih h
      rw [startsMark_append hbody.ne_nil] at hc
      exact ⟨c :: body, rest, rfl, .other hc hbody⟩
  | case4 =>
    cases Nat.le_zero.mp h
    exact ⟨[], [], rfl, .done⟩

theorem matched_iff : Matched cs ↔ 0 < surplus cs := by
  constructor
  · rintro ⟨body, rest, rfl, hbody⟩
    exact hbody.le_surplus rest
  · exact exists_closes_of_le_surplus

theorem surplus_eq_zero (h : ¬ Matched cs) : surplus cs = 0 := by
  rw [matched_iff] at h
  omega

instance (cs : List Char) : Decidable (Matched cs) := decidable_of_iff _ matched_iff.symm

/-- The offsets of the openings in a text that are not matched. -/
def unmatched (offset : Nat) (cs : List Char) : List Nat :=
  ((openings offset cs).filter fun o => ¬ Matched o.2).map Prod.fst

theorem unmatched_opening : unmatched offset ('/' :: '*' :: cs) =
    if surplus cs = 0 then offset :: unmatched (offset + 2) cs else unmatched (offset + 2) cs := by
  unfold unmatched
  rw [openings, filter_cons]
  simp only [matched_iff, Nat.pos_iff_ne_zero]
  split <;> simp_all

theorem unmatched_closing :
    unmatched offset ('*' :: '/' :: cs) = unmatched (offset + 2) cs := by
  rw [unmatched, openings]
  rfl

theorem unmatched_other (h : startsMark (c :: cs) = false) :
    unmatched offset (c :: cs) = unmatched (offset + c.utf8Size) cs := by
  rw [unmatched, openings_other h]
  rfl

/-- The openings of a text lie within it. -/
theorem unmatched_le (offset : Nat) (cs : List Char) :
    ∀ o ∈ unmatched offset cs, o + 2 ≤ offset + byteLength cs := by
  have hopenings : ∀ o ∈ openings offset cs, o.1 + 2 ≤ offset + byteLength cs := by
    fun_induction openings offset cs with
    | case1 offset cs ih =>
      have hbytes : byteLength ('/' :: '*' :: cs) = 1 + (1 + byteLength cs) := rfl
      refine forall_mem_cons.mpr ⟨by omega, fun o ho => ?_⟩
      have := ih o ho
      omega
    | case2 offset cs ih =>
      have hbytes : byteLength ('*' :: '/' :: cs) = 1 + (1 + byteLength cs) := rfl
      intro o ho
      have := ih o ho
      omega
    | case3 offset c cs _ _ ih =>
      intro o ho
      have := ih o ho
      rw [byteLength_cons]
      omega
    | case4 => exact fun _ h => absurd h not_mem_nil
  intro o ho
  obtain ⟨p, hp, rfl⟩ := mem_map.mp ho
  exact hopenings p (mem_filter.mp hp).1

/-! ## The walk through a comment -/

theorem comment_opening :
    comment offset (innermost :: outer) ('/' :: '*' :: cs) =
      (comment (offset + 2) (offset :: innermost :: outer) cs).map id (· + 2) := by
  rw [comment]

theorem comment_closing :
    comment offset (innermost :: outer) ('*' :: '/' :: cs) =
      (comment (offset + 2) outer cs).map id (· + 2) := by
  rw [comment]

theorem comment_other (h : startsMark (c :: cs) = false) :
    comment offset (innermost :: outer) (c :: cs) =
      (comment (offset + c.utf8Size) (innermost :: outer) cs).map id (· + 1) := by
  rw [comment]
  · exact (ne_mark h).1
  · exact (ne_mark h).2

theorem comment_nil_opens : comment offset [] cs = ([], 0) := by
  unfold comment
  split <;> rfl

/-- The walk stops where all open levels are closed, whatever stands behind. -/
theorem comment_of_closes (h : Closes opens.length body) (rest : List Char) :
    comment offset opens (body ++ rest) = ([], body.length) := by
  generalize hn : opens.length = n at h
  induction h generalizing offset opens with
  | done =>
    rw [length_eq_zero_iff.mp hn, comment_nil_opens]
    rfl
  | opening _ ih =>
    obtain ⟨innermost, outer, rfl⟩ := exists_cons_of_length_eq_add_one hn
    rw [cons_append, cons_append, comment_opening, ih (by simpa using hn)]
    rfl
  | closing _ ih =>
    obtain ⟨innermost, outer, rfl⟩ := exists_cons_of_length_eq_add_one hn
    rw [cons_append, cons_append, comment_closing, ih (by simpa using hn)]
    rfl
  | other hc h ih =>
    obtain ⟨innermost, outer, rfl⟩ := exists_cons_of_length_eq_add_one hn
    rw [cons_append, comment_other (by rw [startsMark_append h.ne_nil, hc]), ih hn]
    rfl

/-- Where not all open levels are closed, the walk goes to the end of the text. The openings left
are those of the text that are not matched, and below them those in front of the text but the
ones that it closes. -/
theorem comment_of_surplus_lt (h : surplus cs < opens.length) :
    comment offset opens cs =
      ((unmatched offset cs).reverse ++ opens.drop (surplus cs), cs.length) := by
  fun_induction comment offset opens cs with
  | case1 | case3 | case5 => exact absurd h (Nat.not_lt_zero _)
  | case2 offset cs innermost outer ih =>
    change surplus cs - 1 < outer.length + 1 at h
    rw [ih (by simp only [length_cons]; omega), unmatched_opening]
    show (_, _) = (_ ++ List.drop (surplus cs - 1) _, _)
    -- The new opening is on top of the stack, so the first surplus closing takes it away.
    split
    · rename_i hs
      simp [hs]
    · rename_i hs
      obtain ⟨s, hs⟩ := Nat.exists_eq_succ_of_ne_zero hs
      simp [hs]
  | case4 offset cs innermost outer ih =>
    change surplus cs + 1 < outer.length + 1 at h
    rw [ih (by omega), unmatched_closing]
    rfl
  | case6 offset c cs hopening hclosing innermost outer ih =>
    have hc := startsMark_eq_false hopening hclosing
    rw [surplus_other hc] at h ⊢
    rw [ih h, unmatched_other hc]
    rfl
  | case7 offset opens =>
    simp [unmatched, openings, surplus]

/-- A walk that does not stop within a text goes on with what stands behind it, if a line break
keeps the marks apart. -/
theorem comment_append (h : surplus cs < opens.length) (rest : List Char) :
    comment offset opens (cs ++ '\n' :: rest) =
      (comment (offset + byteLength cs) (comment offset opens cs).1 ('\n' :: rest)).map id
        (· + cs.length) := by
  fun_induction comment offset opens cs with
  | case1 | case3 | case5 => exact absurd h (Nat.not_lt_zero _)
  | case2 offset cs innermost outer ih =>
    change surplus cs - 1 < outer.length + 1 at h
    have hbytes : offset + byteLength ('/' :: '*' :: cs) = offset + 2 + byteLength cs := by
      simp only [byteLength_cons, show '/'.utf8Size = 1 from rfl, show '*'.utf8Size = 1 from rfl]
      omega
    rw [cons_append, cons_append, comment_opening, ih (by simp only [length_cons]; omega), hbytes]
    rfl
  | case4 offset cs innermost outer ih =>
    change surplus cs + 1 < outer.length + 1 at h
    have hbytes : offset + byteLength ('*' :: '/' :: cs) = offset + 2 + byteLength cs := by
      simp only [byteLength_cons, show '/'.utf8Size = 1 from rfl, show '*'.utf8Size = 1 from rfl]
      omega
    rw [cons_append, cons_append, comment_closing, ih (by omega), hbytes]
    rfl
  | case6 offset c cs hopening hclosing innermost outer ih =>
    have hc := startsMark_eq_false hopening hclosing
    rw [surplus_other hc] at h
    rw [cons_append, comment_other (startsMark_break hc rest), ih h, byteLength_cons,
      ← Nat.add_assoc]
    rfl
  | case7 offset opens =>
    show _ = Prod.map id (· + 0) _
    rfl

end DataMarks.Lexer
