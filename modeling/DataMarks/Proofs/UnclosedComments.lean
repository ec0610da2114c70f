/-
  What the fault of an unclosed comment reports.

  An unclosed comment starts where the text in front of it has been read, and that text is read
  as if it were all of the text (`Lexer.exists_unclosed`). The fault marks the openings of the
  comment that are not matched, from the outermost one on. So many closings in a new line at
  the end of the text close the comment, and fewer of them leave it unclosed
  (`unclosedComment_exact`).
-/
import DataMarks.Proofs.LibraryText

namespace DataMarks

open List

namespace Lexer

variable {file offset k : Nat} {opens : List Nat} {c : Char} {cs body : List Char}

/-! ## Closings at the end -/

/-- So many closings, one behind the other. -/
def closings (n : Nat) : List Char := (List.replicate n ['*', '/']).flatten

theorem closings_succ (n : Nat) : closings (n + 1) = '*' :: '/' :: closings n := rfl

/-- Each closing takes an opening off the stack. -/
theorem comment_closings (h : k ≤ opens.length) :
    comment offset opens (closings k) = (opens.drop k, (closings k).length) := by
  induction k generalizing offset opens with
  | zero => simp [closings, comment]
  | succ k ih =>
    obtain ⟨innermost, outer, rfl⟩ := exists_cons_of_length_pos (Nat.lt_of_lt_of_le k.succ_pos h)
    rw [closings_succ, comment_closing, ih (Nat.le_of_succ_le_succ h)]
    rfl

/-- The walk through an unclosed comment that gets closings in a new line. -/
theorem comment_extended (h : ¬ Matched body) (hk : k ≤ (unmatched (offset + 2) body).length + 1) :
    comment (offset + 2) [offset] (body ++ '\n' :: closings k) =
      (((unmatched (offset + 2) body).reverse ++ [offset]).drop k,
        (body ++ '\n' :: closings k).length) := by
  obtain ⟨hlt, hopen⟩ := comment_open h offset
  rw [comment_append hlt, hopen]
  generalize hstack : (unmatched (offset + 2) body).reverse ++ [offset] = stack
  have hlength : k ≤ stack.length := by
    rw [← hstack]
    simpa using hk
  obtain ⟨innermost, outer, rfl⟩ : ∃ innermost outer, stack = innermost :: outer :=
    exists_cons_of_ne_nil (by rw [← hstack]; simp)
  rw [comment_other rfl, comment_closings hlength]
  simp only [Prod.map, id, length_append, length_cons]
  congr 1
  omega

/-- Fewer closings than the comment lacks close the innermost levels only. -/
theorem piece_extended (h : ¬ Matched body) (hk : k ≤ (unmatched (offset + 2) body).length) :
    piece offset '/' ('*' :: (body ++ '\n' :: closings k)) =
      (.unclosed offset ((unmatched (offset + 2) body).take
        ((unmatched (offset + 2) body).length - k)), 1 + (body ++ '\n' :: closings k).length) := by
  refine (piece_walk (comment_extended h (Nat.le_succ_of_le hk))).2 _ _ ?_
  rw [drop_append_of_le_length (by rwa [length_reverse]), reverse_append,
    reverse_drop, reverse_reverse, length_reverse]
  rfl

/-- With as many closings as the comment lacks it ends with the text. -/
theorem piece_closed (h : ¬ Matched body) :
    piece offset '/' ('*' :: (body ++ '\n' :: closings ((unmatched (offset + 2) body).length + 1))) =
      (.skipped,
        1 + (body ++ '\n' :: closings ((unmatched (offset + 2) body).length + 1)).length) :=
  (piece_walk (comment_extended h (Nat.le_refl _))).1 (drop_eq_nil_of_le (by simp))

/-! ## The text in front of the comment -/

/-- The piece that is all of `c :: front` comes first, and then what stands behind. -/
theorem scan_front {n : Nat} {front : List Char} {p : Piece} (h : Cut offset c (front ++ cs) p n)
    (hn : front.length = n) (file : Nat) :
    scan file offset (c :: (front ++ cs)) =
      (p.item? file offset (offset + byteLength (c :: front))).toList ++
        scan file (offset + byteLength (c :: front)) cs := by
  rw [scan_cut h, ← hn, take_left, drop_left]

/-- The piece at a comment that is all of the text. -/
theorem scan_comment {p : Piece} (h : piece offset '/' ('*' :: cs) = (p, 1 + cs.length))
    (file : Nat) : scan file offset ('/' :: '*' :: cs) =
      (p.item? file offset (offset + byteLength ('/' :: '*' :: cs))).toList := by
  have hcut : Cut offset '/' ('*' :: cs ++ []) p (1 + cs.length) := by
    rw [append_nil]
    exact cut_iff.mpr h
  have hscan := scan_front hcut (Nat.add_comm _ _) file
  rwa [scan, append_nil, append_nil] at hscan

/-- There is an unclosed comment among the faults. -/
def HasUnclosed (items : List (Except LexError Token)) : Prop :=
  ∃ outermost nested, .error (.unclosedComment outermost nested) ∈ items

theorem not_hasUnclosed_nil : ¬ HasUnclosed [] := by
  rintro ⟨outermost, nested, hmem⟩
  cases hmem

theorem hasUnclosed_append {items items' : List (Except LexError Token)} :
    HasUnclosed (items ++ items') ↔ HasUnclosed items ∨ HasUnclosed items' := by
  simp only [HasUnclosed, mem_append, exists_or]

theorem unclosed_of_item? {start stop : Nat} {p : Piece}
    (h : HasUnclosed (p.item? file start stop).toList) :
    ∃ outermost nested, p = .unclosed outermost nested := by
  obtain ⟨outermost, nested, hmem⟩ := h
  cases p with
  | unclosed outermost nested => exact ⟨outermost, nested, rfl⟩
  | skipped => cases hmem
  | lexeme l => cases mem_singleton.mp hmem
  | stray => cases mem_singleton.mp hmem

/-- An unclosed comment starts behind a text that has none, and that is cut into the same pieces
whatever stands behind the slash of the comment. -/
theorem exists_unclosed (h : HasUnclosed (scan file offset cs)) :
    ∃ before body, cs = before ++ '/' :: '*' :: body ∧ ¬ Matched body ∧
      ¬ HasUnclosed (scan file offset before) ∧
      ∀ tail, scan file offset (before ++ '/' :: tail) =
        scan file offset before ++ scan file (offset + byteLength before) ('/' :: tail) := by
  fun_induction scan file offset cs with
  | case1 offset => exact absurd h not_hasUnclosed_nil
  | case2 offset c cs p n hpiece stop ih =>
    have hcut := cut_iff.mpr hpiece
    by_cases hp : HasUnclosed (p.item? file offset stop).toList
    · obtain ⟨outermost, nested, rfl⟩ := unclosed_of_item? hp
      cases hcut with
      | unclosed hbody =>
        refine ⟨[], _, rfl, hbody, ?_, fun tail => ?_⟩
        · rw [scan]
          exact not_hasUnclosed_nil
        · rw [scan]
          rfl
    · obtain ⟨before, body, hdrop, hbody, hbefore, hscan⟩ :=
        ih ((hasUnclosed_append.mp h).resolve_left hp)
      -- The piece ends before the slash, so it is the same with `before` alone behind it.
      have hn : (cs.take n).length = n := length_take_of_le hcut.le_length
      have hsplit : cs = cs.take n ++ before ++ '/' :: '*' :: body := by
        rw [append_assoc, ← hdrop, take_append_drop]
      have hfits : n ≤ (cs.take n ++ before).length := by
        rw [length_append, hn]
        exact Nat.le_add_right _ _
      rw [hsplit] at hcut
      have hfront : scan file offset (c :: (cs.take n ++ before)) =
          (p.item? file offset stop).toList ++ scan file stop before :=
        scan_front (hcut.within hfits) hn file
      refine ⟨c :: (cs.take n ++ before), body, ?_, hbody, ?_, fun tail => ?_⟩
      · rw [cons_append, ← hsplit]
      · rw [hfront, hasUnclosed_append]
        exact fun h => h.elim hp hbefore
      · have hslash := hcut.before_slash hfits tail
        rw [append_assoc] at hslash
        have hstop : offset + byteLength (c :: (cs.take n ++ before)) = stop + byteLength before := by
          rw [← cons_append, byteLength_append, ← Nat.add_assoc]
        rw [hfront, hstop, cons_append, append_assoc (cs.take n),
          scan_front hslash hn, hscan tail, append_assoc]

end Lexer

open Lexer

variable {file : Nat} {source : String} {outermost : Span} {nested : List Span}

/-- The fault of an unclosed comment marks the openings of the comment that are not matched, from
the outermost one on, and counts them. In a new line at the end of the text so many closings close
the comment, and fewer of them leave it open for want of the others. -/
theorem unclosedComment_exact
    (h : .error (.unclosedComment outermost nested) ∈ lex file source) :
    (∃ before text : String, source = before ++ text ∧ ['/', '*'] <+: text.toList ∧
      ¬ HasUnclosed (lex file before) ∧
      lex file source = lex file before ++ [.error (.unclosedComment outermost nested)] ∧
      (LexError.unclosedComment outermost nested).labels.map Label.span =
        (unmatched before.utf8ByteSize text.toList).map (opening file)) ∧
    (LexError.unclosedComment outermost nested).labels.length =
      (LexError.unclosedComment outermost nested).missingCloses ∧
    ¬ HasUnclosed (lex file (source ++ String.ofList ('\n' ::
      closings (LexError.unclosedComment outermost nested).missingCloses))) ∧
    ∀ k < (LexError.unclosedComment outermost nested).missingCloses,
      ∃ nested', .error (.unclosedComment outermost nested') ∈
          lex file (source ++ String.ofList ('\n' :: closings k)) ∧
        (LexError.unclosedComment outermost nested').missingCloses + k =
          (LexError.unclosedComment outermost nested).missingCloses := by
  obtain ⟨before, body, hsource, hbody, hbefore, hscan⟩ := exists_unclosed ⟨_, _, h⟩
  have hlex : lex file source = scan file 0 before ++ [.error (.unclosedComment
      (opening file (0 + byteLength before))
      ((unmatched (0 + byteLength before + 2) body).map (opening file)))] := by
    rw [lex, hsource, hscan, scan_comment (piece_open hbody)]
    rfl
  -- There is one such fault, so it is the fault in question.
  have hfault : LexError.unclosedComment outermost nested = .unclosedComment
      (opening file (0 + byteLength before))
      ((unmatched (0 + byteLength before + 2) body).map (opening file)) := by
    rw [hlex] at h
    rcases List.mem_append.mp h with hmem | hmem
    · exact absurd ⟨_, _, hmem⟩ hbefore
    · cases List.mem_singleton.mp hmem
      rfl
  cases hfault
  have hextended : ∀ k, lex file (source ++ String.ofList ('\n' :: closings k)) =
      scan file 0 before ++
        scan file (0 + byteLength before) ('/' :: '*' :: (body ++ '\n' :: closings k)) := by
    intro k
    rw [lex, String.toList_append, String.toList_ofList, hsource, List.append_assoc, ← hscan]
    rfl
  refine ⟨⟨String.ofList before, String.ofList ('/' :: '*' :: body), ?_, ?_, ?_, ?_, ?_⟩, ?_, ?_, ?_⟩
  · rw [← String.ofList_append, ← hsource, String.ofList_toList]
  · rw [String.toList_ofList]
    exact ⟨body, rfl⟩
  · rwa [lex, String.toList_ofList]
  · rw [hlex, lex, String.toList_ofList]
  · rw [← byteLength_eq, String.toList_ofList, unmatched_opening, if_pos (surplus_eq_zero hbody),
      Nat.zero_add]
    simp [LexError.labels]
  · simp [LexError.labels, LexError.missingCloses]
  · rw [hextended, LexError.missingCloses, List.length_map, scan_comment (piece_closed hbody)]
    show ¬ HasUnclosed (_ ++ [])
    rwa [List.append_nil]
  · intro k hk
    rw [LexError.missingCloses, List.length_map] at hk
    rw [hextended, scan_comment (piece_extended hbody (Nat.le_of_lt_succ hk))]
    refine ⟨_, List.mem_append_right _ (List.mem_singleton_self _), ?_⟩
    simp only [LexError.missingCloses, List.length_map, List.length_take]
    omega

theorem unclosedComment_nested :
    .error (.unclosedComment ⟨2, 2, 4⟩ [⟨2, 17, 19⟩]) ∈ lex 2 "a /* b /* c */ d /* e" ∧
      ¬ HasUnclosed (lex 2 ("a /* b /* c */ d /* e" ++ String.ofList ('\n' :: closings 2))) ∧
      HasUnclosed (lex 2 ("a /* b /* c */ d /* e" ++ String.ofList ('\n' :: closings 1))) := by
  have h : .error (.unclosedComment ⟨2, 2, 4⟩ [⟨2, 17, 19⟩]) ∈ lex 2 "a /* b /* c */ d /* e" := by
    rw [lex, ← List.drop_zero (l := String.toList _), ← scanFrom_eq]
    decide +kernel
  obtain ⟨-, -, hclosed, hopen⟩ := unclosedComment_exact h
  obtain ⟨nested, hmem, -⟩ := hopen 1 (by decide)
  exact ⟨h, hclosed, _, nested, hmem⟩

end DataMarks
