/-
  What becomes of each byte of a source text.

  A text is laid out as one stretch behind the other (`Lexer.Laid`): blanks and comments that are
  passed over, lexemes, stray characters, and at most one unclosed comment, which goes on to the
  end. So the tokens and faults of a text lie in order, each lexeme is the text at its place,
  and every byte between them is passed over (`lex_accounts`). The fault of an unclosed comment
  marks the opening only, and nothing else marks the bytes behind it (`lex_unclosed_unmarked`).

  A lexeme that was cut from a text is cut from its own text again, with a blank or nothing
  behind it; so tokens can be written with single blanks between them.
-/
import DataMarks.Proofs.TextCuts

namespace DataMarks

open List

/-- The span lies within the text of so many bytes that has the number `file`. -/
def Span.Within (file size : Nat) (s : Span) : Prop :=
  s.file = file ∧ s.start ≤ s.stop ∧ s.stop ≤ size

instance (file size : Nat) (s : Span) : Decidable (s.Within file size) :=
  inferInstanceAs (Decidable (_ ∧ _ ∧ _))

/-- The tokens follow each other from an offset on, in the text of `size` bytes that has the number
`file`. -/
def Token.InOrder (file size : Nat) : Nat → List Token → Prop
  | offset, [] => offset ≤ size
  | offset, t :: ts => t.span.file = file ∧ offset ≤ t.span.start ∧ t.span.start ≤ t.span.stop ∧
      InOrder file size t.span.stop ts

namespace Token.InOrder

variable {file size offset : Nat} {ts : List Token}

theorem offset_le (h : InOrder file size offset ts) : offset ≤ size := by
  induction ts generalizing offset with
  | nil => exact h
  | cons t ts ih =>
    obtain ⟨-, hstart, hstop, hrest⟩ := h
    have := ih hrest
    omega

theorem of_le {earlier : Nat} (hle : earlier ≤ offset) (h : InOrder file size offset ts) :
    InOrder file size earlier ts := by
  cases ts with
  | nil => exact Nat.le_trans hle h
  | cons t ts => exact ⟨h.1, Nat.le_trans hle h.2.1, h.2.2⟩

end Token.InOrder

/-- The place of a token or of a fault. -/
def itemSpan : Except LexError Token → Span
  | .ok t => t.span
  | .error e => e.span

/-- The span is not empty, and it lies in a file between two offsets. -/
def Span.Between (file start stop : Nat) (s : Span) : Prop :=
  s.file = file ∧ start ≤ s.start ∧ s.start < s.stop ∧ s.stop ≤ stop

theorem Span.Between.mono {file start stop start' stop' : Nat} {s : Span}
    (h : s.Between file start stop) (hstart : start' ≤ start) (hstop : stop ≤ stop') :
    s.Between file start' stop' :=
  ⟨h.1, Nat.le_trans hstart h.2.1, h.2.2.1, Nat.le_trans h.2.2.2 hstop⟩

namespace Lexer

variable {file offset n : Nat} {c : Char} {cs : List Char} {items : List (Except LexError Token)}
variable {l : Lexeme} {byte : Nat}

/-- A stretch of text that is passed over, in front of `behind`: a blank, a comment up to the end of
its line, or a block comment. -/
inductive Skipped : List Char → List Char → Prop
  | blank {c : Char} (h : Text.isBlank c = true) (behind : List Char) : Skipped [c] behind
  | line {cs behind : List Char} (hcs : '\n' ∉ cs) (hbehind : ∀ d ∈ behind.head?, d = '\n') :
      Skipped ('/' :: '/' :: cs) behind
  | comment {cs : List Char} (h : IsBlockComment cs) (behind : List Char) : Skipped cs behind

/-- Lexemes that are cut from their own text, with a blank or nothing behind it. -/
def Respelled (l : Lexeme) : Prop :=
  ∃ c cs, l.text.toList = c :: cs ∧ ∀ offset tail, (∀ d ∈ tail.head?, d = ' ') →
    Cut offset c (cs ++ tail) (.lexeme l) cs.length

/-- The place of an opening. -/
def opening (file at_ : Nat) : Span := ⟨file, at_, at_ + 2⟩

/-- The text that starts at byte `offset` is laid out as the tokens and faults, and what is passed
over between them. -/
inductive Laid (file : Nat) : Nat → List Char → List (Except LexError Token) → Prop
  | nil {offset : Nat} : Laid file offset [] []
  | skipped {offset : Nat} {stretch behind : List Char} {items : List (Except LexError Token)}
      (h : Skipped stretch behind) (hrest : Laid file (offset + byteLength stretch) behind items) :
      Laid file offset (stretch ++ behind) items
  | lexeme {offset : Nat} {l : Lexeme} {behind : List Char} {items : List (Except LexError Token)}
      (h : Respelled l) (hrest : Laid file (offset + byteLength l.text.toList) behind items) :
      Laid file offset (l.text.toList ++ behind)
        (.ok ⟨l, ⟨file, offset, offset + byteLength l.text.toList⟩⟩ :: items)
  | stray {offset : Nat} {c : Char} {behind : List Char} {items : List (Except LexError Token)}
      (hrest : Laid file (offset + c.utf8Size) behind items) :
      Laid file offset (c :: behind)
        (.error (.unexpectedCharacter ⟨file, offset, offset + c.utf8Size⟩) :: items)
  | unclosed {offset : Nat} {body : List Char} (h : ¬ Matched body) :
      Laid file offset ('/' :: '*' :: body)
        [.error (.unclosedComment (opening file offset)
          ((unmatched (offset + 2) body).map (opening file)))]

/-! ## The layout of a text -/

theorem Cut.skipped (h : Cut offset c cs .skipped n) : Skipped (c :: cs.take n) (cs.drop n) := by
  cases h with
  | blank h => exact .blank h _
  | line cs =>
    have htake : cs.take (cs.takeWhile (· != '\n')).length = cs.takeWhile (· != '\n') :=
      (prefix_iff_eq_take.mp (List.takeWhile_prefix _)).symm
    have hdrop : cs.drop (cs.takeWhile (· != '\n')).length = cs.dropWhile (· != '\n') := by
      have hsplit := take_append_drop (cs.takeWhile (· != '\n')).length cs
      rw [htake] at hsplit
      exact append_cancel_left (hsplit.trans takeWhile_append_dropWhile.symm)
    rw [Nat.add_comm, take_succ_cons, drop_succ_cons, htake, hdrop]
    refine .line (fun hmem => ?_) fun d hd => ?_
    · simpa using mem_takeWhile_imp hmem
    · have hend := head?_dropWhile_not (· != '\n') cs
      rw [hd] at hend
      simpa using hend
  | comment h cs =>
    rw [Nat.add_comm, take_succ_cons, drop_succ_cons, take_left, drop_left]
    exact .comment ⟨_, rfl, h⟩ _

theorem Cut.respelled (h : Cut offset c cs (.lexeme l) n) : Respelled l := by
  refine ⟨c, cs.take n, h.text, fun offset' tail htail => ?_⟩
  rw [length_take_of_le h.le_length]
  exact h.before_blank offset' htail

theorem laid_scan (file offset : Nat) (cs : List Char) :
    Laid file offset cs (scan file offset cs) := by
  fun_induction scan file offset cs with
  | case1 offset => exact .nil
  | case2 offset c cs p n hpiece stop ih =>
    have hcut := cut_iff.mpr hpiece
    have hsplit : c :: cs = c :: cs.take n ++ cs.drop n := by
      rw [cons_append, take_append_drop]
    cases p with
    | skipped =>
      rw [hsplit]
      exact .skipped hcut.skipped ih
    | lexeme l =>
      have hstop : stop = offset + byteLength l.text.toList := by rw [hcut.text]
      show Laid file offset (c :: cs) (.ok ⟨l, ⟨file, offset, stop⟩⟩ :: scan file stop (cs.drop n))
      rw [hstop] at ih ⊢
      rw [hsplit, ← hcut.text]
      exact .lexeme hcut.respelled ih
    | stray =>
      cases hcut with
      | stray => exact .stray ih
    | unclosed outermost nested =>
      cases hcut with
      | unclosed h =>
        rename_i body
        have hrest : List.drop (1 + body.length) ('*' :: body) = [] :=
          drop_eq_nil_of_le (by rw [length_cons]; omega)
        rw [hrest, scan]
        exact .unclosed h

/-! ## The places of tokens and faults -/

theorem byteLength_pos (c : Char) (cs : List Char) : 0 < byteLength (c :: cs) := by
  have := c.utf8Size_pos
  rw [byteLength_cons]
  omega

theorem Respelled.byteLength_pos (h : Respelled l) : 0 < byteLength l.text.toList := by
  obtain ⟨c, cs, hl, -⟩ := h
  rw [hl]
  exact Lexer.byteLength_pos c cs

theorem Laid.between (h : Laid file offset cs items) :
    ∀ item ∈ items, (itemSpan item).Between file offset (offset + byteLength cs) := by
  induction h with
  | nil => exact fun _ h => by cases h
  | skipped h hrest ih =>
    rw [byteLength_append]
    exact fun item hitem => (ih item hitem).mono (Nat.le_add_right _ _) (by omega)
  | lexeme h hrest ih =>
    rw [byteLength_append]
    refine forall_mem_cons.mpr ⟨⟨rfl, Nat.le_refl _, ?_, ?_⟩, fun item hitem => ?_⟩
    · exact Nat.lt_add_of_pos_right h.byteLength_pos
    · exact Nat.add_le_add_left (Nat.le_add_right _ _) _
    · exact (ih item hitem).mono (Nat.le_add_right _ _) (by omega)
  | @stray offset c behind items hrest ih =>
    rw [byteLength_cons]
    refine forall_mem_cons.mpr ⟨⟨rfl, Nat.le_refl _, ?_, ?_⟩, fun item hitem => ?_⟩
    · exact Nat.lt_add_of_pos_right c.utf8Size_pos
    · exact Nat.add_le_add_left (Nat.le_add_right _ _) _
    · exact (ih item hitem).mono (Nat.le_add_right _ _) (by omega)
  | @unclosed offset body h =>
    refine forall_mem_singleton.mpr ⟨rfl, Nat.le_refl _, ?_, ?_⟩
    · exact Nat.lt_add_of_pos_right Nat.two_pos
    · show offset + 2 ≤ offset + (1 + (1 + byteLength body))
      omega

/-- No token or fault overlaps the one before. -/
theorem Laid.pairwise (h : Laid file offset cs items) :
    items.Pairwise fun a b => (itemSpan a).stop ≤ (itemSpan b).start := by
  induction h with
  | nil => exact .nil
  | skipped h hrest ih => exact ih
  | lexeme h hrest ih => exact .cons (fun item hitem => (hrest.between item hitem).2.1) ih
  | stray hrest ih => exact .cons (fun item hitem => (hrest.between item hitem).2.1) ih
  | unclosed h => exact pairwise_singleton _ _

/-- The outcome of reading tokens from an offset on: tokens in order, or an error all of whose
labels lie within the text. -/
def Placed (file size offset : Nat) : Except LexError (List Token) → Prop
  | .ok ts => Token.InOrder file size offset ts
  | .error e => ∀ l ∈ e.labels, l.span.Within file size

theorem Placed.of_le {size earlier : Nat} {r : Except LexError (List Token)} (hle : earlier ≤ offset)
    (h : Placed file size offset r) : Placed file size earlier r := by
  cases r with
  | ok ts => exact Token.InOrder.of_le hle h
  | error e => exact h

theorem Laid.placed {size : Nat} (h : Laid file offset cs items)
    (hsize : offset + byteLength cs ≤ size) : Placed file size offset (items.mapM id) := by
  induction h with
  | nil => exact hsize
  | skipped h hrest ih =>
    rw [byteLength_append] at hsize
    exact (ih (by omega)).of_le (Nat.le_add_right _ _)
  | @lexeme offset l behind items h hrest ih =>
    rw [byteLength_append] at hsize
    have hplaced := ih (by omega)
    rw [mapM_cons]
    cases hitems : items.mapM id with
    | ok ts =>
      rw [hitems] at hplaced
      exact ⟨rfl, Nat.le_refl _, Nat.le_add_right _ _, hplaced⟩
    | error e =>
      rw [hitems] at hplaced
      exact hplaced
  | @stray offset c behind items hrest ih =>
    rw [byteLength_cons] at hsize
    rw [mapM_cons]
    refine forall_mem_singleton.mpr ⟨rfl, Nat.le_add_right _ _, ?_⟩
    show offset + c.utf8Size ≤ size
    omega
  | @unclosed offset body h =>
    rw [mapM_cons]
    have hbytes : byteLength ('/' :: '*' :: body) = 1 + (1 + byteLength body) := rfl
    have hopening : ∀ o ∈ offset :: unmatched (offset + 2) body,
        (opening file o).Within file size := by
      refine forall_mem_cons.mpr ⟨⟨rfl, Nat.le_add_right _ _, ?_⟩, fun o ho => ?_⟩
      · show offset + 2 ≤ size
        omega
      · have := unmatched_le _ _ o ho
        refine ⟨rfl, Nat.le_add_right _ _, ?_⟩
        show o + 2 ≤ size
        omega
    obtain ⟨houtermost, hnested⟩ := forall_mem_cons.mp hopening
    exact forall_mem_cons.mpr ⟨houtermost, forall_mem_map.mpr (forall_mem_map.mpr hnested)⟩

/-- The text at the place of a token is that of its lexeme. -/
theorem Laid.text (h : Laid file offset cs items) {t : Token} (ht : .ok t ∈ items) :
    ∃ before behind, cs = before ++ t.lexeme.text.toList ++ behind ∧
      t.span.start = offset + byteLength before ∧
      t.span.stop = t.span.start + byteLength t.lexeme.text.toList := by
  induction h with
  | nil => cases ht
  | @skipped offset stretch behind items h hrest ih =>
    obtain ⟨before, behind, rfl, hstart, hstop⟩ := ih ht
    refine ⟨stretch ++ before, behind, by simp, ?_, hstop⟩
    rw [hstart, byteLength_append, Nat.add_assoc]
  | @lexeme offset l behind items h hrest ih =>
    rcases mem_cons.mp ht with ht | ht
    · cases ht
      exact ⟨[], behind, rfl, rfl, rfl⟩
    · obtain ⟨before, behind, rfl, hstart, hstop⟩ := ih ht
      refine ⟨l.text.toList ++ before, behind, by simp, ?_, hstop⟩
      rw [hstart, byteLength_append, Nat.add_assoc]
  | @stray offset c behind items hrest ih =>
    rcases mem_cons.mp ht with ht | ht
    · cases ht
    · obtain ⟨before, behind, rfl, hstart, hstop⟩ := ih ht
      refine ⟨c :: before, behind, by simp, ?_, hstop⟩
      rw [hstart, byteLength_cons, Nat.add_assoc]
  | unclosed h => cases mem_singleton.mp ht

/-! ## The bytes between them -/

/-- The byte is in a stretch of the text that is passed over, which none of the items touches. -/
def Passes (items : List (Except LexError Token)) (offset : Nat) (cs : List Char) (byte : Nat) :
    Prop :=
  ∃ before stretch behind, cs = before ++ stretch ++ behind ∧ Skipped stretch behind ∧
    offset + byteLength before ≤ byte ∧ byte < offset + byteLength (before ++ stretch) ∧
    ∀ item ∈ items, (itemSpan item).stop ≤ offset + byteLength before ∨
      offset + byteLength (before ++ stretch) ≤ (itemSpan item).start

/-- The byte is in an unclosed comment, which goes on to the end of the text and is reported. -/
def Opened (file : Nat) (items : List (Except LexError Token)) (offset : Nat) (cs : List Char)
    (byte : Nat) : Prop :=
  ∃ before body nested, cs = before ++ '/' :: '*' :: body ∧ ¬ Matched body ∧
    offset + byteLength before ≤ byte ∧
    .error (.unclosedComment (opening file (offset + byteLength before)) nested) ∈ items

/-- A stretch in front changes neither. -/
theorem Passes.behind (front : List Char) (h : Passes items (offset + byteLength front) cs byte)
    (more : List (Except LexError Token))
    (hmore : ∀ item ∈ more, (itemSpan item).stop ≤ offset + byteLength front) :
    Passes (more ++ items) offset (front ++ cs) byte := by
  obtain ⟨before, stretch, behind, rfl, hskipped, hstart, hstop, hitems⟩ := h
  have hbefore : offset + byteLength (front ++ before) =
      offset + byteLength front + byteLength before := by rw [byteLength_append, Nat.add_assoc]
  have hstretch : offset + byteLength (front ++ before ++ stretch) =
      offset + byteLength front + byteLength (before ++ stretch) := by
    rw [append_assoc, byteLength_append, Nat.add_assoc]
  refine ⟨front ++ before, stretch, behind, by simp, hskipped, ?_, ?_, fun item hitem => ?_⟩
  · rwa [hbefore]
  · rwa [hstretch]
  · rw [hbefore, hstretch]
    rcases mem_append.mp hitem with hitem | hitem
    · exact .inl (Nat.le_trans (hmore item hitem) (Nat.le_add_right _ _))
    · exact hitems item hitem

theorem Opened.behind (front : List Char)
    (h : Opened file items (offset + byteLength front) cs byte)
    (more : List (Except LexError Token)) :
    Opened file (more ++ items) offset (front ++ cs) byte := by
  obtain ⟨before, body, nested, rfl, hbody, hstart, hitem⟩ := h
  refine ⟨front ++ before, body, nested, by simp, hbody, ?_, ?_⟩
  · rwa [byteLength_append, ← Nat.add_assoc]
  · rw [byteLength_append, ← Nat.add_assoc]
    exact mem_append_right _ hitem

/-- Every byte is in a token or fault, or it is passed over, or it is in an unclosed comment. -/
theorem Laid.accounts (h : Laid file offset cs items) (hstart : offset ≤ byte)
    (hstop : byte < offset + byteLength cs)
    (hout : ∀ item ∈ items, byte < (itemSpan item).start ∨ (itemSpan item).stop ≤ byte) :
    Passes items offset cs byte ∨ Opened file items offset cs byte := by
  induction h with
  | nil => exact absurd hstop (Nat.not_lt.mpr hstart)
  | @skipped offset stretch behind items h hrest ih =>
    rw [byteLength_append] at hstop
    by_cases hfront : byte < offset + byteLength stretch
    · refine .inl ⟨[], stretch, behind, rfl, h, hstart, hfront, fun item hitem => .inr ?_⟩
      exact (hrest.between item hitem).2.1
    · refine (ih (by omega) (by omega) hout).imp (fun hp => ?_) fun ho => ho.behind stretch []
      exact hp.behind stretch [] fun _ h => by cases h
  | @lexeme offset l behind items h hrest ih =>
    rw [byteLength_append] at hstop
    obtain ⟨hfirst, hout⟩ := forall_mem_cons.mp hout
    have hfront : offset + byteLength l.text.toList ≤ byte :=
      hfirst.resolve_left (Nat.not_lt.mpr hstart)
    refine (ih hfront (by omega) hout).imp (fun hp => ?_) fun ho => ho.behind _ [_]
    exact hp.behind _ [_] (forall_mem_singleton.mpr (Nat.le_refl _))
  | @stray offset c behind items hrest ih =>
    rw [byteLength_cons] at hstop
    obtain ⟨hfirst, hout⟩ := forall_mem_cons.mp hout
    have hfront : offset + c.utf8Size ≤ byte := hfirst.resolve_left (Nat.not_lt.mpr hstart)
    refine (ih hfront (by omega) hout).imp (fun hp => ?_) fun ho => ?_
    · exact hp.behind [c] [_] (forall_mem_singleton.mpr (Nat.le_refl _))
    · exact ho.behind [c] [_]
  | @unclosed offset body h =>
    exact .inr ⟨[], body, _, rfl, h, hstart, mem_singleton_self _⟩

/-! ## Tokens written again -/

theorem Laid.respelled (h : Laid file offset cs items) {t : Token} (ht : .ok t ∈ items) :
    Respelled t.lexeme := by
  induction h with
  | nil => cases ht
  | skipped h hrest ih => exact ih ht
  | lexeme h hrest ih =>
    rcases mem_cons.mp ht with ht | ht
    · cases ht
      exact h
    · exact ih ht
  | stray hrest ih =>
    rcases mem_cons.mp ht with ht | ht
    · cases ht
    · exact ih ht
  | unclosed h => cases mem_singleton.mp ht

/-- With `tail` behind them, the characters are read as tokens with these lexemes. -/
def Reads (cs : List Char) (ls : List Lexeme) (tail : List Char) : Prop :=
  ∀ file offset, ∃ (ts : List Token) (stop : Nat), ts.map Token.lexeme = ls ∧
    scan file offset (cs ++ tail) = ts.map .ok ++ scan file stop tail

theorem reads_nil (tail : List Char) : Reads [] [] tail := fun _ offset => ⟨[], offset, rfl, rfl⟩

section Reads

variable {ds tail : List Char} {ls ks : List Lexeme}

theorem Reads.append (hcs : Reads cs ls (ds ++ tail)) (hds : Reads ds ks tail) :
    Reads (cs ++ ds) (ls ++ ks) tail := by
  intro file offset
  obtain ⟨ts, stop, rfl, hts⟩ := hcs file offset
  obtain ⟨us, stop', rfl, hus⟩ := hds file stop
  refine ⟨ts ++ us, stop', map_append, ?_⟩
  rw [append_assoc, hts, hus, map_append, append_assoc]

theorem Reads.scan (h : Reads cs ls []) (file offset : Nat) :
    ∃ ts : List Token, ts.map Token.lexeme = ls ∧ scan file offset cs = ts.map .ok := by
  obtain ⟨ts, stop, hts, hscan⟩ := h file offset
  rw [append_nil, Lexer.scan.eq_1, append_nil] at hscan
  exact ⟨ts, hts, hscan⟩

theorem Cut.reads {p : Piece} (h : Cut offset c (cs ++ tail) p n) (hp : p.lexemes? = some ls)
    (hn : n ≤ cs.length) (hrest : Reads (cs.drop n) ks tail) :
    Reads (c :: cs) (ls ++ ks) tail := by
  intro file start
  obtain ⟨ts, stop, rfl, hts⟩ := hrest file (start + byteLength (c :: (cs ++ tail).take n))
  have hscan := scan_cut (h.moved hp start) file
  rw [drop_append_of_le_length hn, hts] at hscan
  rw [cons_append, hscan]
  cases p with
  | lexeme l =>
    cases hp
    exact ⟨_ :: ts, stop, rfl, rfl⟩
  | skipped =>
    cases hp
    exact ⟨ts, stop, rfl, rfl⟩
  | _ => cases hp

theorem reads_blank (tail : List Char) : Reads [' '] [] tail :=
  (@Cut.blank 0 ' ' rfl ([] ++ tail)).reads rfl (Nat.le_refl 0) (reads_nil tail)

theorem Respelled.reads (h : Respelled l) (htail : ∀ d ∈ tail.head?, d = ' ') :
    Reads l.text.toList [l] tail := by
  obtain ⟨c, cs, hl, hcut⟩ := h
  have hrest : Reads (cs.drop cs.length) [] tail := by
    rw [drop_length]
    exact reads_nil tail
  exact hl ▸ (hcut 0 tail htail).reads rfl (Nat.le_refl _) hrest

/-- Lexemes with single blanks between them are cut from the text again. -/
theorem scan_intercalate (h : ∀ l ∈ ls, Respelled l) (file offset : Nat) :
    ∃ ts : List Token, ts.map Token.lexeme = ls ∧
      Lexer.scan file offset ([' '].intercalate (ls.map fun l => l.text.toList)) = ts.map .ok := by
  refine Reads.scan ?_ file offset
  induction ls with
  | nil => exact reads_nil []
  | cons l ls ih =>
    obtain ⟨hl, hls⟩ := forall_mem_cons.mp h
    cases ls with
    | nil =>
      rw [map_singleton, intercalate_singleton]
      exact hl.reads (by simp)
    | cons l' ls =>
      rw [map_cons, map_cons, intercalate_cons_cons, append_assoc]
      exact (hl.reads (by simp)).append ((reads_blank _).append (ih hls))

end Reads

end Lexer

open Lexer

theorem laid_lex (file : Nat) (source : String) :
    Laid file 0 source.toList (lex file source) := laid_scan file 0 source.toList

theorem placed_tokens (file : Nat) (source : String) :
    Lexer.Placed file source.utf8ByteSize 0 (tokens file source) :=
  (laid_lex file source).placed (Nat.le_of_eq (by rw [Nat.zero_add, byteLength_toList]))

/-- Every byte of a source text outside of its tokens and faults is passed over. -/
def Accounted (file : Nat) (source : String) : Prop :=
  ∀ byte < source.utf8ByteSize,
    (∀ item ∈ lex file source, byte < (itemSpan item).start ∨ (itemSpan item).stop ≤ byte) →
    Passes (lex file source) 0 source.toList byte

/-- The tokens and faults of a source text lie in it in order, and tokens where their text stands.
Every byte outside of them is in a blank, a line comment or a block comment, or it is in an
unclosed comment, which is one of the faults. Without faults, the texts of the tokens with single
blanks between them have the same tokens. -/
theorem lex_accounts (file : Nat) (source : String) :
    (∀ item ∈ lex file source, (itemSpan item).Between file 0 source.utf8ByteSize) ∧
    ((lex file source).Pairwise fun a b => (itemSpan a).stop ≤ (itemSpan b).start) ∧
    (∀ t, .ok t ∈ lex file source → ∃ before behind,
      source.toList = before ++ t.lexeme.text.toList ++ behind ∧
        t.span.start = byteLength before ∧
        t.span.stop = t.span.start + byteLength t.lexeme.text.toList) ∧
    (∀ byte < source.utf8ByteSize,
      (∀ item ∈ lex file source, byte < (itemSpan item).start ∨ (itemSpan item).stop ≤ byte) →
      Passes (lex file source) 0 source.toList byte ∨
        Opened file (lex file source) 0 source.toList byte) ∧
    ∀ ts : List Token, lex file source = ts.map .ok →
      ∃ ts' : List Token, lex file (" ".intercalate (ts.map fun t => t.lexeme.text)) = ts'.map .ok ∧
        ts'.map Token.lexeme = ts.map Token.lexeme := by
  have hlaid := laid_lex file source
  have hsize : 0 + byteLength source.toList = source.utf8ByteSize := by
    rw [Nat.zero_add, byteLength_toList]
  refine ⟨fun item hitem => hsize ▸ hlaid.between item hitem, hlaid.pairwise, fun t ht => ?_,
    fun byte hbyte hout => hlaid.accounts (Nat.zero_le _) (hsize.symm ▸ hbyte) hout,
    fun ts hts => ?_⟩
  · obtain ⟨before, behind, htext, hstart, hstop⟩ := hlaid.text ht
    exact ⟨before, behind, htext, by rw [hstart, Nat.zero_add], hstop⟩
  · have hrespelled : ∀ l ∈ ts.map Token.lexeme, Respelled l := by
      intro l hl
      obtain ⟨t, ht, rfl⟩ := List.mem_map.mp hl
      exact hlaid.respelled (hts ▸ List.mem_map_of_mem ht)
    obtain ⟨ts', hlexemes, hscan⟩ := scan_intercalate hrespelled file 0
    refine ⟨ts', ?_, hlexemes⟩
    rw [lex, String.toList_intercalate, ← hscan, List.map_map, List.map_map]
    rfl

theorem lex_unclosed : lex 2 "/* a" = [.error (.unclosedComment ⟨2, 0, 2⟩ [])] := by
  have hcut : Cut 0 '/' ['*', ' ', 'a'] (.unclosed 0 []) 3 :=
    @Cut.unclosed 0 [' ', 'a'] (by decide)
  show scan 2 0 ['/', '*', ' ', 'a'] = _
  rw [scan_cut hcut]
  show [_] ++ scan 2 4 [] = _
  rw [scan]
  rfl

/-- The fault of an unclosed comment leaves the bytes behind the opening out, and they are not
passed over either. -/
theorem lex_unclosed_unmarked : ¬ Accounted 2 "/* a" := by
  intro h
  have hout : ∀ item ∈ lex 2 "/* a", 3 < (itemSpan item).start ∨ (itemSpan item).stop ≤ 3 := by
    rw [lex_unclosed]
    exact List.forall_mem_singleton.mpr (.inr (by decide))
  obtain ⟨before, stretch, behind, htext, hskipped, hstart, hstop, -⟩ := h 3 (by decide) hout
  change ['/', '*', ' ', 'a'] = before ++ stretch ++ behind at htext
  -- The stretch ends with the text, so there are four places where it can start.
  have hbehind : behind = [] := by
    have hlength := congrArg byteLength htext
    rw [byteLength_append] at hlength
    change 4 = _ at hlength
    cases behind with
    | nil => rfl
    | cons d behind =>
      have := byteLength_pos d behind
      omega
  have hcomment : ∀ body, Closes 1 body → body = [' ', 'a'] → False := by
    rintro body hbody rfl
    exact absurd (hbody.le_surplus []) (by decide)
  rw [hbehind, List.append_nil] at htext
  rcases before with _ | ⟨c₀, _ | ⟨c₁, _ | ⟨c₂, _ | ⟨c₃, before⟩⟩⟩⟩
  · cases htext
    rcases hskipped with _ | _ | ⟨⟨body, hbody, hcloses⟩, _⟩
    exact hcomment body hcloses (by cases hbody; rfl)
  · cases htext
    rcases hskipped with _ | _ | ⟨⟨body, hbody, -⟩, _⟩
    cases hbody
  · cases htext
    rcases hskipped with ⟨hblank, _⟩ | _ | ⟨⟨body, hbody, -⟩, _⟩
    cases hbody
  · cases htext
    rcases hskipped with ⟨hblank, _⟩ | _ | ⟨⟨body, hbody, -⟩, _⟩
    · exact absurd hblank (by decide)
    · cases hbody
  · have h₀ := c₀.utf8Size_pos
    have h₁ := c₁.utf8Size_pos
    have h₂ := c₂.utf8Size_pos
    have h₃ := c₃.utf8Size_pos
    simp only [byteLength_cons] at hstart
    omega

end DataMarks
