/-
  Where the nodes of a file lie.

  What a parser reads lies between the token it starts at and the last token it reads. So the
  state of the argument is a list of nodes that have been read since some input, in any order
  (`Input.Carries`): reading adds to it, and a node that spans from there to the last token
  covers them all.
-/
import DataMarks.Proofs.LosslessTokens
import DataMarks.Proofs.ParserRules
import DataMarks.Proofs.SyntaxNodes

namespace DataMarks.Surface

open List

namespace Input

variable {file size : Nat} {i m r : Input} {ns ms : List Node}

/-- An input somewhere in the text of `size` bytes that has the number `file`. -/
structure Reads (file size : Nat) (i : Input) : Prop where
  file_eq : i.file = file
  size_eq : i.size = size
  inOrder : Token.InOrder file size i.last i.tokens

namespace Reads

theorem last_le (h : i.Reads file size) : i.last ≤ size := h.inOrder.offset_le

theorem here_within (h : i.Reads file size) : i.here.Within file size := by
  have horder := h.inOrder
  unfold here
  cases htokens : i.tokens with
  | nil => exact ⟨h.file_eq, Nat.le_refl _, Nat.le_of_eq h.size_eq⟩
  | cons t ts =>
    rw [htokens] at horder
    exact ⟨horder.1, horder.2.2.1, horder.2.2.2.offset_le⟩

theorem last_le_here (h : i.Reads file size) : i.last ≤ i.here.start := by
  have horder := h.inOrder
  unfold here
  cases htokens : i.tokens with
  | nil => exact Nat.le_trans h.last_le (Nat.le_of_eq h.size_eq.symm)
  | cons t ts =>
    rw [htokens] at horder
    exact horder.2.1

theorem skip (h : i.Reads file size) : i.skip.Reads file size := by
  have horder := h.inOrder
  unfold Input.skip
  cases htokens : i.tokens with
  | nil => exact h
  | cons t ts =>
    rw [htokens] at horder
    exact ⟨h.file_eq, h.size_eq, horder.2.2.2⟩

end Reads

theorem last_skip {l : Lexeme} (h : i.lexemes.head? = some l) : i.skip.last = i.here.stop := by
  obtain ⟨t, ts, -, -, hhere, hskip⟩ := tokens_eq_cons h
  rw [hhere, hskip]

/-- The input `r` is at the same place as `i` or behind it. -/
structure Reaches (file size : Nat) (i r : Input) : Prop where
  reads : r.Reads file size
  start : i.here.start ≤ r.here.start
  last : i.last ≤ r.last
  behind : ∃ n, r = i.behind n

theorem Reaches.refl (h : i.Reads file size) : i.Reaches file size i :=
  ⟨h, Nat.le_refl _, Nat.le_refl _, 0, rfl⟩

theorem Reaches.trans (h : i.Reaches file size m) (k : m.Reaches file size r) :
    i.Reaches file size r := by
  obtain ⟨n₁, rfl⟩ := h.behind
  obtain ⟨n₂, rfl⟩ := k.behind
  exact ⟨k.reads, Nat.le_trans h.start k.start, Nat.le_trans h.last k.last, n₁ + n₂,
    (behind_add n₁ n₂ i).symm⟩

theorem Reads.reaches_skip (h : i.Reads file size) : i.Reaches file size i.skip := by
  cases hnext : i.lexemes.head? with
  | none =>
    have hskip : i.skip = i := by
      unfold Input.skip
      cases htokens : i.tokens with
      | nil => rfl
      | cons t ts => simp [lexemes, htokens] at hnext
    rw [hskip]
    exact .refl h
  | some l =>
    have hhere := h.here_within.2.1
    have hlast := h.last_le_here
    have hbehind := h.skip.last_le_here
    rw [last_skip hnext] at hbehind
    refine ⟨h.skip, by omega, ?_, 1, rfl⟩
    rw [last_skip hnext]
    omega

/-- The span lies between the next token of `i` and the last token read at `r`. -/
def Between (file : Nat) (i r : Input) (s : Span) : Prop :=
  s.file = file ∧ i.here.start ≤ s.start ∧ s.start ≤ s.stop ∧ s.stop ≤ r.last

theorem Between.within {s : Span} (h : i.Between file r s) (hr : r.Reads file size) :
    s.Within file size :=
  ⟨h.1, h.2.2.1, Nat.le_trans h.2.2.2 hr.last_le⟩

theorem Between.merge {s t : Span} (hs : i.Between file r s) (ht : i.Between file r t) :
    i.Between file r (s.merge t) := by
  obtain ⟨hfile, hs⟩ := hs
  obtain ⟨-, ht⟩ := ht
  refine ⟨hfile, ?_⟩
  show i.here.start ≤ min s.start t.start ∧ min s.start t.start ≤ max s.stop t.stop ∧
    max s.stop t.stop ≤ r.last
  omega

/-- A node that spans two places lies where they lie if its children are at these places. -/
theorem Between.placed_merge {n : Node} {s t : Span} (hs : i.Between file r s)
    (ht : i.Between file r t) (haccepted : n.Accepted) (hspan : n.span = s.merge t)
    (hchildren : ∀ c ∈ n.children, c.Placed (i.Between file r) ∧ (c.span = s ∨ c.span = t)) :
    n.Placed (i.Between file r) := by
  refine .intro ?_ haccepted (fun c hc => ?_) fun c hc => (hchildren c hc).1
  · rw [hspan]
    exact hs.merge ht
  · rw [hspan]
    rcases (hchildren c hc).2 with h | h
    · rw [h]
      exact Span.merge_covers_left s t
    · rw [h]
      exact Span.merge_covers_right (hs.1.trans ht.1.symm)

/-- The nodes are read from `i` to `r`. -/
structure Carries (file size : Nat) (i : Input) (ns : List Node) (r : Input) : Prop where
  reaches : i.Reaches file size r
  placed : ∀ n ∈ ns, n.Placed (i.Between file r)

namespace Carries

theorem refl (h : i.Reads file size) : i.Carries file size [] i :=
  ⟨.refl h, fun _ hn => absurd hn not_mem_nil⟩

theorem trans (h : i.Carries file size ns m) (k : m.Carries file size ms r) :
    i.Carries file size (ns ++ ms) r := by
  refine ⟨h.reaches.trans k.reaches, fun n hn => ?_⟩
  rcases mem_append.mp hn with hn | hn
  · refine (h.placed n hn).mono fun s hs => ⟨hs.1, hs.2.1, hs.2.2.1, ?_⟩
    exact Nat.le_trans hs.2.2.2 k.reaches.last
  · refine (k.placed n hn).mono fun s hs => ⟨hs.1, ?_, hs.2.2⟩
    exact Nat.le_trans h.reaches.start hs.2.1

theorem subset (h : i.Carries file size ns r) (hms : ∀ n ∈ ms, n ∈ ns) :
    i.Carries file size ms r :=
  ⟨h.reaches, fun n hn => h.placed n (hms n hn)⟩

theorem skip (h : i.Reads file size) : i.Carries file size [] i.skip :=
  ⟨h.reaches_skip, fun _ hn => absurd hn not_mem_nil⟩

theorem of_skip (hi : i.Reads file size) (h : i.skip.Carries file size ns r) :
    i.Carries file size ns r :=
  (skip hi).trans h

/-- A node that is the next token. -/
theorem leaf (hi : i.Reads file size) {l : Lexeme} (hnext : i.lexemes.head? = some l) {n : Node}
    (haccepted : n.Accepted) (hspan : n.span = i.here) (hchildren : n.children = []) :
    i.Carries file size [n] i.skip := by
  refine ⟨hi.reaches_skip, fun n' hn' => ?_⟩
  cases mem_singleton.mp hn'
  obtain ⟨hfile, hle, -⟩ := hi.here_within
  refine .intro ?_ haccepted (by simp [hchildren]) (by simp [hchildren])
  rw [hspan]
  exact ⟨hfile, Nat.le_refl _, hle, Nat.le_of_eq (last_skip hnext).symm⟩

/-- A node that spans from the next token of `i` to the last token read covers all that was read
behind that token. -/
theorem node (hi : i.Reads file size) {l : Lexeme} (hnext : i.lexemes.head? = some l)
    (h : i.skip.Carries file size ns r) {n : Node} (haccepted : n.Accepted)
    (hspan : n.span = ⟨r.file, i.here.start, max r.last i.here.stop⟩)
    (hchildren : ∀ c ∈ n.children, c ∈ ns) : i.Carries file size [n] r := by
  have hbehind := of_skip hi h
  have hfile := h.reaches.reads.file_eq
  have hstop : i.here.stop ≤ r.last := by
    rw [← last_skip hnext]
    exact h.reaches.last
  rw [hfile, Nat.max_eq_left hstop] at hspan
  refine ⟨hbehind.reaches, fun n' hn' => ?_⟩
  cases mem_singleton.mp hn'
  refine .intro ?_ haccepted (fun c hc => ?_) fun c hc => hbehind.placed c (hchildren c hc)
  · rw [hspan]
    exact ⟨rfl, Nat.le_refl _, Nat.le_trans hi.here_within.2.1 hstop, Nat.le_refl _⟩
  · obtain ⟨hfile, hstart, -, hstop⟩ := (hbehind.placed c (hchildren c hc)).span
    rw [hspan]
    exact ⟨hfile.symm, hstart, hstop⟩

end Carries

end Input

end DataMarks.Surface
