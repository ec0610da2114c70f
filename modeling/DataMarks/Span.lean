/-
  Positions in source texts. A span names a file by its number and a stretch of
  it by byte offsets; the end is exclusive.
-/

namespace DataMarks

/-- The bytes `start ..< stop` of the file numbered `file`. -/
structure Span where
  file : Nat
  start : Nat
  stop : Nat
deriving DecidableEq, Repr, Inhabited

namespace Span

/-- The least span that covers both, in the file of the first. -/
def merge (a b : Span) : Span :=
  { file := a.file, start := min a.start b.start, stop := max a.stop b.stop }

/-- The text a span is shown as in messages for developers. -/
def describe (s : Span) : String :=
  s!"ByteRange({s.file}, {s.start}..{s.stop})"

/-- Whether `inner` lies inside `outer`, in the same file. -/
def Covers (outer inner : Span) : Prop :=
  outer.file = inner.file ∧ outer.start ≤ inner.start ∧ inner.stop ≤ outer.stop

instance (outer inner : Span) : Decidable (outer.Covers inner) :=
  inferInstanceAs (Decidable (_ ∧ _ ∧ _))

theorem covers_refl (s : Span) : s.Covers s := ⟨rfl, Nat.le_refl _, Nat.le_refl _⟩

theorem merge_covers_left (a b : Span) : (a.merge b).Covers a :=
  ⟨rfl, Nat.min_le_left _ _, Nat.le_max_left _ _⟩

theorem merge_covers_right {a b : Span} (h : a.file = b.file) : (a.merge b).Covers b :=
  ⟨h, Nat.min_le_right _ _, Nat.le_max_right _ _⟩

end Span

end DataMarks
