/-
  Source ranges are valid everywhere.

  A file number names the text that is read under it, and the number of a module of the
  library names the text of that module (`Names`). A file has nodes, each within the text of
  the file and around its children; all that a parse error marks lies within the text that
  is read; and all that a compile error marks lies within the text that its file number names,
  also where the error arises in a function of the library that is being expanded
  (`Surface.File.ranges_valid`).
-/
import DataMarks.Proofs.ExpansionDepth
import DataMarks.Proofs.PlacedErrors

namespace DataMarks

open List

open Surface (Node)

/-- The file number names the text, where `source` is read under the number `id`. Only the number
of a module of the library can name two texts, and only if `id` is this number too. -/
def Names (id : Nat) (source : String) (file : Nat) (text : String) : Prop :=
  file = id ∧ text = source ∨ ∃ name, Library.sources[file]? = some (name, text)

/-- The span lies within a text that its file number names. -/
def Span.Valid (id : Nat) (source : String) (s : Span) : Prop :=
  ∃ text, Names id source s.file text ∧ s.start ≤ s.stop ∧ s.stop ≤ text.utf8ByteSize

theorem Names.valid {id file : Nat} {source text : String} (h : Names id source file text)
    {s : Span} (hs : s.Within file text.utf8ByteSize) : s.Valid id source := by
  obtain ⟨rfl, hrange⟩ := hs
  exact ⟨text, h, hrange⟩

theorem libraryPlaced (id : Nat) (source : String) :
    Compile.LibraryPlaced (Span.Valid id source) := by
  intro m hm f hf
  obtain ⟨⟨⟨name, text⟩, file⟩, hsource, rfl⟩ := mem_map.mp hm
  have hnames : Names id source file text := .inr ⟨name, mk_mem_zipIdx_iff_getElem?.mp hsource⟩
  change f ∈ (Library.read file name text).functions at hf
  unfold Library.read at hf
  dsimp only at hf
  split at hf
  · rename_i parsed hparse
    have hmem : Node.function f ∈ parsed.nodes :=
      mem_map.mpr ⟨_, Surface.File.mem_functions_iff.mp hf, rfl⟩
    exact (Surface.File.placed_of_parse hparse _ hmem).mono fun _ hs => hnames.valid hs
  · cases hf

namespace Surface.File

/-- The nodes of a file: those of its blocks, and all below these. -/
inductive HasNode (file : File) : Node → Prop
  | block {n : Node} (h : n ∈ file.nodes) : HasNode file n
  | child {n c : Node} (h : HasNode file n) (hc : c ∈ n.children) : HasNode file c

theorem HasNode.placed {file : File} {P : Span → Prop} (hfile : ∀ n ∈ file.nodes, n.Placed P)
    {n : Node} (h : file.HasNode n) : n.Placed P := by
  induction h with
  | block h => exact hfile _ h
  | child _ hc ih => exact ih.child hc

/-- Source ranges are valid everywhere. Every node of a file that is read lies within the text and
covers its children; what an error marks for which a text is not read lies within the text; and
what an error marks for which a file is not compiled lies within the text that its number names. -/
theorem ranges_valid (id : Nat) (source : String) :
    (∀ file, File.parse id source = .ok file →
      (∀ n, file.HasNode n → n.span.Within id source.utf8ByteSize ∧
        ∀ c ∈ n.children, n.span.Covers c.span) ∧
      ∀ e, file.compile = .error e → ∀ l ∈ e.labels, l.span.Valid id source) ∧
    ∀ e, File.parse id source = .error e ∨ Expr.parse id source = .error e →
      ∀ l ∈ e.labels, l.span.Within id source.utf8ByteSize := by
  constructor
  · intro file hparse
    have hplaced := placed_of_parse hparse
    refine ⟨fun n hn => ⟨(hn.placed hplaced).span, (hn.placed hplaced).covers⟩, fun e herror => ?_⟩
    refine marks_of_compile (libraryPlaced id source) (fun n hn => ?_) herror
    have hnames : Names id source id source := .inl ⟨rfl, rfl⟩
    exact (hplaced n hn).mono fun _ hs => hnames.valid hs
  · rintro e (hparse | hparse)
    · exact within_of_parse hparse
    · exact Expr.within_of_parse hparse

/-- A mark that emits a number as a position, and calls one that emits a vector. -/
def misplaced : String := "
mark Dot(p: Vector2) {
    emit [{ position: p }];
}

mark Shifted() {
    emit [{ position: 1.0 }];
    Dot([0, 0]);
}
"

/-- A text that ends inside a comment inside a comment. -/
def unclosed : String := "mark /* a /* b"

theorem refused_misplaced :
    (refused? 2 misplaced.utf8ByteSize misplaced.toList).map (fun r => r.2.labels.map Label.span) =
      some [⟨2, 36, 44⟩, ⟨2, 84, 92⟩] := by
  rw [misplaced, String.toList_ofList]
  decide +kernel

theorem parse_unclosed : File.parse 2 unclosed =
    .error (.lexical (.unclosedComment ⟨2, 5, 7⟩ [⟨2, 10, 12⟩])) := by
  rw [File.parse_eq, unclosed, String.toList_ofList]
  rfl

theorem ranges_valid_misplaced :
    (∃ file e, File.parse 2 misplaced = .ok file ∧ file.compile = .error e ∧
      e.labels.map Label.span = [⟨2, 36, 44⟩, ⟨2, 84, 92⟩] ∧
      ∀ l ∈ e.labels, l.span.Valid 2 misplaced) ∧
    ∃ e, File.parse 2 unclosed = .error e ∧ e.labels.map Label.span = [⟨2, 5, 7⟩, ⟨2, 10, 12⟩] ∧
      ∀ l ∈ e.labels, l.span.Within 2 unclosed.utf8ByteSize := by
  constructor
  · obtain ⟨⟨file, e⟩, hrefused, hspans⟩ := Option.map_eq_some_iff.mp refused_misplaced
    obtain ⟨hparse, herror⟩ := of_refused? hrefused
    exact ⟨file, e, hparse, herror, hspans, ((ranges_valid 2 misplaced).1 file hparse).2 e herror⟩
  · exact ⟨_, parse_unclosed, rfl, (ranges_valid 2 unclosed).2 _ (.inl parse_unclosed)⟩

end Surface.File

end DataMarks
