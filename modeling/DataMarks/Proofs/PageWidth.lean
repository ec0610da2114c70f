/-
  The width of the page affects the layout only.

  A document has its ink: the characters of its texts that are not blank, in their order. What
  is written for a line break is blank, in a group that is broken and in one that is not
  (`Document.BlankBreaks`), so however the groups are laid out, a document adds its ink to the
  page and nothing else (`Document.inked_layout`). The documents of specifications and vertices
  have such breaks only, so the width makes no difference but for blanks
  (`inked_render_width`).
-/
import DataMarks.Specification.Printer
import DataMarks.Text.Blank

namespace DataMarks

open List

/-- What is left of a text without its blank characters. -/
def inked (s : String) : List Char := s.toList.filter fun c => !Text.isBlank c

theorem inked_append (s t : String) : inked (s ++ t) = inked s ++ inked t := by
  rw [inked, String.toList_append, filter_append]
  rfl

namespace Document

/-- What a document writes, blank characters aside. -/
def ink : Document → List Char
  | empty | line _ | hardLine => []
  | text s => inked s
  | append a b => a.ink ++ b.ink
  | nest _ d | group d => d.ink

/-- Breaks that are not taken are blank. -/
@[simp] def BlankBreaks : Document → Prop
  | empty | text _ | hardLine => True
  | line s => inked s = []
  | append a b => a.BlankBreaks ∧ b.BlankBreaks
  | nest _ d | group d => d.BlankBreaks

/-! ## Layout -/

theorem inked_write (p : Page) (s : String) : inked (p.write s).text = inked p.text ++ inked s :=
  inked_append p.text s

theorem inked_newLine (p : Page) (indent : Nat) : inked (p.newLine indent).text = inked p.text := by
  have hbreak : inked "\n" = [] := by decide
  have hspaces : inked (String.ofList (List.replicate indent ' ')) = [] := by
    rw [inked, String.toList_ofList, filter_replicate_of_neg (by decide)]
  rw [Page.newLine, inked_append, inked_append, hbreak, hspaces, append_nil, append_nil]

/-- Whatever the width is, and in whatever mode and place, a document adds its ink. -/
theorem inked_layout (width : Nat) {d : Document} (h : d.BlankBreaks) (mode : Mode) (indent : Nat)
    (rest : List Document) (p : Page) :
    inked (layout width mode indent rest d p).text = inked p.text ++ d.ink := by
  induction d generalizing mode indent rest p with
  | empty => exact (append_nil _).symm
  | text s => exact inked_write p s
  | line s =>
    cases mode with
    | flat =>
      rw [layout, inked_write, show inked s = [] from h]
      rfl
    | broken =>
      rw [layout, inked_newLine]
      exact (append_nil _).symm
  | hardLine =>
    rw [layout, inked_newLine]
    exact (append_nil _).symm
  | append a b iha ihb => rw [layout, ihb h.2, iha h.1, ink, append_assoc]
  | nest n d ih => exact ih h mode (indent + n) rest p
  | group d ih =>
    cases mode with
    | flat => exact ih h .flat indent rest p
    | broken => exact ih h _ indent rest p

theorem inked_render {d : Document} (h : d.BlankBreaks) (width : Nat) :
    inked (d.render width) = d.ink := by
  rw [render, inked_layout width h]
  rfl

/-! ## Documents put together -/

variable {a b : Document} {ds : List Document}

@[simp] theorem blankBreaks_append : (a ++ b).BlankBreaks ↔ a.BlankBreaks ∧ b.BlankBreaks := .rfl

@[simp] theorem blankBreaks_space : space.BlankBreaks := by
  show inked " " = []
  decide

@[simp] theorem blankBreaks_softBreak : softBreak.BlankBreaks := by simp [softBreak, inked]

@[simp] theorem blankBreaks_concat : (concat ds).BlankBreaks ↔ ∀ d ∈ ds, d.BlankBreaks := by
  induction ds with
  | nil => simp [concat]
  | cons d ds ih =>
    rw [forall_mem_cons, ← ih]
    exact .rfl

theorem blankBreaks_join (ha : a.BlankBreaks) (h : ∀ d ∈ ds, d.BlankBreaks) :
    (join a ds).BlankBreaks := by
  induction ds with
  | nil => trivial
  | cons d ds ih =>
    rw [forall_mem_cons] at h
    cases ds with
    | nil => exact h.1
    | cons d' ds => exact ⟨h.1, ha, ih h.2⟩

end Document

namespace Printer

open Document

variable {opening gap : Document} {ds : List Document}

theorem blankBreaks_delimited (hopening : opening.BlankBreaks) (hgap : gap.BlankBreaks)
    (hds : ∀ d ∈ ds, d.BlankBreaks) (closing : String) :
    (delimited opening gap ds closing).BlankBreaks := by
  have hitems := blankBreaks_join (a := text "," ++ space) (by simp) hds
  simp [delimited, hopening, hgap, hitems]

theorem blankBreaks_lines (hds : ∀ d ∈ ds, d.BlankBreaks) :
    (block (join hardLine ds)).BlankBreaks := by
  have hbody := blankBreaks_join (a := hardLine) trivial hds
  simp [block, hbody]

mutual

theorem blankBreaks_expr : ∀ e : Expr, (expr e).BlankBreaks
  | .const _ _ | .var _ _ => by simp [expr]
  | .field _ base _ => by simp [expr, blankBreaks_expr base]
  | .call _ _ args => by
    rw [expr]
    exact blankBreaks_delimited (by simp) (by simp) (blankBreaks_exprs args) ")"

theorem blankBreaks_exprs : ∀ es : List Expr, ∀ d ∈ exprs es, d.BlankBreaks
  | [] => by simp [exprs]
  | e :: es => by
    rw [exprs]
    exact forall_mem_cons.mpr ⟨blankBreaks_expr e, blankBreaks_exprs es⟩

end

mutual

theorem blankBreaks_stmt : ∀ s : Stmt, (stmt s).BlankBreaks
  | .assign _ e => by simp [stmt, blankBreaks_expr e]
  | .emit attributes => by
    rw [stmt]
    exact blankBreaks_delimited (by simp) (by simp)
      (forall_mem_map.mpr fun a _ => by simp [blankBreaks_expr a.2]) _
  | .condition test thenBody elseBody => by
    have hthen := blankBreaks_lines (blankBreaks_stmts thenBody)
    have helse := blankBreaks_lines (blankBreaks_stmts elseBody)
    cases elseBody with
    | nil => simp [stmt, blankBreaks_expr test, hthen]
    | cons s ss => simp [stmt, blankBreaks_expr test, hthen, helse]
  | .loop _ _ _ body => by simp [stmt, blankBreaks_lines (blankBreaks_stmts body)]
  | .discard => by simp [stmt]

theorem blankBreaks_stmts : ∀ ss : List Stmt, ∀ d ∈ stmts ss, d.BlankBreaks
  | [] => by simp [stmts]
  | s :: ss => by
    rw [stmts]
    exact forall_mem_cons.mpr ⟨blankBreaks_stmt s, blankBreaks_stmts ss⟩

end

end Printer

open Document Printer

theorem Specification.blankBreaks_document (name : String) (s : Specification) :
    (s.document name).BlankBreaks := by
  unfold Specification.document
  simp only [blankBreaks_concat, forall_mem_cons]
  refine ⟨trivial, trivial, trivial, trivial, blankBreaks_lines ?_, forall_mem_nil _⟩
  simp only [forall_mem_append, forall_mem_map]
  refine ⟨⟨⟨⟨fun i _ => ?_, fun o _ => ?_⟩, fun v _ => ?_⟩, fun r _ => trivial⟩,
    blankBreaks_stmts s.statements⟩
  · cases i.2.default <;> simp [declaration]
  · simp [declaration]
  · simp [declaration]

theorem Vertex.blankBreaks_document (index : Nat) (v : Vertex) :
    (Vertex.document index v).BlankBreaks :=
  blankBreaks_delimited (by simp) (by simp) (forall_mem_map.mpr fun a _ => by simp) _

/-- Printed on pages of two widths, a specification reads the same but for blanks, and so does a
vertex: both are the ink of their document, whatever the width. -/
theorem inked_render_width (width width' : Nat) :
    (∀ (name : String) (s : Specification),
      inked ((s.document name).render width) = inked ((s.document name).render width') ∧
      inked ((s.document name).render width) = (s.document name).ink) ∧
    ∀ (index : Nat) (v : Vertex),
      inked ((Vertex.document index v).render width) =
        inked ((Vertex.document index v).render width') ∧
      inked ((Vertex.document index v).render width) = (Vertex.document index v).ink := by
  constructor
  · intro name s
    have h := s.blankBreaks_document name
    rw [inked_render h, inked_render h]
    exact ⟨rfl, rfl⟩
  · intro index v
    have h := Vertex.blankBreaks_document index v
    rw [inked_render h, inked_render h]
    exact ⟨rfl, rfl⟩

end DataMarks
