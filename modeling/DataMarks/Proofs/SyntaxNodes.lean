/-
  The nodes of a file.

  `Node` is whatever of a file knows its place, with its children; `Node.Placed P` says that
  the spans of a node and of all nodes below it satisfy `P`, that each of these covers the
  spans of its children, and that no literal has a value that its type refuses. Where the spans
  alone matter, `Node.Located P` is enough; where the literals do, `Node.WellFormed` is.
-/
import DataMarks.Surface
import Mathlib.Logic.Relation

namespace DataMarks.Surface

open List

/-- Whatever of a file knows its place. -/
inductive Node
  /-- The name of an attribute or of an imported function, or a sign in front of an operand: a
  place and nothing below it. -/
  | mark (span : Span)
  | typeName (t : TypeName)
  | expr (e : Expr)
  | stmt (s : Stmt)
  | param (p : Param)
  | function (f : Function)
  | global (g : Global)
  | import_ (i : Import)

/-- The name of an attribute and its value are beside each other. -/
def Attribute.nodes (a : Attribute) : List Node := [.mark a.span, .expr a.value]

def Alternatives.nodes : Alternatives → List Node
  | .none => []
  | .otherwise body => [.stmt body]
  | .elseIf test body rest => .expr test :: .stmt body :: rest.nodes

def Block.node : Block → Node
  | .function f => .function f
  | .global g => .global g
  | .import_ i => .import_ i

def File.nodes (f : File) : List Node := f.blocks.map Block.node

theorem File.mem_functions_iff {file : File} {f : Function} :
    f ∈ file.functions ↔ .function f ∈ file.blocks := by
  rw [File.functions, mem_filterMap]
  refine ⟨fun h => ?_, fun h => ⟨_, h, rfl⟩⟩
  obtain ⟨b, hb, heq⟩ := h
  cases b with
  | function g =>
    cases heq
    exact hb
  | global g => cases heq
  | import_ i => cases heq

namespace Node

def span : Node → Span
  | mark s => s
  | typeName t => t.span
  | expr e => e.span
  | stmt s => s.span
  | param p => p.span
  | function f => f.span
  | global g => g.span
  | import_ i => i.span

def children : Node → List Node
  | mark _ | typeName _ => []
  | expr (.literal ..) | expr (.name ..) => []
  | expr (.field _ base _) => [expr base]
  | expr (.call _ _ args keywords) => args.map expr ++ keywords.map fun k => expr k.2
  | expr (.unary _ _ arg) => [expr arg]
  | expr (.binary _ _ lhs rhs) => [expr lhs, expr rhs]
  | stmt (.expr e) => [expr e]
  | stmt (.declare _ _ type init) => type.toList.map typeName ++ init.toList.map expr
  | stmt (.assign _ _ value) | stmt (.return_ _ value) => [expr value]
  | stmt (.discard _) => []
  | stmt (.emit _ vertices) => vertices.flatMap fun v => v.flatMap Attribute.nodes
  | stmt (.loop _ _ _ _ body) => [stmt body]
  | stmt (.branch _ test body rest) => expr test :: stmt body :: rest.nodes
  | stmt (.block _ body) => body.map stmt
  | param p => [typeName p.type]
  | function f => f.params.map param ++ f.returns.toList.map typeName ++ f.body.map stmt
  | global g => [typeName g.type]
  | import_ i => (i.names.getD []).map fun n => mark n.1

/-- A literal has a value of its type. -/
def Accepted : Node → Prop
  | expr (.literal _ t v) => t.accepts v = true
  | _ => True

/-- The spans of a node and of all nodes below it satisfy `P`, each of these nodes covers the spans
of its children, and each literal among them has a value of its type. -/
inductive Placed (P : Span → Prop) : Node → Prop
  | intro {n : Node} (span : P n.span) (accepted : n.Accepted)
      (covers : ∀ c ∈ n.children, n.span.Covers c.span)
      (below : ∀ c ∈ n.children, Placed P c) : Placed P n

/-- The spans of a node and of all nodes below it satisfy `P`. -/
def Located (P : Span → Prop) (n : Node) : Prop :=
  ∀ c, Relation.ReflTransGen (fun n c => c ∈ n.children) n c → P c.span

section Places

variable {P Q : Span → Prop} {n c : Node}

namespace Placed

theorem span (h : n.Placed P) : P n.span := by
  cases h with
  | intro hspan _ _ _ => exact hspan

theorem covers (h : n.Placed P) : ∀ c ∈ n.children, n.span.Covers c.span := by
  cases h with
  | intro _ _ hcovers _ => exact hcovers

theorem child (h : n.Placed P) (hc : c ∈ n.children) : c.Placed P := by
  cases h with
  | intro _ _ _ hbelow => exact hbelow c hc

theorem mono (hPQ : ∀ s, P s → Q s) (h : n.Placed P) : n.Placed Q := by
  induction h with
  | intro hspan haccepted hcovers _ ih => exact .intro (hPQ _ hspan) haccepted hcovers ih

end Placed

theorem Located.span (h : n.Located P) : P n.span := h n .refl

theorem Located.child (h : n.Located P) (hc : c ∈ n.children) : c.Located P :=
  fun d hd => h d (.head hc hd)

theorem Placed.located (h : n.Placed P) : n.Located P := by
  intro c hc
  induction hc using Relation.ReflTransGen.head_induction_on with
  | refl => exact h.span
  | head hc _ ih => exact ih (h.child hc)

theorem located_true (n : Node) : n.Located fun _ => True := fun _ _ => trivial

end Places

end Node

/-! ## Well-formed syntax -/

namespace Expr

mutual

/-- Every literal has a value of its type. -/
def WellFormed : Expr → Prop
  | literal _ t v => t.accepts v = true
  | name .. => True
  | field _ base _ => base.WellFormed
  | call _ _ args keywords => WellFormedAll args ∧ WellFormedKeywords keywords
  | unary _ _ arg => arg.WellFormed
  | binary _ _ lhs rhs => lhs.WellFormed ∧ rhs.WellFormed

def WellFormedAll : List Expr → Prop
  | [] => True
  | e :: es => e.WellFormed ∧ WellFormedAll es

def WellFormedKeywords : List (String × Expr) → Prop
  | [] => True
  | (_, e) :: es => e.WellFormed ∧ WellFormedKeywords es

end

theorem wellFormedAll_iff (es : List Expr) : WellFormedAll es ↔ ∀ e ∈ es, e.WellFormed := by
  induction es with
  | nil => simp [WellFormedAll]
  | cons e es ih => simp [WellFormedAll, ih]

theorem wellFormedKeywords_iff (es : List (String × Expr)) :
    WellFormedKeywords es ↔ ∀ e ∈ es, e.2.WellFormed := by
  induction es with
  | nil => simp [WellFormedKeywords]
  | cons e es ih => simp [WellFormedKeywords, ih]

end Expr

mutual

def Stmt.WellFormed : Stmt → Prop
  | .expr e => e.WellFormed
  | .declare _ _ _ init => ∀ e ∈ init, e.WellFormed
  | .assign _ _ value => value.WellFormed
  | .return_ _ value => value.WellFormed
  | .discard _ => True
  | .emit _ vertices => ∀ attributes ∈ vertices, ∀ a ∈ attributes, a.value.WellFormed
  | .loop _ _ _ _ body => body.WellFormed
  | .branch _ test body rest => test.WellFormed ∧ body.WellFormed ∧ rest.WellFormed
  | .block _ body => Stmt.WellFormedAll body

def Alternatives.WellFormed : Alternatives → Prop
  | .none => True
  | .otherwise body => body.WellFormed
  | .elseIf test body rest => test.WellFormed ∧ body.WellFormed ∧ rest.WellFormed

def Stmt.WellFormedAll : List Stmt → Prop
  | [] => True
  | s :: ss => s.WellFormed ∧ Stmt.WellFormedAll ss

end

theorem Stmt.wellFormedAll_iff (ss : List Stmt) :
    Stmt.WellFormedAll ss ↔ ∀ s ∈ ss, s.WellFormed := by
  induction ss with
  | nil => simp [Stmt.WellFormedAll]
  | cons s ss ih => simp [Stmt.WellFormedAll, ih]

def Function.WellFormed (f : Function) : Prop := Stmt.WellFormedAll f.body

/-- A default of a parameter has the type of the parameter, if there is such a type. -/
def Param.Fits (p : Param) : Prop :=
  ∀ t ∈ ValueType.ofName? p.type.name, ∀ v ∈ p.default, t.accepts v = true

instance (p : Param) : Decidable p.Fits :=
  inferInstanceAs (Decidable (∀ t ∈ ValueType.ofName? p.type.name, ∀ v ∈ p.default, _))

namespace Node

/-- The literals of a node and of all nodes below it have values of their types. -/
def WellFormed : Node → Prop
  | expr e => e.WellFormed
  | stmt s => s.WellFormed
  | function f => f.WellFormed
  | _ => True

theorem wellFormed_alternatives : ∀ {rest : Alternatives}, (∀ c ∈ rest.nodes, c.WellFormed) →
    rest.WellFormed
  | .none, _ => trivial
  | .otherwise body, h => h (stmt body) mem_cons_self
  | .elseIf _ _ _, h => by
    simp only [Alternatives.nodes, forall_mem_cons] at h
    exact ⟨h.1, h.2.1, wellFormed_alternatives h.2.2⟩

theorem wellFormed_of_children {n : Node} (hn : n.Accepted)
    (h : ∀ c ∈ n.children, c.WellFormed) : n.WellFormed := by
  cases n with
  | mark _ | typeName _ | param _ | global _ | import_ _ => trivial
  | expr e =>
    cases e with
    | literal | name => exact hn
    | field _ base _ => exact h (expr base) (by simp [children])
    | unary _ _ arg => exact h (expr arg) (by simp [children])
    | binary _ _ lhs rhs =>
      exact ⟨h (expr lhs) (by simp [children]), h (expr rhs) (by simp [children])⟩
    | call _ _ args keywords =>
      refine ⟨(Expr.wellFormedAll_iff _).mpr fun e he => h (expr e) ?_,
        (Expr.wellFormedKeywords_iff _).mpr fun k hk => h (expr k.2) ?_⟩
      · exact mem_append_left _ (mem_map_of_mem he)
      · exact mem_append_right _ (mem_map_of_mem hk)
  | stmt s =>
    cases s with
    | discard => trivial
    | expr e | assign _ _ e | return_ _ e => exact h (expr e) (by simp [children])
    | declare _ _ _ init =>
      exact fun e he => h (expr e) (by simp_all [children])
    | emit _ vertices =>
      intro v hv a ha
      refine h (expr a.value) (mem_flatMap.mpr ⟨v, hv, mem_flatMap.mpr ⟨a, ha, ?_⟩⟩)
      simp [Attribute.nodes]
    | loop _ _ _ _ body => exact h (stmt body) (by simp [children])
    | branch _ test body rest =>
      simp only [children, forall_mem_cons] at h
      exact ⟨h.1, h.2.1, wellFormed_alternatives h.2.2⟩
    | block _ body =>
      exact (Stmt.wellFormedAll_iff _).mpr fun s hs => h (stmt s) (mem_map_of_mem hs)
  | function f =>
    refine (Stmt.wellFormedAll_iff _).mpr fun s hs => h (stmt s) ?_
    exact mem_append_right _ (mem_map_of_mem hs)

theorem Placed.wellFormed {P : Span → Prop} {n : Node} (h : n.Placed P) : n.WellFormed := by
  induction h with
  | intro _ haccepted _ _ ih => exact wellFormed_of_children haccepted ih

end Node

end DataMarks.Surface
