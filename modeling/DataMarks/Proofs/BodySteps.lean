/-
  The small steps that a body is compiled by.

  However calls are expanded, a body goes through the same small steps. `Parallel P expand
  expand' new x y` says that `x` and `y` are put together from them in the same way, `x` with
  calls expanded by `expand` and `y` with calls expanded by `expand'`. The places that they can
  complain about satisfy `P`, and `new` are the names that they declare in the current frame.

  Expressions, statements and bodies are walked here and once (`parallel_stmts`,
  `parallel_body`). What holds of each small step and is kept where two follow each other holds
  of them by induction on `Parallel`.
-/
import DataMarks.Compilation.Body
import DataMarks.Proofs.SyntaxNodes

namespace DataMarks

open List

/-- The names that a statement declares in the frame it stands in. -/
def Surface.Stmt.declares : Surface.Stmt → List String
  | declare _ x _ _ => [x]
  | _ => []

namespace Compile

open Surface (Node)

section Parallel

variable (P : Span → Prop) (expand expand' : Expander)

/-- The same small steps on both sides, but for how calls are expanded. -/
inductive Parallel : List String → {α : Type} → Compile α → Compile α → Prop
  | pure {new} {α : Type} (a : α) : Parallel new (Pure.pure a) (Pure.pure a)
  | fail {new} {α : Type} {e : CompileError} {span : Span}
      (hlabels : e.labels.map Label.span = [span]) (h : P span) :
      Parallel new (Compile.fail e : Compile α) (Compile.fail e)
  | bind {new} {α β : Type} {x y : Compile α} {f g : α → Compile β} (hx : Parallel new x y)
      (hf : ∀ a, Parallel new (f a) (g a)) : Parallel new (x >>= f) (y >>= g)
  | mono {new new'} {α : Type} {x y : Compile α} (h : Parallel new x y) (hnew : new ⊆ new') :
      Parallel new' x y
  | write {new} (st : Stmt) : Parallel new (Compile.write st) (Compile.write st)
  | capture {new} {x y : Compile Unit} (h : Parallel new x y) :
      Parallel new (Compile.capture x) (Compile.capture y)
  | inFrame {new new'} {α : Type} {x y : Compile α} (h : Parallel new x y)
      (formals : Dictionary String) :
      Parallel new' (Compile.inFrame formals x) (Compile.inFrame formals y)
  | valueType? {new} {t : Option Surface.TypeName} (h : ∀ u ∈ t, P u.span) :
      Parallel new (Compile.valueType? t) (Compile.valueType? t)
  | declare {new} {span : Span} {x : String} (h : P span) (hx : x ∈ new) (t : ValueType) :
      Parallel new (Compile.declare span x t) (Compile.declare span x t)
  | variable_ {new} {span : Span} (h : P span) (x : String) :
      Parallel new (Compile.variable_ span x) (Compile.variable_ span x)
  | coerce {new} {span : Span} (h : P span) (e : Expr) (t : ValueType) :
      Parallel new (Compile.coerce span e t) (Compile.coerce span e t)
  | access {new} {span : Span} (h : P span) (e : Expr) (f : String) :
      Parallel new (lift (e.access span f)) (lift (e.access span f))
  | recordOutput {new} {span : Span} (h : P span) (x : String) (t : ValueType) :
      Parallel new (Compile.recordOutput span x t) (Compile.recordOutput span x t)
  | call {new} {span : Span} (h : P span) (name : String) (args : Arguments) :
      Parallel new (Compile.call expand span name args) (Compile.call expand' span name args)

end Parallel

variable {P : Span → Prop} {expand expand' : Expander} {new : List String}

theorem Parallel.quiet {α : Type} {x y : Compile α} (h : Parallel P expand expand' [] x y) :
    Parallel P expand expand' new x y :=
  h.mono (nil_subset new)

/-! ## Expressions -/

theorem parallel_callValue {span : Span} (h : P span) (name : String) (args : Arguments) :
    Parallel P expand expand' new (callValue expand span name args)
      (callValue expand' span name args) := by
  refine (Parallel.call h name args).bind fun value => ?_
  cases value with
  | none => exact .fail rfl h
  | some e => exact .pure e

mutual

theorem parallel_expr : ∀ e : Surface.Expr, (Node.expr e).Located P →
    Parallel P expand expand' [] (expr expand e) (expr expand' e)
  | .literal .., _ => by
    rw [expr, expr]
    exact .pure _
  | .name span x, h => by
    rw [expr, expr]
    cases Catalog.constant? x with
    | some c => exact .pure _
    | none => exact (Parallel.variable_ h.span x).bind fun _ => .pure _
  | .field span base f, h => by
    rw [expr, expr]
    exact (parallel_expr base (h.child mem_cons_self)).bind fun e => .access h.span e f
  | .call span name args keywords, h => by
    rw [expr, expr]
    refine (parallel_exprs args fun e he => h.child ?_).bind fun _ => ?_
    · exact mem_append_left _ (mem_map_of_mem he)
    refine (parallel_keywordExprs keywords fun k hk => h.child ?_).bind fun _ => ?_
    · exact mem_append_right _ (mem_map_of_mem hk)
    exact parallel_callValue h.span name _
  | .unary span op arg, h => by
    rw [expr, expr]
    refine (parallel_expr arg (h.child mem_cons_self)).bind fun _ => ?_
    exact parallel_callValue h.span _ _
  | .binary span op lhs rhs, h => by
    rw [expr, expr]
    refine (parallel_expr lhs (h.child mem_cons_self)).bind fun _ => ?_
    refine (parallel_expr rhs (h.child (mem_cons_of_mem _ mem_cons_self))).bind fun _ => ?_
    exact parallel_callValue h.span _ _

theorem parallel_exprs : ∀ es : List Surface.Expr, (∀ e ∈ es, (Node.expr e).Located P) →
    Parallel P expand expand' [] (exprs expand es) (exprs expand' es)
  | [], _ => by
    rw [exprs, exprs]
    exact .pure _
  | e :: es, h => by
    obtain ⟨he, hes⟩ := forall_mem_cons.mp h
    rw [exprs, exprs]
    exact (parallel_expr e he).bind fun _ => (parallel_exprs es hes).bind fun _ => .pure _

theorem parallel_keywordExprs : ∀ ks : List (String × Surface.Expr),
    (∀ k ∈ ks, (Node.expr k.2).Located P) →
    Parallel P expand expand' [] (keywordExprs expand ks) (keywordExprs expand' ks)
  | [], _ => by
    rw [keywordExprs, keywordExprs]
    exact .pure _
  | (k, e) :: ks, h => by
    obtain ⟨he, hks⟩ := forall_mem_cons.mp h
    rw [keywordExprs, keywordExprs]
    exact (parallel_expr e he).bind fun _ => (parallel_keywordExprs ks hks).bind fun _ => .pure _

end

/-! ## Statements -/

theorem parallel_attributes {as : List Surface.Attribute}
    (h : ∀ a ∈ as, ∀ n ∈ a.nodes, n.Located P) (done : Dictionary Expr) :
    Parallel P expand expand' [] (attributes expand as done) (attributes expand' as done) := by
  induction as generalizing done with
  | nil => exact .pure _
  | cons a as ih =>
    obtain ⟨ha, has⟩ := forall_mem_cons.mp h
    have hmark := ha _ mem_cons_self
    have hvalue := ha _ (mem_cons_of_mem _ mem_cons_self)
    refine (parallel_expr a.value hvalue).bind fun e => ?_
    exact (Parallel.recordOutput hmark.span a.name e.type).bind fun _ => ih has _

theorem parallel_vertices {vs : List (List Surface.Attribute)}
    (h : ∀ v ∈ vs, ∀ a ∈ v, ∀ n ∈ a.nodes, n.Located P) :
    Parallel P expand expand' [] (vertices expand vs) (vertices expand' vs) := by
  induction vs with
  | nil => exact .pure _
  | cons v vs ih =>
    obtain ⟨hv, hvs⟩ := forall_mem_cons.mp h
    exact (parallel_attributes hv []).bind fun _ => (Parallel.write _).bind fun _ => ih hvs

theorem parallel_declaration {span : Span} {x : String} {type : Option Surface.TypeName}
    {init : Option Surface.Expr} (h : (Node.stmt (.declare span x type init)).Located P) :
    Parallel P expand expand' [x] (declaration expand span x type init)
      (declaration expand' span x type init) := by
  have htype : ∀ t ∈ type, P t.span := fun t ht =>
    (h.child (c := .typeName t) (by simp_all [Node.children])).span
  refine (Parallel.valueType? htype).bind fun t => ?_
  cases init with
  | none =>
    cases t with
    | none => exact .fail rfl h.span
    | some t => exact (Parallel.declare h.span mem_cons_self t).bind fun _ => .pure _
  | some init =>
    have hinit : (Node.expr init).Located P := h.child (by simp [Node.children])
    refine (parallel_expr init hinit).quiet.bind fun e => ?_
    refine (Parallel.declare h.span mem_cons_self _).bind fun _ => ?_
    exact (Parallel.coerce hinit.span e _).bind fun _ => .write _

theorem parallel_condition {test : Surface.Expr} (h : (Node.expr test).Located P)
    {thenStep elseStep thenStep' elseStep' : Compile Unit}
    (hthen : Parallel P expand expand' [] thenStep thenStep')
    (helse : Parallel P expand expand' [] elseStep elseStep') :
    Parallel P expand expand' [] (condition expand test thenStep elseStep)
      (condition expand' test thenStep' elseStep') := by
  refine (parallel_expr test h).bind fun e => (Parallel.coerce h.span e .bool).bind fun _ => ?_
  exact hthen.capture.bind fun _ => helse.capture.bind fun _ => .write _

mutual

theorem parallel_stmt : ∀ st : Surface.Stmt, (Node.stmt st).Located P →
    Parallel P expand expand' st.declares (stmt expand st) (stmt expand' st)
  | .expr e, h => by
    have he : (Node.expr e).Located P := h.child mem_cons_self
    cases e with
    | call span name args keywords =>
      rw [stmt, stmt]
      refine (parallel_exprs args fun e h => he.child ?_).bind fun _ => ?_
      · exact mem_append_left _ (mem_map_of_mem h)
      refine (parallel_keywordExprs keywords fun k h => he.child ?_).bind fun _ => ?_
      · exact mem_append_right _ (mem_map_of_mem h)
      exact (Parallel.call he.span name _).bind fun _ => .pure _
    | _ =>
      rw [stmt, stmt]
      · exact (parallel_expr _ he).bind fun _ => .pure _
      all_goals simp
  | .declare .., h => by
    rw [stmt, stmt]
    exact parallel_declaration h
  | .assign span x value, h => by
    rw [stmt, stmt]
    refine (parallel_expr value (h.child mem_cons_self)).bind fun e => ?_
    refine (Parallel.variable_ h.span x).bind fun v => ?_
    exact (Parallel.coerce h.span e v.type).bind fun _ => .write _
  | .return_ .., h => by
    rw [stmt, stmt]
    exact .fail rfl h.span
  | .discard _, _ => by
    rw [stmt, stmt]
    exact .write _
  | .emit _ vs, h => by
    rw [stmt, stmt]
    refine parallel_vertices fun v hv a ha n hn => h.child ?_
    exact mem_flatMap.mpr ⟨v, hv, mem_flatMap.mpr ⟨a, ha, hn⟩⟩
  | .loop span x first last body, h => by
    rw [stmt, stmt]
    have hbody := (parallel_stmt body (h.child mem_cons_self)).mono (subset_cons_self x _)
    exact Parallel.bind (.inFrame ((Parallel.declare h.span mem_cons_self .int).bind fun _ =>
      hbody.capture.bind fun _ => .pure _) _) fun _ => .write _
  | .branch _ test body rest, h => by
    rw [stmt, stmt]
    have hbody := h.child (c := .stmt body) (mem_cons_of_mem _ mem_cons_self)
    refine parallel_condition (h.child mem_cons_self) ((parallel_stmt body hbody).inFrame _)
      (parallel_alternatives rest fun n hn => h.child ?_)
    exact mem_cons_of_mem _ (mem_cons_of_mem _ hn)
  | .block _ body, h => by
    rw [stmt, stmt]
    exact (parallel_stmts body fun s hs => h.child (mem_map_of_mem hs)).inFrame _

theorem parallel_alternatives : ∀ rest : Surface.Alternatives, (∀ n ∈ rest.nodes, n.Located P) →
    Parallel P expand expand' [] (alternatives expand rest) (alternatives expand' rest)
  | .none, _ => by
    rw [alternatives, alternatives]
    exact .pure _
  | .otherwise body, h => by
    rw [alternatives, alternatives]
    exact (parallel_stmt body (h _ mem_cons_self)).inFrame _
  | .elseIf test body rest, h => by
    rw [alternatives, alternatives]
    obtain ⟨htest, hrest⟩ := forall_mem_cons.mp h
    obtain ⟨hbody, hrest⟩ := forall_mem_cons.mp hrest
    exact parallel_condition htest ((parallel_stmt body hbody).inFrame _)
      (parallel_alternatives rest hrest)

theorem parallel_stmts : ∀ ss : List Surface.Stmt, (∀ s ∈ ss, (Node.stmt s).Located P) →
    Parallel P expand expand' (ss.flatMap Surface.Stmt.declares) (stmts expand ss)
      (stmts expand' ss)
  | [], _ => by
    rw [stmts, stmts]
    exact .pure _
  | s :: ss, h => by
    obtain ⟨hs, hss⟩ := forall_mem_cons.mp h
    rw [stmts, stmts, flatMap_cons]
    exact ((parallel_stmt s hs).mono (subset_append_left _ _)).bind fun _ =>
      (parallel_stmts ss hss).mono (subset_append_right _ _)

end

theorem parallel_body {ss : List Surface.Stmt} (h : ∀ s ∈ ss, (Node.stmt s).Located P) :
    Parallel P expand expand' (ss.flatMap Surface.Stmt.declares) (body expand ss)
      (body expand' ss) := by
  induction ss with
  | nil => exact .pure _
  | cons s ss ih =>
    obtain ⟨hs, hss⟩ := forall_mem_cons.mp h
    have hstmt : Parallel P expand expand' ((s :: ss).flatMap Surface.Stmt.declares)
        (stmt expand s >>= fun _ => body expand ss)
        (stmt expand' s >>= fun _ => body expand' ss) :=
      ((parallel_stmt s hs).mono (subset_append_left _ _)).bind fun _ =>
        (ih hss).mono (subset_append_right _ _)
    cases s with
    | return_ span e =>
      exact (parallel_expr e (hs.child mem_cons_self)).quiet.bind fun _ => .pure _
    | _ => exact hstmt

end Compile

end DataMarks
