/-
  A body compiled in two scopes that mirror each other.

  On the other side there is one more function to call (`Setting.Extends`). A call may come to
  mean that one, and then the other side fails if this function is the outermost one that is
  being expanded; and a name may be forwarded where it is declared. But for this, the other
  side writes the same code up to the forwarding of names, through all calls that are expanded
  (`Compile.expander_track`, `Compile.body_tracks_stmts`).
-/
import DataMarks.Proofs.AddedFunction
import DataMarks.Proofs.ExpansionDepth
import DataMarks.Proofs.MirroredSteps

namespace DataMarks

open List

open Surface (Mention)

/-! ## Settings -/

/-- A mention that has the same meaning with one more function to call, unless `bad`. -/
structure Surface.Mention.Allowed (bad : Prop) (g : Surface.Function) (m : Mention) : Prop where
  plain : m.Plain
  other : bad ∨ m ≠ .function g.name

/-- A function other than the one that was added, and what it mentions. -/
structure Definition.Allowed (bad : Prop) (g : Surface.Function) (d : Definition) : Prop where
  key : d.key ≠ (none, g.name)
  mentions : ∀ m ∈ d.function.mentions, m.Allowed bad g

theorem Definition.allowed_of_library {bad : Prop} {g f : Surface.Function} {m : Module}
    (hm : m ∈ Library.modules) (hf : f ∈ m.functions) (hother : bad ∨ g.name ∉ Library.called) :
    Definition.Allowed bad g ⟨some m.name, f⟩ := by
  refine ⟨by simp [Definition.key], fun mention hmention => ?_⟩
  refine ⟨Library.plain_of_mem hm hf mention hmention, hother.imp id ?_⟩
  rintro hnot rfl
  exact hnot (Library.mentioned_of_mem hm hf _ hmention)

/-- `c'` is the setting `c` with one more function to call, which may be the one being expanded
around all others. -/
structure Setting.Extends (bad : Prop) (g : Surface.Function) (c c' : Setting) : Prop where
  adds : Resolver.Adds ⟨none, g⟩ c.resolver c'.resolver
  loaded : ∀ d ∈ c.resolver.functions, d.Allowed bad g
  library : bad ∨ g.name ∉ Library.called
  stack : ∃ outer, c'.callStack = c.callStack ++ outer ∧ ∀ key ∈ outer, key = (none, g.name)
  caught : bad → (none, g.name) ∈ c'.callStack

variable {d : Definition} {name : String} {args : Arguments}

namespace Setting.Extends

variable {bad : Prop} {g : Surface.Function} {c c' : Setting}

theorem enter (h : c.Extends bad g c') (d : Definition) :
    (c.enter d).Extends bad g (c'.enter d) where
  adds := h.adds.enter d.module
  loaded := h.loaded
  library := h.library
  stack := by
    obtain ⟨outer, houter, hkeys⟩ := h.stack
    exact ⟨outer, by rw [Setting.enter, Setting.enter, houter]; rfl, hkeys⟩
  caught := fun hbad => mem_cons_of_mem _ (h.caught hbad)

theorem allowed (h : c.Extends bad g c') {fit : Fit}
    (hresolve : c.resolver.resolve name args = .ok (.defined d, fit)) : d.Allowed bad g := by
  rcases Resolver.mem_candidates (Resolver.resolve_ok hresolve).1 with
    ⟨i, hi⟩ | ⟨d', hd', -, heq⟩ | ⟨m, hm, f, hf, heq⟩
  · cases hi
  · cases heq
    exact h.loaded d hd'
  · cases heq
    exact Definition.allowed_of_library hm hf h.library

/-- A function that is not being expanded on the one side is not on the other. -/
theorem not_mem_callStack (h : c.Extends bad g c') (hd : d.Allowed bad g)
    (hkey : d.key ∉ c.callStack) : d.key ∉ c'.callStack := by
  obtain ⟨outer, houter, hkeys⟩ := h.stack
  rw [houter, mem_append, not_or]
  exact ⟨hkey, fun hmem => hd.key (hkeys _ hmem)⟩

end Setting.Extends

namespace Compile

/-! ## Bodies -/

/-- Two expanders do the same with calls of all functions but the one that was added. -/
structure Expander.Track (w : Forwarding) (bad : Prop) (g : Surface.Function) (c c' : Setting)
    (expand expand' : Expander) : Prop where
  expands : ∀ {d es es'}, d.Allowed bad g → Forall₂ w.Same es es' → ∀ k span,
    Tracks w bad (w.States c c' k) (Option.Rel w.Same) (expand span d es) (expand' span d es')
  refuses : bad → ∀ span es t, t.setting = c' → ∃ e, (expand' span ⟨none, g⟩ es t).result = .error e

section Bodies

variable {w : Forwarding} {bad : Prop} {g : Surface.Function} {c c' : Setting}
  {expand expand' : Expander} (hc : c.Extends bad g c')
  (hexpand : expand.Track w bad g c c' expand')
variable {k : Nat}
include hc hexpand

theorem call_tracks (span : Span) (hname : (Mention.function name).Allowed bad g)
    {args' : Arguments} (hargs : Overload.Related w.Same args args') :
    Tracks w bad (w.States c c' k) (Option.Rel w.Same) (call expand span name args)
      (call expand' span name args') := by
  intro s t r s' code hst hrun
  have hdefaults : ∀ d ∈ c.resolver.candidates name, Overload.DefaultsRelated w.Same d.formals :=
    fun d _ f _ u _ v _ => .const u v
  have hmeans : ∀ {d fit}, s.resolver.resolve name args = .ok (d, fit) →
      ∃ fit', Overload.Fit.Related w.Same fit fit' ∧
        (t.resolver.resolve name args' = .ok (d, fit') ∨
          g.name = name ∧
            ∃ fit'', t.resolver.resolve name args' = .ok (.defined ⟨none, g⟩, fit'')) := by
    intro d fit hresolve
    rw [hst.resolver.1] at hresolve
    obtain ⟨fit', hresolve', hfit⟩ :=
      Resolver.resolve_related Expr.respects_renamed hdefaults hargs hresolve
    rw [hst.resolver.2]
    exact ⟨fit', hfit, hc.adds.resolve hresolve'⟩
  -- a call that comes to mean the added function is refused
  have hrefused : ∀ {fit}, g.name = name →
      t.resolver.resolve name args' = .ok (.defined ⟨none, g⟩, fit) →
      bad ∧ ∃ e, (call expand' span name args' t).result = .error e := by
    rintro fit rfl hresolve
    have hbad : bad := hname.other.elim id fun hne => absurd rfl hne
    rw [call_of_defined hresolve]
    exact ⟨hbad, hexpand.refuses hbad span fit.args t hst.setting'⟩
  rcases runs_call hrun with ⟨i, fit, hresolve, rfl, rfl, rfl⟩ | ⟨d, fit, hresolve, hrun⟩
  · obtain ⟨fit', hfit, hresolve' | ⟨hg, fit'', hresolve'⟩⟩ := hmeans hresolve
    · have hrun' : Runs (call expand' span name args') t
          (some (.call i.returns i.internalName fit'.args)) t [] := by
        have hstate : state t = ⟨.ok t, t, []⟩ := rfl
        rw [Runs, call, bind_of_ok hstate]
        dsimp only
        rw [hresolve']
        rfl
      exact .of_runs hrun' ⟨.some (.call hfit.args _ _), hst, .nil⟩
    · exact .inr (hrefused hg hresolve')
  · obtain ⟨fit', hfit, hresolve' | ⟨hg, fit'', hresolve'⟩⟩ := hmeans hresolve
    · rw [hst.resolver.1] at hresolve
      refine .congr (call_of_defined hresolve' span) ?_
      exact hexpand.expands (hc.allowed hresolve) hfit.args k span s t r s' code hst hrun
    · exact .inr (hrefused hg hresolve')

theorem callValue_tracks (span : Span) (hname : (Mention.function name).Allowed bad g)
    {args' : Arguments} (hargs : Overload.Related w.Same args args') :
    Tracks w bad (w.States c c' k) w.Same (callValue expand span name args)
      (callValue expand' span name args') := by
  refine (call_tracks hc hexpand span hname hargs).bind fun r r' hr => ?_
  cases hr with
  | none => exact .fail _ _
  | some he => exact .pure he

-- Some members only pass hypotheses on.
set_option linter.unusedSectionVars false in
mutual

theorem expr_tracks {k : Nat} : ∀ {e : Surface.Expr}, (∀ m ∈ e.mentions, m.Allowed bad g) →
    Tracks w bad (w.States c c' k) w.Same (expr expand e) (expr expand' e)
  | .literal _ t v, _ => by
    rw [expr, expr]
    exact .pure (.const t v)
  | .name span x, h => by
    rw [Surface.Expr.mentions, forall_mem_singleton] at h
    rw [expr, expr]
    cases hconstant : Catalog.constant? x with
    | some a => exact .pure (.const a.type a.value)
    | none =>
      refine (variable_tracks span h.plain).bind fun v v' hfound => .pure ?_
      rw [hfound.type, hfound.unique]
      -- a forwarded variable is found by its own name, which is not that of a constant
      refine .var v.type fun hhidden => ?_
      obtain ⟨hmem, hsome⟩ := mem_filter.mp hhidden
      rw [hfound.own hmem, hconstant] at hsome
      cases hsome
  | .field span base f, h => by
    rw [Surface.Expr.mentions] at h
    rw [expr, expr]
    exact (expr_tracks h).bind fun e e' he => access_tracks span he f
  | .call span name args keywords, h => by
    rw [Surface.Expr.mentions, forall_mem_cons, forall_mem_append] at h
    rw [expr, expr]
    exact (exprs_tracks h.2.1).bind fun es es' hes =>
      (keywordExprs_tracks h.2.2).bind fun ks ks' hks =>
        callValue_tracks hc hexpand span h.1 ⟨hes, hks⟩
  | .unary span op arg, h => by
    rw [Surface.Expr.mentions, forall_mem_cons] at h
    rw [expr, expr]
    exact (expr_tracks h.2).bind fun e e' he =>
      callValue_tracks hc hexpand span h.1 ⟨.cons he .nil, .nil⟩
  | .binary span op lhs rhs, h => by
    rw [Surface.Expr.mentions, forall_mem_cons, forall_mem_append] at h
    rw [expr, expr]
    exact (expr_tracks h.2.1).bind fun a a' ha => (expr_tracks h.2.2).bind fun b b' hb =>
      callValue_tracks hc hexpand span h.1 ⟨.cons ha (.cons hb .nil), .nil⟩

theorem exprs_tracks {k : Nat} : ∀ {es : List Surface.Expr},
    (∀ m ∈ Surface.Expr.mentionsAll es, m.Allowed bad g) →
    Tracks w bad (w.States c c' k) (Forall₂ w.Same) (exprs expand es) (exprs expand' es)
  | [], _ => by
    rw [exprs, exprs]
    exact .pure .nil
  | e :: es, h => by
    rw [Surface.Expr.mentionsAll, forall_mem_append] at h
    rw [exprs, exprs]
    exact (expr_tracks h.1).bind fun a a' ha => (exprs_tracks h.2).bind fun as as' has =>
      .pure (.cons ha has)

theorem keywordExprs_tracks {k : Nat} : ∀ {es : List (String × Surface.Expr)},
    (∀ m ∈ Surface.Expr.mentionsKeywords es, m.Allowed bad g) →
    Tracks w bad (w.States c c' k) (Forall₂ fun a b => a.1 = b.1 ∧ w.Same a.2 b.2)
      (keywordExprs expand es) (keywordExprs expand' es)
  | [], _ => by
    rw [keywordExprs, keywordExprs]
    exact .pure .nil
  | (key, e) :: es, h => by
    rw [Surface.Expr.mentionsKeywords, forall_mem_append] at h
    rw [keywordExprs, keywordExprs]
    exact (expr_tracks h.1).bind fun a a' ha => (keywordExprs_tracks h.2).bind fun as as' has =>
      .pure (.cons ⟨rfl, ha⟩ has)

end

theorem attributes_tracks {as : List Surface.Attribute}
    (h : ∀ m ∈ as.flatMap fun a => a.value.mentions, m.Allowed bad g) {done done' : Dictionary Expr}
    (hdone : AttributesRenamed w.unique w.hidden done done') :
    Tracks w bad (w.States c c' k) (AttributesRenamed w.unique w.hidden) (attributes expand as done)
      (attributes expand' as done') := by
  induction as generalizing done done' with
  | nil => exact .pure hdone
  | cons a as ih =>
    rw [flatMap_cons, forall_mem_append] at h
    refine (expr_tracks hc hexpand h.1).bind fun e e' he => ?_
    rw [he.type]
    exact (recordOutput_tracks a.span a.name e.type).bind fun _ _ _ =>
      ih h.2 (hdone.insert a.name he)

theorem vertices_tracks {vs : List (List Surface.Attribute)}
    (h : ∀ m ∈ vs.flatMap fun v => v.flatMap fun a => a.value.mentions, m.Allowed bad g) :
    Tracks w bad (w.States c c' k) (fun _ _ => True) (vertices expand vs)
      (vertices expand' vs) := by
  induction vs with
  | nil => exact .pure trivial
  | cons v vs ih =>
    rw [flatMap_cons, forall_mem_append] at h
    exact (attributes_tracks hc hexpand h.1 .nil).bind fun done done' hdone =>
      (Tracks.write hdone.emit).bind fun _ _ _ => ih h.2

theorem declaration_tracks (span : Span) {x : String} (hx : Name.Plain x)
    (hplaced : Placed w bad k [x]) (type : Option Surface.TypeName) {init : Option Surface.Expr}
    (h : ∀ m ∈ init.toList.flatMap Surface.Expr.mentions, m.Allowed bad g) :
    Tracks w bad (w.States c c' k) (fun _ _ => True) (declaration expand span x type init)
      (declaration expand' span x type init) := by
  refine (valueType?_tracks type).bind fun t t' ht => ?_
  subst ht
  cases init with
  | some init =>
    rw [Option.toList_some, flatMap_singleton] at h
    refine (expr_tracks hc hexpand h).bind fun e e' he => ?_
    rw [he.type]
    refine (declare_tracks span hx hplaced _).bind fun y y' hy => ?_
    rw [hy]
    exact (coerce_tracks init.span he _).bind fun a a' ha => .write (.assign y ha)
  | none =>
    cases t with
    | some t => exact (declare_tracks span hx hplaced t).bind fun _ _ _ => .pure trivial
    | none => exact .fail _ _

theorem condition_tracks {test : Surface.Expr} (h : ∀ m ∈ test.mentions, m.Allowed bad g)
    {thenStep elseStep thenStep' elseStep' : Compile Unit} {Q Q' : Unit → Unit → Prop}
    (hthen : Tracks w bad (w.States c c' k) Q thenStep thenStep')
    (helse : Tracks w bad (w.States c c' k) Q' elseStep elseStep') :
    Tracks w bad (w.States c c' k) (fun _ _ => True) (condition expand test thenStep elseStep)
      (condition expand' test thenStep' elseStep') :=
  (expr_tracks hc hexpand h).bind fun _ _ he => (coerce_tracks test.span he .bool).bind
    fun _ _ ha => hthen.capture.bind fun _ _ hthen => helse.capture.bind fun _ _ helse =>
      .write (.condition ha hthen helse)

-- Some members only pass hypotheses on.
set_option linter.unusedSectionVars false in
mutual

theorem stmt_tracks {k : Nat} : ∀ {st : Surface.Stmt}, (∀ m ∈ st.mentions, m.Allowed bad g) →
    Placed w bad k st.declares →
    Tracks w bad (w.States c c' k) (fun _ _ => True) (stmt expand st) (stmt expand' st)
  | .expr e, h, _ => by
    rw [Surface.Stmt.mentions] at h
    cases e with
    | call span name args keywords =>
      rw [Surface.Expr.mentions, forall_mem_cons, forall_mem_append] at h
      rw [stmt, stmt]
      exact (exprs_tracks hc hexpand h.2.1).bind fun es es' hes =>
        (keywordExprs_tracks hc hexpand h.2.2).bind fun ks ks' hks =>
          (call_tracks hc hexpand span h.1 ⟨hes, hks⟩).bind fun _ _ _ => .pure trivial
    | _ =>
      rw [stmt, stmt]
      · exact (expr_tracks hc hexpand h).bind fun _ _ _ => .pure trivial
      all_goals simp
  | .declare span x type init, h, hplaced => by
    rw [Surface.Stmt.mentions, forall_mem_cons] at h
    rw [stmt, stmt]
    exact declaration_tracks hc hexpand span h.1.plain hplaced type h.2
  | .assign span x value, h, _ => by
    rw [Surface.Stmt.mentions, forall_mem_cons] at h
    rw [stmt, stmt]
    refine (expr_tracks hc hexpand h.2).bind fun e e' he =>
      (variable_tracks span h.1.plain).bind fun v v' hfound => ?_
    rw [hfound.type, hfound.unique]
    exact (coerce_tracks span he v.type).bind fun a a' ha => .write (.assign v.unique ha)
  | .return_ span _, _, _ => by
    rw [stmt, stmt]
    exact .fail _ _
  | .discard _, _, _ => by
    rw [stmt, stmt]
    exact .write .discard
  | .emit _ vs, h, _ => by
    rw [Surface.Stmt.mentions] at h
    rw [stmt, stmt]
    exact vertices_tracks hc hexpand h
  | .loop span x first last body, h, _ => by
    rw [Surface.Stmt.mentions, forall_mem_cons] at h
    rw [stmt, stmt]
    have hbody : Tracks w bad (w.States c c' (k + 1)) (fun a b => w.SameCode [a] [b])
        (do
          let x ← declare span x .int
          let body ← capture (stmt expand body)
          return Stmt.loop x first last body)
        (do
          let x ← declare span x .int
          let body ← capture (stmt expand' body)
          return Stmt.loop x first last body) := by
      refine (declare_tracks span h.1.plain (placed_succ _) .int).bind fun y y' hy => ?_
      rw [hy]
      exact (stmt_tracks h.2 (placed_succ _)).capture.bind fun body body' hbody =>
        .pure (.loop y first last hbody)
    exact Tracks.bind hbody.inBlock fun loop loop' hloop => .write hloop
  | .branch _ test body rest, h, _ => by
    rw [Surface.Stmt.mentions, forall_mem_append, forall_mem_append] at h
    rw [stmt, stmt]
    exact condition_tracks hc hexpand h.1 (stmt_tracks h.2.1 (placed_succ _)).inBlock
      (alternatives_tracks h.2.2)
  | .block _ body, h, _ => by
    rw [Surface.Stmt.mentions] at h
    rw [stmt, stmt]
    exact (stmts_tracks h (placed_succ _)).inBlock

theorem alternatives_tracks {k : Nat} : ∀ {rest : Surface.Alternatives},
    (∀ m ∈ rest.mentions, m.Allowed bad g) →
    Tracks w bad (w.States c c' k) (fun _ _ => True) (alternatives expand rest)
      (alternatives expand' rest)
  | .none, _ => by
    rw [alternatives, alternatives]
    exact .pure trivial
  | .otherwise body, h => by
    rw [Surface.Alternatives.mentions] at h
    rw [alternatives, alternatives]
    exact (stmt_tracks h (placed_succ _)).inBlock
  | .elseIf test body rest, h => by
    rw [Surface.Alternatives.mentions, forall_mem_append, forall_mem_append] at h
    rw [alternatives, alternatives]
    exact condition_tracks hc hexpand h.1 (stmt_tracks h.2.1 (placed_succ _)).inBlock
      (alternatives_tracks h.2.2)

theorem stmts_tracks {k : Nat} : ∀ {ss : List Surface.Stmt},
    (∀ m ∈ Surface.Stmt.mentionsAll ss, m.Allowed bad g) →
    Placed w bad k (ss.flatMap Surface.Stmt.declares) →
    Tracks w bad (w.States c c' k) (fun _ _ => True) (stmts expand ss) (stmts expand' ss)
  | [], _, _ => by
    rw [stmts, stmts]
    exact .pure trivial
  | s :: ss, h, hplaced => by
    rw [Surface.Stmt.mentionsAll, forall_mem_append] at h
    rw [stmts, stmts]
    refine (stmt_tracks h.1 fun hk x hx => hplaced hk x ?_).bind fun _ _ _ =>
      stmts_tracks h.2 fun hk x hx => hplaced hk x ?_
    · rw [flatMap_cons]
      exact mem_append_left _ hx
    · rw [flatMap_cons]
      exact mem_append_right _ hx

end

variable {ss : List Surface.Stmt}

theorem body_tracks (h : ∀ m ∈ Surface.Stmt.mentionsAll ss, m.Allowed bad g)
    (hplaced : Placed w bad k (ss.flatMap Surface.Stmt.declares)) :
    Tracks w bad (w.States c c' k) (Option.Rel w.Same) (body expand ss) (body expand' ss) := by
  induction ss with
  | nil => exact .pure .none
  | cons s ss ih =>
    rw [Surface.Stmt.mentionsAll, forall_mem_append] at h
    rw [flatMap_cons] at hplaced
    have hstmt : Tracks w bad (w.States c c' k) (Option.Rel w.Same)
        (stmt expand s >>= fun _ => body expand ss)
        (stmt expand' s >>= fun _ => body expand' ss) :=
      (stmt_tracks hc hexpand h.1 fun hk x hx => hplaced hk x (mem_append_left _ hx)).bind
        fun _ _ _ => ih h.2 fun hk x hx => hplaced hk x (mem_append_right _ hx)
    cases s with
    | return_ span e =>
      rw [Surface.Stmt.mentions] at h
      exact (expr_tracks hc hexpand h.1).bind fun e e' he => .pure (.some he)
    | _ => exact hstmt

/-- The body of a mark, which does not return, is expanded as it is compiled by itself. -/
theorem body_tracks_stmts (h : ∀ m ∈ Surface.Stmt.mentionsAll ss, m.Allowed bad g)
    (hplaced : Placed w bad k (ss.flatMap Surface.Stmt.declares)) :
    Tracks w bad (w.States c c' k) (fun _ r => r = none) (stmts expand ss) (body expand' ss) := by
  induction ss with
  | nil =>
    rw [stmts]
    exact .pure rfl
  | cons s ss ih =>
    rw [Surface.Stmt.mentionsAll, forall_mem_append] at h
    rw [flatMap_cons] at hplaced
    have hstmt : Tracks w bad (w.States c c' k) (fun _ r => r = none)
        (stmt expand s >>= fun _ => stmts expand ss)
        (stmt expand' s >>= fun _ => body expand' ss) :=
      (stmt_tracks hc hexpand h.1 fun hk x hx => hplaced hk x (mem_append_left _ hx)).bind
        fun _ _ _ => ih h.2 fun hk x hx => hplaced hk x (mem_append_right _ hx)
    rw [stmts]
    cases s with
    | return_ span e =>
      rw [stmt]
      intro s t a s' code _ hrun
      obtain ⟨_, _, _, _, hfail, -⟩ := runs_bind_iff.mp hrun
      exact absurd hfail not_runs_fail
    | _ => exact hstmt

end Bodies

/-! ## Expanded calls -/

section Expansion

variable {w : Forwarding} {bad : Prop} {g : Surface.Function} {c c' : Setting}

theorem expandWith_tracks {inner inner' : Expander} (hc : c.Extends bad g c') (hd : d.Allowed bad g)
    (hinner : inner.Track w bad g (c.enter d) (c'.enter d) inner') {es es' : List Expr}
    (hes : Forall₂ w.Same es es') (k : Nat) (span : Span) :
    Tracks w bad (w.States c c' k) (Option.Rel w.Same) (expandWith inner span d es)
      (expandWith inner' span d es') := by
  have hmentions := hd.mentions
  rw [Surface.Function.mentions, forall_mem_append] at hmentions
  have hparams : ∀ p ∈ d.function.params, Name.Plain p.name :=
    fun p hp => (hmentions.1 (.variable p.name) (mem_map_of_mem hp)).plain
  refine (valueType?_tracks d.function.returns).bind fun returns returns' hreturns => ?_
  subst hreturns
  refine (temporaries_tracks hparams hes .nil).bind fun formals formals' hformals => ?_
  have hbody := body_tracks (hc.enter d) hinner hmentions.2 (placed_succ (k := k) _)
  refine (hbody.inBody hformals).bind fun value value' hvalue => ?_
  cases hvalue with
  | none => exact .pure .none
  | some he =>
    cases returns with
    | none => exact .pure (.some he)
    | some t => exact (coerce_tracks span he t).bind fun e e' he => .pure (.some he)

theorem expander_refuses (levels : Nat) (hc : c.Extends bad g c') (hbad : bad) (span : Span)
    (es : List Expr) {t : Compiler} (ht : t.setting = c') :
    ∃ e, (expander levels span ⟨none, g⟩ es t).result = .error e := by
  cases levels with
  | zero => exact ⟨_, rfl⟩
  | succ levels =>
    have hkey : Definition.key ⟨none, g⟩ ∈ t.callStack := by
      rw [show t.callStack = c'.callStack from congrArg Setting.callStack ht]
      exact hc.caught hbad
    rw [expander_succ, unlessRecursive_apply, if_pos hkey]
    exact ⟨_, rfl⟩

/-- Calls are expanded alike, with at least as many levels on the other side. -/
theorem expander_track {levels levels' : Nat} (hlevels : levels ≤ levels')
    (hc : c.Extends bad g c') :
    (expander levels).Track w bad g c c' (expander levels') := by
  induction levels generalizing levels' c c' with
  | zero =>
    exact ⟨fun _ _ _ _ => .fail _ _, fun hbad span es t => expander_refuses _ hc hbad span es⟩
  | succ levels ih =>
    obtain ⟨more, rfl⟩ : ∃ more, levels' = more + 1 := ⟨levels' - 1, by omega⟩
    refine ⟨fun {d es es'} hd hes k span => ?_,
      fun hbad span es t => expander_refuses _ hc hbad span es⟩
    intro s t r s' code hst hrun
    obtain ⟨hkey, hrun⟩ := runs_expander_succ hrun
    rw [hst.callStack.1] at hkey
    have hkey' := hc.not_mem_callStack hd hkey
    rw [← hst.callStack.2] at hkey'
    have hexpand : expander (more + 1) span d es' t = expandWith (expander more) span d es' t := by
      rw [expander_succ, unlessRecursive_apply, if_neg hkey']
    refine .congr hexpand ?_
    have hinner := ih (Nat.le_of_succ_le_succ hlevels) (hc.enter d)
    exact expandWith_tracks hc hd hinner hes k span s t r s' code hst hrun

end Expansion

end Compile

end DataMarks
