/-
  Marks are rejected for the uses of names in them.

  A scope agrees with a site if its current frame binds what the block has declared, and all
  its frames what the source binds, temporaries aside (`Site.Holds`). There a name is undefined
  exactly if the source binds it nowhere, and declared already exactly if the block has declared
  it. So each step is judged by the sites of its uses: first names and declarations, then
  expressions, statements and bodies along the syntax, then expanded calls by their depth, and
  in the end a whole mark with its inputs (`Compile.functionWithin_judges`).
-/
import DataMarks.Proofs.NameUses

namespace DataMarks

open Dictionary List

variable {x : String}

theorem Frame.binds_iff {f : Frame} : f.binds x = true ↔ x ∈ f.names := by
  rw [binds, names, Bool.or_eq_true, mem_append, mem_keys_iff, mem_keys_iff]
  rfl

theorem InputScope.binds_iff {scope : Scope} {inputs : Dictionary Input}
    (h : InputScope scope inputs) : scope.outermost.binds x = true ↔ x ∈ inputs.keys := by
  rw [Frame.binds_iff, Frame.names, h.formals, mem_append, mem_keys_iff,
    h.get?_vars, Option.isSome_map, ← mem_keys_iff]
  simp [Dictionary.keys]

/-! ## Scopes at sites -/

/-- The scope at a site of a mark with inputs, of which `params` are its parameters. -/
structure Site.Holds (inputs : Dictionary Input) (params : List String) (p : Site)
    (scope : Scope) : Prop where
  place : Place inputs params p.binders scope
  /-- The current frame binds what the block has declared, and temporaries. -/
  declared : p.block ⊆ scope.current.names
  current : ∀ x ∈ scope.current.names, x ∈ p.block ∨ Scope.IsTemporary x

namespace Site.Holds

open Compile

variable {inputs : Dictionary Input} {params : List String} {p : Site} {scope : Scope}
  {s s' : Compiler} {new : List String} {code : List Stmt}

theorem step (h : p.Holds inputs params s.scope) (hstep : Compiler.Step new s s')
    (hnew : new ⊆ s'.scope.current.names) : (p.add new).Holds inputs params s'.scope := by
  obtain ⟨f, below, hf⟩ := exists_cons_of_ne_nil h.place.inner
  obtain ⟨vars, hvars, hkeep, hkeys⟩ := hstep.inner f below hf
  have hdeclared := h.declared
  have hcurrent := h.current
  rw [Scope.current_of_inner hf] at hdeclared hcurrent
  refine ⟨h.place.step hstep hnew, ?_, ?_⟩
  · refine append_subset.mpr ⟨hnew, ?_⟩
    rw [Scope.current_of_inner hvars]
    exact List.Subset.trans hdeclared (Frame.names_subset hkeep)
  · intro x hx
    rw [Scope.current_of_inner hvars] at hx
    show x ∈ new ++ p.block ∨ _
    rw [mem_append, or_assoc]
    rcases mem_append.mp hx with hx | hx
    · rcases hkeys x hx with hold | hdeclared | ⟨-, htemporary⟩
      · exact .inr (hcurrent x (mem_append_left _ hold))
      · exact .inl hdeclared
      · exact .inr (.inr htemporary)
    · exact .inr (hcurrent x (mem_append_right _ hx))

/-- The site behind a step that declares nothing. -/
theorem advance {α : Type} {x : Compile α} {a : α} (h : p.Holds inputs params s.scope)
    (hx : Advances [] x) (hrun : Runs x s a s' code) : p.Holds inputs params s'.scope :=
  h.step (hx s a s' code h.place.inner hrun) (nil_subset _)

/-- The start of a frame that binds what the block does. -/
theorem start {q : Site} {formals : Dictionary String}
    (hplace : Place inputs params q.binders (scope.push formals))
    (hblock : ∀ x, x ∈ q.block ↔ x ∈ formals.keys) :
    q.Holds inputs params (scope.push formals) where
  place := hplace
  declared := fun x hx => (hblock x).mp hx
  current := fun x hx => .inl ((hblock x).mpr hx)

theorem nested (h : p.Holds inputs params scope) :
    p.nested.Holds inputs params (scope.push []) :=
  start h.place.block fun _ => Iff.rfl

/-- The site behind a declaration. -/
theorem declare (h : p.Holds inputs params s.scope) {span : Span} {y : String} {t : ValueType}
    (hrun : Runs (Compile.declare span x t) s y s' code) :
    (p.add [x]).Holds inputs params s'.scope := by
  refine h.step (advances_declare span x t s y s' code h.place.inner hrun) ?_
  exact cons_subset.mpr ⟨mem_current_of_declare h.place.inner hrun, nil_subset _⟩

/-- The site behind a statement. -/
theorem stmt (h : p.Holds inputs params s.scope) {expand : Expander} (hexpand : expand.Advancing)
    {st : Surface.Stmt} {u : Unit} (hrun : Runs (Compile.stmt expand st) s u s' code) :
    (p.add st.declares).Holds inputs params s'.scope :=
  h.step (advances_stmt hexpand st s u s' code h.place.inner hrun)
    (declares_subset_current hexpand h.place.inner hrun)

end Site.Holds

namespace Compile

/-! ## Uses of names -/

section Names

variable {α : Type} {inputs : Dictionary Input} {params globals : List String} {p : Site}
  {s : Compiler}

/-- A step that is a use of a name. -/
theorem Judges.single {x : Compile α} {u : Use} {c : Bool}
    (hresult : rejected (x s).result = if c then some u else none)
    (hc : ¬ Scope.IsTemporary u.name → (c = true ↔ p.Rejects globals u.kind u.name)) :
    Judges globals x s [(u, p)] := by
  intro v hv
  rw [hresult]
  simp only [mem_singleton, Prod.mk.injEq]
  constructor
  · intro h
    split at h
    · cases h
      rename_i hrejects
      exact ⟨p, ⟨rfl, rfl⟩, (hc hv).mp hrejects⟩
    · cases h
  · rintro ⟨q, ⟨rfl, rfl⟩, hrejects⟩
    rw [if_pos ((hc hv).mpr hrejects)]

theorem rejected_variable (span : Span) (x : String) (s : Compiler) :
    rejected (variable_ span x s).result =
      if (s.scope.get? x).isNone then some ⟨.mention, span, x⟩ else none := by
  unfold variable_
  cases hget : s.scope.get? x
  · simp [Bind.bind, state, hget, fail, rejected, CompileError.use?]
  · simp [Bind.bind, state, hget, pure, rejected]

theorem rejected_declare (span : Span) (x : String) (t : ValueType) (s : Compiler) :
    rejected (declare span x t s).result =
      if s.scope.current.binds x then some ⟨.declaration, span, x⟩ else none := by
  unfold declare Scope.declare Scope.add Scope.frame Scope.declared
  cases hbinds : s.scope.current.binds x
  · simp [Bind.bind, state, hbinds, Except.map, update, rejected, pure]
  · simp [Bind.bind, state, hbinds, Except.map, fail, rejected, CompileError.use?]

theorem variable_judges (hinputs : inputs.keys = globals ++ params)
    (h : p.Holds inputs params s.scope) (span : Span) (x : String) :
    Judges globals (variable_ span x) s [(⟨.mention, span, x⟩, p)] := by
  refine .single (rejected_variable span x s) fun hx => ?_
  rw [Option.isNone_iff_eq_none]
  exact h.place.get?_eq_none_iff hinputs hx

theorem declare_judges (h : p.Holds inputs params s.scope) (span : Span) (x : String)
    (t : ValueType) : Judges globals (declare span x t) s [(⟨.declaration, span, x⟩, p)] := by
  refine .single (rejected_declare span x t s) fun hx => ?_
  rw [Frame.binds_iff]
  exact ⟨fun hmem => (h.current x hmem).resolve_right hx, fun hmem => h.declared hmem⟩

end Names

/-- What an expanded call is rejected for are uses of names in the body of the function. -/
def UseTracer.Follows (inputs : Dictionary Input) (params globals : List String)
    (trace : UseTracer) (expand : Expander) : Prop :=
  ∀ {p : Site} {span d args s}, p.Holds inputs params s.scope →
    d.function.params.length = args.length →
    Judges globals (expand span d args) s (trace p d args s)

section Bodies

variable {inputs : Dictionary Input} {params globals : List String} {expand : Expander}
  {trace : UseTracer} (hinputs : inputs.keys = globals ++ params) (hexpand : expand.Advancing)
  (htrace : trace.Follows inputs params globals expand)
variable {p : Site} {s : Compiler}
include htrace

theorem call_judges (h : p.Holds inputs params s.scope) (span : Span) (name : String)
    (args : Arguments) :
    Judges globals (call expand span name args) s (callUses trace p name args s) := by
  unfold call callUses
  refine .of_state ?_
  dsimp only
  cases hresolve : s.resolver.resolve name args with
  | error e => exact (silent_unresolved e _ _ _ _).judges
  | ok r =>
    obtain ⟨callee, fit⟩ := r
    cases callee with
    | intrinsic i => exact (Silent.pure _).judges
    | defined d => exact htrace h (Resolver.length_of_resolve hresolve)

theorem callValue_judges (h : p.Holds inputs params s.scope) (span : Span) (name : String)
    (args : Arguments) :
    Judges globals (callValue expand span name args) s (callUses trace p name args s) := by
  refine (call_judges htrace h span name args).bind_silent fun r => ?_
  cases r with
  | none => exact .fail rfl
  | some e => exact .pure _

include hinputs hexpand

-- Some members only pass hypotheses on.
set_option linter.unusedSectionVars false in
mutual

theorem expr_judges {p : Site} : ∀ (e : Surface.Expr) {s : Compiler},
    p.Holds inputs params s.scope →
    Judges globals (expr expand e) s (exprUses expand trace p e s)
  | .literal .., s, _ => by
    rw [expr, exprUses]
    exact (Silent.pure _).judges
  | .name span x, s, h => by
    rw [expr, exprUses]
    cases Catalog.constant? x with
    | some c => exact (Silent.pure _).judges
    | none => exact (variable_judges hinputs h span x).bind_silent fun _ => .pure _
  | .field span base f, s, h => by
    rw [expr, exprUses]
    exact (expr_judges base h).bind_silent fun e => silent_access e span f
  | .call span name args keywords, s, h => by
    rw [expr, exprUses]
    refine (exprs_judges args h).bind fun es s₁ c₁ h₁ => ?_
    have h := h.advance (advances_exprs hexpand args) h₁
    refine (keywordExprs_judges keywords h).bind fun ks s₂ c₂ h₂ => ?_
    have h := h.advance (advances_keywordExprs hexpand keywords) h₂
    exact callValue_judges htrace h span name _
  | .unary span op arg, s, h => by
    rw [expr, exprUses]
    refine (expr_judges arg h).bind fun e s₁ c₁ h₁ => ?_
    have h := h.advance (advances_expr hexpand arg) h₁
    exact callValue_judges htrace h span _ _
  | .binary span op lhs rhs, s, h => by
    rw [expr, exprUses]
    refine (expr_judges lhs h).bind fun l s₁ c₁ h₁ => ?_
    have h := h.advance (advances_expr hexpand lhs) h₁
    refine (expr_judges rhs h).bind fun r s₂ c₂ h₂ => ?_
    have h := h.advance (advances_expr hexpand rhs) h₂
    exact callValue_judges htrace h span _ _

theorem exprs_judges {p : Site} : ∀ (es : List Surface.Expr) {s : Compiler},
    p.Holds inputs params s.scope →
    Judges globals (exprs expand es) s (exprsUses expand trace p es s)
  | [], s, _ => by
    rw [exprs, exprsUses]
    exact (Silent.pure _).judges
  | e :: es, s, h => by
    rw [exprs, exprsUses]
    refine (expr_judges e h).bind fun a s₁ c₁ h₁ => ?_
    exact (exprs_judges es (h.advance (advances_expr hexpand e) h₁)).bind_silent fun _ => .pure _

theorem keywordExprs_judges {p : Site} : ∀ (es : List (String × Surface.Expr)) {s : Compiler},
    p.Holds inputs params s.scope →
    Judges globals (keywordExprs expand es) s (keywordUses expand trace p es s)
  | [], s, _ => by
    rw [keywordExprs, keywordUses]
    exact (Silent.pure _).judges
  | (k, e) :: es, s, h => by
    rw [keywordExprs, keywordUses]
    refine (expr_judges e h).bind fun a s₁ c₁ h₁ => ?_
    exact (keywordExprs_judges es (h.advance (advances_expr hexpand e) h₁)).bind_silent
      fun _ => .pure _

end

/-! ## Statements -/

theorem attributes_judges (as : List Surface.Attribute) (done : Dictionary Expr)
    (h : p.Holds inputs params s.scope) :
    Judges globals (attributes expand as done) s (attributesUses expand trace p as s) := by
  induction as generalizing done s with
  | nil => exact (Silent.pure _).judges
  | cons a as ih =>
    rw [attributes, attributesUses]
    refine (expr_judges hinputs hexpand htrace a.value h).bind fun e s₁ c₁ h₁ => ?_
    have h := h.advance (advances_expr hexpand a.value) h₁
    refine (silent_recordOutput a.span a.name e.type).bind_judges fun _ s₂ c₂ h₂ => ?_
    exact ih _ (h.advance (advances_recordOutput a.span a.name e.type) h₂)

theorem vertices_judges (vs : List (List Surface.Attribute)) (h : p.Holds inputs params s.scope) :
    Judges globals (vertices expand vs) s (verticesUses expand trace p vs s) := by
  induction vs generalizing s with
  | nil => exact (Silent.pure _).judges
  | cons v vs ih =>
    rw [vertices, verticesUses]
    refine (attributes_judges hinputs hexpand htrace v [] h).bind fun as s₁ c₁ h₁ => ?_
    exact (ih (h.advance (advances_attributes hexpand v []) h₁)).congr rfl

theorem declaration_judges (h : p.Holds inputs params s.scope) (span : Span) (x : String)
    (type : Option Surface.TypeName) (init : Option Surface.Expr) :
    Judges globals (stmt expand (.declare span x type init)) s
      (stmtUses expand trace (.declare span x type init) p s) := by
  rw [stmt]
  unfold declaration
  cases init with
  | none =>
    rw [stmtUses]
    refine (silent_valueType? type).bind_judges fun t s₁ c₁ h₁ => ?_
    obtain ⟨-, rfl, -⟩ := runs_valueType?_iff.mp h₁
    cases t with
    | none => exact (Silent.fail rfl).judges
    | some t => exact (declare_judges h span x t).bind_silent fun _ => .pure _
  | some init =>
    rw [stmtUses]
    refine (silent_valueType? type).bind_judges fun t s₁ c₁ h₁ => ?_
    obtain ⟨-, rfl, -⟩ := runs_valueType?_iff.mp h₁
    refine (expr_judges hinputs hexpand htrace init h).bind fun e s₂ c₂ h₂ => ?_
    have h := h.advance (advances_expr hexpand init) h₂
    refine (declare_judges h span x _).bind_silent fun y => ?_
    exact (silent_coerce init.span e _).bind fun _ => .write _

theorem assignment_judges (h : p.Holds inputs params s.scope) (span : Span) (x : String)
    (value : Surface.Expr) :
    Judges globals (stmt expand (.assign span x value)) s
      (stmtUses expand trace (.assign span x value) p s) := by
  rw [stmt, stmtUses]
  refine (expr_judges hinputs hexpand htrace value h).bind fun e s₁ c₁ h₁ => ?_
  have h := h.advance (advances_expr hexpand value) h₁
  refine (variable_judges hinputs h span x).bind_silent fun v => ?_
  exact (silent_coerce span e _).bind fun _ => .write _

/-- A condition, from what its branches are rejected for. -/
theorem condition_judges (test : Surface.Expr) {thenStep elseStep : Compile Unit}
    {thenUses elseUses : Compiler → List (Use × Site)} (hquiet : Advances [] thenStep)
    (hthen : ∀ {s : Compiler}, p.Holds inputs params s.scope →
      Judges globals thenStep s (thenUses s))
    (helse : ∀ {s : Compiler}, p.Holds inputs params s.scope →
      Judges globals elseStep s (elseUses s)) (h : p.Holds inputs params s.scope) :
    Judges globals (condition expand test thenStep elseStep) s
      (conditionUses expand trace p test thenStep thenUses elseUses s) := by
  unfold condition conditionUses
  refine (expr_judges hinputs hexpand htrace test h).bind fun e s₁ c₁ h₁ => ?_
  have h := h.advance (advances_expr hexpand test) h₁
  refine (silent_coerce test.span e .bool).bind_judges fun e' s₂ c₂ h₂ => ?_
  obtain ⟨-, rfl, -⟩ := runs_coerce_iff.mp h₂
  refine (hthen h).capture.bind fun body s₃ c₃ h₃ => ?_
  obtain ⟨hrun, -⟩ := runs_capture_iff.mp h₃
  exact (helse (h.advance hquiet hrun)).capture.bind_silent fun _ => .write _

theorem stmt_call_judges (h : p.Holds inputs params s.scope) (span : Span) (name : String)
    (args : List Surface.Expr) (keywords : List (String × Surface.Expr)) :
    Judges globals (stmt expand (.expr (.call span name args keywords))) s
      (stmtUses expand trace (.expr (.call span name args keywords)) p s) := by
  rw [stmt, stmtUses, exprUses]
  refine (exprs_judges hinputs hexpand htrace args h).bind fun es s₁ c₁ h₁ => ?_
  have h := h.advance (advances_exprs hexpand args) h₁
  refine (keywordExprs_judges hinputs hexpand htrace keywords h).bind fun ks s₂ c₂ h₂ => ?_
  have h := h.advance (advances_keywordExprs hexpand keywords) h₂
  exact (call_judges htrace h span name _).bind_silent fun _ => .pure _

-- Some members only pass hypotheses on.
set_option linter.unusedSectionVars false in
mutual

theorem stmt_judges : ∀ (st : Surface.Stmt) {p : Site} {s : Compiler},
    p.Holds inputs params s.scope →
    Judges globals (stmt expand st) s (stmtUses expand trace st p s)
  | .expr e, p, s, h => by
    by_cases hcall : ∃ span name args keywords, e = .call span name args keywords
    · obtain ⟨span, name, args, keywords, rfl⟩ := hcall
      exact stmt_call_judges hinputs hexpand htrace h span name args keywords
    · rw [stmt, stmtUses]
      · exact (expr_judges hinputs hexpand htrace e h).bind_silent fun _ => .pure _
      · exact fun span name args keywords heq => hcall ⟨span, name, args, keywords, heq⟩
  | .declare span x type init, p, s, h =>
    declaration_judges hinputs hexpand htrace h span x type init
  | .assign span x value, p, s, h => assignment_judges hinputs hexpand htrace h span x value
  | .return_ span value, p, s, h => by
    rw [stmt, stmtUses]
    exact (Silent.fail rfl).judges
  | .discard _, p, s, h => by
    rw [stmt, stmtUses]
    exact (Silent.write _).judges
  | .emit _ vs, p, s, h => by
    rw [stmt, stmtUses]
    exact vertices_judges hinputs hexpand htrace vs h
  | .loop span x first last body, p, s, h => by
    rw [stmt, stmtUses]
    -- The variable is the first name of the frame, and the body stands in the same frame.
    refine Judges.bind_silent (Judges.inFrame ?_) fun _ => .write _
    refine (declare_judges h.nested span x .int).bind fun y s₁ c₁ h₁ => ?_
    exact (stmt_judges body (h.nested.declare h₁)).capture.bind_silent fun _ => .pure _
  | .branch _ test body rest, p, s, h => by
    rw [stmt, stmtUses]
    exact condition_judges hinputs hexpand htrace test (advances_stmt hexpand body).inFrame
      (fun h => (stmt_judges body h.nested).inFrame) (fun h => alternatives_judges rest h) h
  | .block _ body, p, s, h => by
    rw [stmt, stmtUses]
    exact (stmts_judges body h.nested).inFrame

theorem alternatives_judges : ∀ (rest : Surface.Alternatives) {p : Site} {s : Compiler},
    p.Holds inputs params s.scope →
    Judges globals (alternatives expand rest) s (alternativesUses expand trace rest p s)
  | .none, p, s, h => by
    rw [alternatives, alternativesUses]
    exact (Silent.pure _).judges
  | .otherwise body, p, s, h => by
    rw [alternatives, alternativesUses]
    exact (stmt_judges body h.nested).inFrame
  | .elseIf test body rest, p, s, h => by
    rw [alternatives, alternativesUses]
    exact condition_judges hinputs hexpand htrace test (advances_stmt hexpand body).inFrame
      (fun h => (stmt_judges body h.nested).inFrame) (fun h => alternatives_judges rest h) h

theorem stmts_judges : ∀ (ss : List Surface.Stmt) {p : Site} {s : Compiler},
    p.Holds inputs params s.scope →
    Judges globals (stmts expand ss) s (stmtsUses expand trace ss p s)
  | [], p, s, h => by
    rw [stmts, stmtsUses]
    exact (Silent.pure _).judges
  | st :: ss, p, s, h => by
    rw [stmts, stmtsUses]
    refine (stmt_judges st h).bind fun _ s₁ c₁ h₁ => ?_
    exact stmts_judges ss (h.stmt hexpand h₁)

end

theorem body_judges (ss : List Surface.Stmt) (h : p.Holds inputs params s.scope) :
    Judges globals (body expand ss) s (bodyUses expand trace ss p s) := by
  induction ss generalizing p s with
  | nil =>
    rw [body, bodyUses]
    exact (Silent.pure _).judges
  | cons st ss ih =>
    by_cases hreturn : ∃ span e, st = .return_ span e
    · obtain ⟨span, e, rfl⟩ := hreturn
      rw [body, bodyUses]
      exact (expr_judges hinputs hexpand htrace e h).bind_silent fun _ => .pure _
    · have hother : ∀ span e, st = .return_ span e → False :=
        fun span e heq => hreturn ⟨span, e, heq⟩
      rw [body, bodyUses]
      · refine (stmt_judges hinputs hexpand htrace st h).bind fun _ s₁ c₁ h₁ => ?_
        exact ih (h.stmt hexpand h₁)
      · exact hother
      · exact hother

end Bodies

/-! ## Expanded calls -/

variable {p : Site}

section Expansion

variable {inputs : Dictionary Input} {params globals : List String}

theorem expandWith_judges {inner : Expander} {trace : UseTracer}
    (hinputs : inputs.keys = globals ++ params) (hinner : inner.Advancing)
    (htrace : trace.Follows inputs params globals inner) {d : Definition} {args : List Expr}
    {s : Compiler} (h : p.Holds inputs params s.scope) (span : Span)
    (hlength : d.function.params.length = args.length) :
    Judges globals (expandWith inner span d args) s
      (after (valueType? d.function.returns) s fun _ s₁ =>
        after (temporaries (d.function.params.zip args) []) s₁ fun formals s₂ =>
          bodyUses inner trace d.function.body
            (p.enter (d.function.params.map Surface.Param.name)) (s₂.enter d formals)) := by
  unfold expandWith
  refine (silent_valueType? d.function.returns).bind_judges fun returns s₁ c₁ h₁ => ?_
  obtain ⟨-, rfl, -⟩ := runs_valueType?_iff.mp h₁
  refine (silent_temporaries _ []).bind_judges fun formals s₂ c₂ h₂ => ?_
  -- The temporaries of the arguments stand in the frame around, so that the frame of the body
  -- starts with the parameters only.
  obtain ⟨hplace, hparams⟩ := h.place.enter hlength h₂
  refine Judges.bind_silent (Judges.inBody ?_) fun value => ?_
  · exact body_judges hinputs hinner htrace d.function.body (Site.Holds.start hplace hparams)
  · split
    · exact (silent_coerce span _ _).bind fun _ => .pure _
    · exact .pure _

/-- At every depth, an expanded call is rejected for the uses of names in it. -/
theorem follows_useTracer (hinputs : inputs.keys = globals ++ params) (levels : Nat) :
    (useTracer levels).Follows inputs params globals (expander levels) := by
  induction levels with
  | zero =>
    intro p span d args s _ _
    exact (Silent.fail rfl).judges
  | succ levels ih =>
    intro p span d args s h hlength
    rw [expander_succ, useTracer]
    by_cases hkey : d.key ∈ s.callStack
    · rw [if_pos (contains_iff_mem.mpr hkey)]
      refine .nil ?_
      rw [unlessRecursive_apply, if_pos hkey]
      rfl
    · rw [if_neg (fun hmem => hkey (contains_iff_mem.mp hmem))]
      refine (expandWith_judges hinputs (advancing_expander levels) ih h span hlength).congr ?_
      rw [unlessRecursive_apply, if_neg hkey]

end Expansion

/-! ## Inputs -/

section Inputs

variable {α β : Type} {globals : List String} {done : Dictionary Input} {s : Compiler}

/-- A way to declare inputs: each goes to the outermost frame, under a name that is not there. -/
structure DeclaresInputs (declare : Span → String → ValueType → Compile β) : Prop where
  rejected : ∀ {done : Dictionary Input} {s : Compiler} span x t, InputScope s.scope done →
    DataMarks.rejected (declare span x t s).result =
      if s.scope.outermost.binds x then some ⟨.declaration, span, x⟩ else none
  runs : ∀ {done : Dictionary Input} {s s' : Compiler} {span x t y code},
    InputScope s.scope done → Runs (declare span x t) s y s' code →
    ∃ v, s.scope.declareGlobal x t = .ok (v, s'.scope)

theorem declaresInputs_declareGlobal : DeclaresInputs declareGlobal where
  rejected := by
    intro done s span x t _
    unfold declareGlobal Scope.declareGlobal Scope.add Scope.frame Scope.declared
    cases hbinds : s.scope.outermost.binds x
    · simp [Bind.bind, state, hbinds, Except.map, update, DataMarks.rejected]
    · simp [Bind.bind, state, hbinds, Except.map, fail, DataMarks.rejected, CompileError.use?]
  runs := by
    intro done s s' span x t y code _ h
    obtain ⟨v, scope, hdeclare, rfl, -⟩ := runs_declareGlobal h
    exact ⟨v, hdeclare⟩

theorem declaresInputs_declare : DeclaresInputs declare where
  rejected := by
    intro done s span x t hs
    rw [rejected_declare, Scope.current, hs.inner]
    rfl
  runs := by
    intro done s s' span x t y code hs h
    obtain ⟨v, scope, hdeclare, -, rfl, -⟩ := runs_declare_iff.mp h
    exact ⟨v, by rwa [← hs.declare_eq]⟩

/-- An input is rejected if there is one of its name before it. -/
theorem input_judges {declare : Span → String → ValueType → Compile β}
    (hdeclares : DeclaresInputs declare) {span : Span} {type : Surface.TypeName}
    {default : Option Value} {k : ValueType → Option Value → Compile α}
    {rest : Site → Compiler → List (Use × Site)} (hs : InputScope s.scope done)
    (hblock : ∀ y, y ∈ p.block ↔ y ∈ done.keys)
    (hk : ∀ t value {s' : Compiler},
      InputScope s'.scope (done.insert x { type := t, default := value }) →
      Judges globals (k t value) s' (rest (p.add [x]) s')) :
    Judges globals (do
      let t ← valueType type
      let _ ← declare span x t
      let value ← defaultValue span t default
      k t value) s (inputUses declare span x type default rest p s) := by
  refine (silent_valueType type).bind_judges fun t s₁ c₁ h₁ => ?_
  obtain ⟨-, rfl, -⟩ := runs_valueType_iff.mp h₁
  refine Judges.bind ?_ fun y s₂ c₂ h₂ => ?_
  · refine .single (hdeclares.rejected span x t hs) fun _ => ?_
    rw [hs.binds_iff]
    exact (hblock x).symm
  · obtain ⟨v, hdeclare⟩ := hdeclares.runs hs h₂
    refine (silent_defaultValue span t default).bind_judges fun value s₃ c₃ h₃ => ?_
    obtain ⟨rfl, -⟩ := runs_defaultValue h₃
    exact hk t value (hs.declareGlobal hdeclare value).2

theorem mem_block_add {i : Input} (hblock : ∀ y, y ∈ p.block ↔ y ∈ done.keys) (y : String) :
    y ∈ (p.add [x]).block ↔ y ∈ Dictionary.keys (done.insert x i) := by
  rw [mem_keys_insert_iff, ← hblock]
  exact mem_cons

theorem globalInputs_judges (gs : List Surface.Global) (hs : InputScope s.scope done)
    (hblock : ∀ y, y ∈ p.block ↔ y ∈ done.keys) :
    Judges globals (globalInputs gs done) s (globalUses gs p s) := by
  induction gs generalizing done p s with
  | nil => exact (Silent.pure _).judges
  | cons g gs ih =>
    rw [globalInputs, globalUses]
    exact input_judges declaresInputs_declareGlobal hs hblock
      fun t value _ hs' => ih hs' (mem_block_add hblock)

theorem paramInputs_judges (ps : List Surface.Param) (hs : InputScope s.scope done)
    (hblock : ∀ y, y ∈ p.block ↔ y ∈ done.keys) :
    Judges globals (paramInputs ps done) s (paramUses ps p s) := by
  induction ps generalizing done p s with
  | nil => exact (Silent.pure _).judges
  | cons q qs ih =>
    rw [paramInputs, paramUses]
    exact input_judges declaresInputs_declare hs hblock
      fun t value _ hs' => ih hs' (mem_block_add hblock)

end Inputs

/-- A mark is rejected for the uses of names in it. -/
theorem functionWithin_judges (levels : Nat) (f : Surface.Function) (s : Compiler) :
    Judges (s.globals.map Surface.Global.name) (functionWithin levels f) s
      (functionUses levels f s) := by
  unfold functionWithin functionUses
  refine .of_update (.of_state ?_)
  refine (globalInputs_judges s.globals .empty fun _ => Iff.rfl).bind fun inputs s₁ c₁ h₁ => ?_
  obtain ⟨_, rfl, hglobals, hscope₁, -⟩ := runs_globalInputs .empty h₁
  have hglobals := IsInput.keys_of_forall₂ hglobals
  refine (paramInputs_judges f.params hscope₁ fun y => ?_).bind fun _ s₂ c₂ h₂ => ?_
  · simp [Site.add, ← hglobals]
  obtain ⟨params, rfl, hparams, hscope₂, -⟩ := runs_paramInputs hscope₁ h₂
  have hkeys : Dictionary.keys (inputs ++ params) =
      s.globals.map Surface.Global.name ++ f.params.map Surface.Param.name := by
    rw [← hglobals, ← IsInput.keys_of_forall₂ hparams]
    simp [Dictionary.keys]
  have hbody := stmts_judges hkeys (advancing_expander levels) (follows_useTracer hkeys levels)
    f.body (p := ⟨{ own := f.params.map Surface.Param.name }, []⟩)
    (s := s₂.push [])
    (Site.Holds.start (hscope₂.place _) fun _ => Iff.rfl)
  exact hbody.inFrame.capture.bind_silent fun statements => .of_state fun s => .pure _

end Compile

end DataMarks
