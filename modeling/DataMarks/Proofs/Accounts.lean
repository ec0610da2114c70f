/-
  The lookups of a mark account for its code.

  They are made at places of the mark, and those of a step that succeeds find every variable
  that its value reads and its code mentions, but for new variables and those that have been
  found before (`Compile.Explains`). There is a rule for each way to build a step. The lookups
  of an expanded call explain it if those of the calls in its body do
  (`Compile.Tracer.Follows`), and so at every depth.
-/
import DataMarks.Proofs.CompiledTypes
import DataMarks.Proofs.Lookups

namespace DataMarks

open List Stmt DataMarks.Expr

namespace Resolver

variable {r : Resolver} {name : String} {args : Arguments} {fit : Fit}

/-- The expressions that parameters get read what the arguments read. -/
theorem reads_of_resolve {c : Callee} (h : r.resolve name args = .ok (c, fit)) :
    readsAll fit.args ⊆
      readsAll args.positional ++ readsAll (args.keywords.map Prod.snd) := by
  have hargs : ∀ e ∈ fit.args, e.reads ⊆
      readsAll args.positional ++ readsAll (args.keywords.map Prod.snd) := by
    refine forall_of_resolve ?_ h ?_ ?_ ?_
    · intro e e' t rank hcoerced he
      rwa [reads_of_coerce? hcoerced]
    · intro f _ t _ v _
      exact nil_subset _
    · intro e he m hm
      exact mem_append_left _ (mem_readsAll_iff.mpr ⟨e, he, hm⟩)
    · intro k hk m hm
      exact mem_append_right _ (mem_readsAll_iff.mpr ⟨k.2, mem_map_of_mem hk, hm⟩)
  intro m hm
  obtain ⟨e, he, hm⟩ := mem_readsAll_iff.mp hm
  exact hargs e he hm

theorem length_of_resolve {d : Definition} (h : r.resolve name args = .ok (.defined d, fit)) :
    d.function.params.length = fit.args.length := by
  obtain ⟨hbind, -⟩ := Overload.bind_eq_some_iff.mp (resolve_ok h).2
  have hlength := congrArg List.length (Overload.types_of_bindFormals hbind)
  simpa [Callee.formals] using hlength

end Resolver

namespace Compile

/-! ## What holds at all places -/

/-- What holds at a place holds behind the steps from there, in the blocks there and in the bodies
of functions that are expanded there. The names in `old` have been given out. -/
structure Carries (old : List String) (P : Binders → Scope → Prop) : Prop where
  inner : ∀ {b scope}, P b scope → scope.inner ≠ []
  issued : ∀ {b scope}, P b scope → old ⊆ scope.issued.keys
  step : ∀ {b new s s'}, P b s.scope → Compiler.Step new s s' → new ⊆ s'.scope.current.names →
    P (b.add new) s'.scope
  block : ∀ {b scope}, P b scope → P b (scope.push [])
  enter : ∀ {b s s' formals code} {d : Definition} {args : List Expr}, P b s.scope →
    d.function.params.length = args.length →
    Runs (temporaries (d.function.params.zip args) []) s formals s' code →
    P (b.enter (d.function.params.map Surface.Param.name)) (s'.scope.push formals)

theorem carries_place (inputs : Dictionary Input) (params : List String) :
    Carries inputs.keys (Place inputs params) where
  inner := Place.inner
  issued := Place.issued
  step := Place.step
  block := Place.block
  enter := fun h hlength hrun => (h.enter hlength hrun).1

variable {t : ValueType} {span : Span}

namespace Carries

variable {old : List String} {P : Binders → Scope → Prop} (hP : Carries old P) {b : Binders}
  {s s' : Compiler} {code : List Stmt}
include hP

/-- Behind a step that declares nothing. -/
theorem advance {α : Type} {x : Compile α} {a : α} (h : P b s.scope) (hx : Advances [] x)
    (hrun : Runs x s a s' code) : P b s'.scope :=
  hP.step h (hx s a s' code (hP.inner h) hrun) (nil_subset _)

theorem declare (h : P b s.scope) {x y : String} (hrun : Runs (declare span x t) s y s' code) :
    P (b.add [x]) s'.scope := by
  refine hP.step h (advances_declare span x t s y s' code (hP.inner h) hrun) ?_
  exact cons_subset.mpr ⟨mem_current_of_declare (hP.inner h) hrun, nil_subset _⟩

theorem stmt (h : P b s.scope) {expand : Expander} (hexpand : expand.Advancing)
    {st : Surface.Stmt} {u : Unit} (hrun : Runs (stmt expand st) s u s' code) :
    P (b.add st.declares) s'.scope :=
  hP.step h (advances_stmt hexpand st s u s' code (hP.inner h) hrun)
    (declares_subset_current hexpand (hP.inner h) hrun)

end Carries

/-! ## Rules -/

theorem after_nil {α β : Type} (x : Compile α) (s : Compiler) :
    after x s (fun _ _ => ([] : List β)) = [] := by
  unfold after
  split <;> rfl

theorem after_capture {β : Type} (x : Compile Unit) (s : Compiler) (next : Compiler → List β) :
    (after (capture x) s fun _ => next) = after x s fun _ => next := by
  unfold after capture
  cases hx : x s with
  | mk result s' code => cases result <;> rfl

section Rules

variable {α β : Type} {P : Binders → Scope → Prop} {old : List String}
  {given : List (String × ValueType)} {R : α → List (String × ValueType)}
  {R' : β → List (String × ValueType)} {x : Compile α} {f : α → Compile β} {s : Compiler}
  {ls : List Lookup}

/-- The lookups of a step are made at places. Those of one that succeeds find the variables that
its value reads and its code mentions, but for given and new ones. -/
structure Explains (P : Binders → Scope → Prop) (old : List String)
    (given : List (String × ValueType)) (reads : α → List (String × ValueType)) (x : Compile α)
    (s : Compiler) (ls : List Lookup) : Prop where
  places : ∀ l ∈ ls, P l.binders l.scope
  found : ∀ {a s' code}, Runs x s a s' code → ∀ l ∈ ls, ∃ v, l.scope.get? l.name = some v
  mentions : ∀ {a s' code}, Runs x s a s' code → ∀ m ∈ reads a ++ Stmt.mentionsAll code,
    (∃ l ∈ ls, l.Finds m) ∨ m ∈ given ∨ m.1 ∉ old

namespace Explains

/-- A step that looks up nothing. -/
theorem still (h : ∀ {a s' code}, Runs x s a s' code →
    ∀ m ∈ R a ++ mentionsAll code, m ∈ given ∨ m.1 ∉ old) :
    Explains P old given R x s [] where
  places := forall_mem_nil _
  found := fun _ => forall_mem_nil _
  mentions := fun hrun m hm => .inr (h hrun m hm)

theorem pure {a : α} (h : R a ⊆ given) : Explains P old given R (Pure.pure a) s [] := by
  refine still fun hrun m hm => ?_
  obtain ⟨rfl, -, rfl⟩ := runs_pure_iff.mp hrun
  exact .inl (h (by simpa [mentionsAll] using hm))

theorem bind {k : α → Compiler → List Lookup} (hx : Explains P old given R x s ls)
    (hf : ∀ a s₁ c₁, Runs x s a s₁ c₁ →
      Explains P old (given ++ R a) R' (f a) s₁ (k a s₁)) :
    Explains P old given R' (x >>= f) s (ls ++ after x s k) where
  places := by
    refine forall_mem_append.mpr ⟨hx.places, ?_⟩
    unfold after
    split
    · exact (hf _ _ _ ‹_›).places
    · exact forall_mem_nil _
  found := by
    intro b s' code hrun
    obtain ⟨a, s₁, c₁, c₂, h₁, h₂, rfl⟩ := runs_bind_iff.mp hrun
    rw [h₁.after_eq, forall_mem_append]
    exact ⟨hx.found h₁, (hf a s₁ c₁ h₁).found h₂⟩
  mentions := by
    intro b s' code hrun m hm
    obtain ⟨a, s₁, c₁, c₂, h₁, h₂, rfl⟩ := runs_bind_iff.mp hrun
    rw [h₁.after_eq]
    have hfirst : m ∈ R a ++ mentionsAll c₁ →
        (∃ l ∈ ls ++ k a s₁, l.Finds m) ∨ m ∈ given ∨ m.1 ∉ old := by
      intro hm
      refine (hx.mentions h₁ m hm).imp_left fun hl => ?_
      obtain ⟨l, hl, hm⟩ := hl
      exact ⟨l, mem_append_left _ hl, hm⟩
    rw [mentionsAll_append, mem_append, mem_append, or_left_comm] at hm
    rcases hm with hm | hm
    · exact hfirst (mem_append_right _ hm)
    · rcases (hf a s₁ c₁ h₁).mentions h₂ m (mem_append.mpr hm) with ⟨l, hl, hm⟩ | hm | hm
      · exact .inl ⟨l, mem_append_right _ hl, hm⟩
      · rcases mem_append.mp hm with hm | hm
        · exact .inr (.inl hm)
        · exact hfirst (mem_append_left _ hm)
      · exact .inr (.inr hm)

/-- A step in front of one that looks up nothing. -/
theorem bind_still (hx : Explains P old given R x s ls)
    (hf : ∀ {a s₁ c₁ b s' c}, Runs x s a s₁ c₁ → Runs (f a) s₁ b s' c →
      ∀ m ∈ R' b ++ mentionsAll c, m ∈ given ++ R a ∨ m.1 ∉ old) :
    Explains P old given R' (x >>= f) s ls := by
  have h := hx.bind (k := fun _ _ => []) fun a s₁ c₁ h₁ => .still fun h₂ => hf h₁ h₂
  rwa [after_nil, append_nil] at h

theorem bind_pure {g : α → β} (hx : Explains P old given R x s ls)
    (hg : ∀ a, R' (g a) ⊆ given ++ R a) :
    Explains P old given R' (x >>= fun a => Pure.pure (g a)) s ls := by
  refine hx.bind_still fun {a} _ _ _ _ _ _ hrun m hm => ?_
  obtain ⟨rfl, -, rfl⟩ := runs_pure_iff.mp hrun
  exact .inl (hg a (by simpa [mentionsAll] using hm))

/-- A step behind one that changes nothing. -/
theorem pass {Q : α → Prop} (hx : ∀ {a s₁ c}, Runs x s a s₁ c → Q a ∧ s₁ = s ∧ c = []) (a₀ : α)
    (ha₀ : Q a₀) (hf : ∀ a, Q a → Explains P old given R' (f a) s ls) :
    Explains P old given R' (x >>= f) s ls := by
  have hrest : ∀ {b s' code}, Runs (x >>= f) s b s' code → ∃ a, Q a ∧ Runs (f a) s b s' code := by
    intro b s' code hrun
    obtain ⟨a, s₁, c₁, c₂, h₁, h₂, rfl⟩ := runs_bind_iff.mp hrun
    obtain ⟨ha, rfl, rfl⟩ := hx h₁
    exact ⟨a, ha, h₂⟩
  refine ⟨(hf a₀ ha₀).places, fun hrun => ?_, fun hrun => ?_⟩
  · obtain ⟨a, ha, hrun⟩ := hrest hrun
    exact (hf a ha).found hrun
  · obtain ⟨a, ha, hrun⟩ := hrest hrun
    exact (hf a ha).mentions hrun

theorem capture {x : Compile Unit} (h : Explains P old given (fun _ => []) x s ls) :
    Explains P old given mentionsAll (capture x) s ls where
  places := h.places
  found := fun hrun => h.found (runs_capture_iff.mp hrun).1
  mentions := by
    intro body s' code hrun m hm
    obtain ⟨hbody, rfl⟩ := runs_capture_iff.mp hrun
    exact h.mentions hbody m (by simpa [mentionsAll] using hm)

/-- A step that succeeds if another one does, with the same value and the same code. -/
theorem within {y : Compile α} {s₀ : Compiler} (h : Explains P old given R x s₀ ls)
    (hy : ∀ {a s' code}, Runs y s a s' code → ∃ s₁, Runs x s₀ a s₁ code) :
    Explains P old given R y s ls := by
  refine ⟨h.places, fun hrun => ?_, fun hrun => ?_⟩
  · obtain ⟨s₁, hx⟩ := hy hrun
    exact h.found hx
  · obtain ⟨s₁, hx⟩ := hy hrun
    exact h.mentions hx

theorem inFrame {formals : Dictionary String}
    (h : Explains P old given R x (s.push formals) ls) :
    Explains P old given R (inFrame formals x) s ls :=
  h.within fun hrun => (runs_inFrame_iff.mp hrun).imp fun _ h => h.1

theorem variable_ {b : Binders} (h : P b s.scope) (span : Span) (x : String) :
    Explains P old given (fun v => [(v.unique, v.type)]) (variable_ span x) s
      [⟨x, b, s.scope⟩] where
  places := forall_mem_singleton.mpr h
  found := fun hrun => forall_mem_singleton.mpr ⟨_, (runs_variable_iff.mp hrun).1⟩
  mentions := by
    intro v s' code hrun m hm
    obtain ⟨hv, -, rfl⟩ := runs_variable_iff.mp hrun
    exact .inl ⟨_, mem_singleton_self _, v, hv, mem_singleton.mp hm⟩

/-- A step behind a conversion. -/
theorem coerce_bind {e : Expr} {f : Expr → Compile β}
    (hf : ∀ e', e'.reads = e.reads → Explains P old given R' (f e') s ls) :
    Explains P old given R' (coerce span e t >>= f) s ls := by
  refine pass (Q := fun e' => e'.reads = e.reads) (fun hrun => ?_) e rfl hf
  obtain ⟨⟨rank, hrank⟩, rfl, rfl⟩ := runs_coerce_iff.mp hrun
  exact ⟨reads_of_coerce? hrank, rfl, rfl⟩

end Explains

end Rules

/-! ## Expressions -/

/-- Where the variables that arguments read are given, the lookups of an expanded call explain
it. -/
def Tracer.Follows (P : Binders → Scope → Prop) (old : List String) (trace : Tracer)
    (expand : Expander) : Prop :=
  ∀ {b d args s given} span, P b s.scope → d.function.params.length = args.length →
    Expr.readsAll args ⊆ given →
    Explains P old given (fun r => Expr.readsAll r.toList) (expand span d args) s
      (trace b d args s)

variable {code : List Stmt} {s' : Compiler}

section Bodies

variable {P : Binders → Scope → Prop} {old : List String} (hP : Carries old P)
  {expand : Expander} {trace : Tracer} (hexpand : expand.Advancing)
  (htrace : trace.Follows P old expand)
variable {b : Binders} {s : Compiler} {given : List (String × ValueType)}
include htrace

theorem call_explains (h : P b s.scope) (span : Span) (name : String) {args : Arguments}
    (hargs : readsAll args.positional ++ readsAll (args.keywords.map Prod.snd) ⊆ given) :
    Explains P old given (fun r => readsAll r.toList) (call expand span name args) s
      (callLookups trace b name args s) := by
  unfold callLookups
  split
  · rename_i d fit hresolve
    have hfit := List.Subset.trans (Resolver.reads_of_resolve hresolve) hargs
    exact (htrace span h (Resolver.length_of_resolve hresolve) hfit).within
      fun {_ s' _} hrun => ⟨s', (call_of_defined hresolve span).symm.trans hrun⟩
  · rename_i hother
    refine .still fun hrun m hm => ?_
    rcases runs_call hrun with ⟨i, fit, hresolve, rfl, -, rfl⟩ | ⟨d, fit, hresolve, -⟩
    · refine .inl (hargs (Resolver.reads_of_resolve hresolve ?_))
      simpa [readsAll, reads, mentionsAll] using hm
    · exact absurd hresolve (hother d fit)

theorem callValue_explains (h : P b s.scope) (span : Span) (name : String) {args : Arguments}
    (hargs : readsAll args.positional ++ readsAll (args.keywords.map Prod.snd) ⊆ given) :
    Explains P old given reads (callValue expand span name args) s
      (callLookups trace b name args s) := by
  refine (call_explains htrace h span name hargs).bind_still
    fun {r} _ _ _ _ _ _ hrun m hm => ?_
  cases r with
  | none => exact absurd hrun not_runs_fail
  | some e =>
    obtain ⟨rfl, -, rfl⟩ := runs_pure_iff.mp hrun
    exact .inl (mem_append_right _ (by simpa [readsAll, mentionsAll] using hm))

include hP hexpand

-- Some members only pass hypotheses on.
set_option linter.unusedSectionVars false in
mutual

theorem expr_explains {b : Binders} : ∀ (e : Surface.Expr) {s : Compiler}
    {given : List (String × ValueType)}, P b s.scope →
    Explains P old given Expr.reads (expr expand e) s (exprLookups expand trace b e s)
  | .literal .., s, given, _ => by
    rw [expr, exprLookups]
    exact .pure (nil_subset _)
  | .name span x, s, given, h => by
    rw [expr, exprLookups]
    cases Catalog.constant? x with
    | some c => exact .pure (nil_subset _)
    | none => exact (Explains.variable_ h span x).bind_pure fun v => subset_append_right _ _
  | .field span base f, s, given, h => by
    rw [expr, exprLookups]
    refine (expr_explains base h).bind_still fun _ hrun m hm => ?_
    obtain ⟨⟨t, -, rfl⟩, -, rfl⟩ := runs_access hrun
    exact .inl (mem_append_right _ (by simpa [Expr.reads, Stmt.mentionsAll] using hm))
  | .call span name args keywords, s, given, h => by
    rw [expr, exprLookups]
    refine (exprs_explains args h).bind fun es s₁ c₁ h₁ => ?_
    have h := hP.advance h (advances_exprs hexpand args) h₁
    refine (keywordExprs_explains keywords h).bind fun ks s₂ c₂ h₂ => ?_
    have h := hP.advance h (advances_keywordExprs hexpand keywords) h₂
    exact callValue_explains htrace h span name (by simp)
  | .unary span op arg, s, given, h => by
    rw [expr, exprLookups]
    refine (expr_explains arg h).bind fun e s₁ c₁ h₁ => ?_
    have h := hP.advance h (advances_expr hexpand arg) h₁
    exact callValue_explains htrace h span _ (by simp [Expr.readsAll])
  | .binary span op lhs rhs, s, given, h => by
    rw [expr, exprLookups]
    refine (expr_explains lhs h).bind fun l s₁ c₁ h₁ => ?_
    have h := hP.advance h (advances_expr hexpand lhs) h₁
    refine (expr_explains rhs h).bind fun r s₂ c₂ h₂ => ?_
    have h := hP.advance h (advances_expr hexpand rhs) h₂
    exact callValue_explains htrace h span _ (by simp [Expr.readsAll])

theorem exprs_explains {b : Binders} : ∀ (es : List Surface.Expr) {s : Compiler}
    {given : List (String × ValueType)}, P b s.scope →
    Explains P old given readsAll (exprs expand es) s (exprsLookups expand trace b es s)
  | [], s, given, _ => by
    rw [exprs, exprsLookups]
    exact .pure (nil_subset _)
  | e :: es, s, given, h => by
    rw [exprs, exprsLookups]
    refine (expr_explains e h).bind fun a s₁ c₁ h₁ => ?_
    have h := hP.advance h (advances_expr hexpand e) h₁
    exact (exprs_explains es h).bind_pure fun as => by simp [readsAll]

theorem keywordExprs_explains {b : Binders} : ∀ (es : List (String × Surface.Expr)) {s : Compiler}
    {given : List (String × ValueType)}, P b s.scope →
    Explains P old given (fun ks => readsAll (ks.map Prod.snd)) (keywordExprs expand es) s
      (keywordLookups expand trace b es s)
  | [], s, given, _ => by
    rw [keywordExprs, keywordLookups]
    exact .pure (nil_subset _)
  | (k, e) :: es, s, given, h => by
    rw [keywordExprs, keywordLookups]
    refine (expr_explains e h).bind fun a s₁ c₁ h₁ => ?_
    have h := hP.advance h (advances_expr hexpand e) h₁
    exact (keywordExprs_explains es h).bind_pure fun as => by simp [readsAll]

end

/-! ## Statements -/

theorem attributes_explains (as : List Surface.Attribute) {done : Dictionary Expr}
    (hdone : Expr.readsAll (done.map Prod.snd) ⊆ given) (h : P b s.scope) :
    Explains P old given (fun r => Expr.readsAll (r.map Prod.snd)) (attributes expand as done) s
      (attributesLookups expand trace b as s) := by
  induction as generalizing done s given with
  | nil => exact .pure hdone
  | cons a as ih =>
    rw [attributes, attributesLookups]
    refine (expr_explains hP hexpand htrace a.value h).bind fun e s₁ c₁ h₁ => ?_
    have h := hP.advance h (advances_expr hexpand a.value) h₁
    have hrecord : Explains P old (given ++ e.reads) (fun _ => [])
        (recordOutput a.span a.name e.type) s₁ [] := by
      refine .still fun hrun m hm => ?_
      rw [(runs_recordOutput hrun).1] at hm
      exact absurd hm not_mem_nil
    refine hrecord.bind fun _ s₂ c₂ h₂ => ?_
    refine ih (fun m hm => ?_) (hP.advance h (advances_recordOutput a.span a.name e.type) h₂)
    obtain ⟨_, he, hm⟩ := Expr.mem_readsAll_iff.mp hm
    obtain ⟨entry, hentry, rfl⟩ := mem_map.mp he
    rw [append_nil, mem_append]
    rcases Dictionary.eq_or_mem_of_mem_insert hentry with rfl | hentry
    · exact .inr hm
    · exact .inl (hdone (Expr.mem_readsAll_iff.mpr ⟨_, mem_map_of_mem hentry, hm⟩))

theorem vertices_explains (vs : List (List Surface.Attribute)) (h : P b s.scope) :
    Explains P old given (fun _ => []) (vertices expand vs) s
      (verticesLookups expand trace b vs s) := by
  induction vs generalizing s given with
  | nil => exact .pure (nil_subset _)
  | cons v vs ih =>
    rw [vertices, verticesLookups]
    refine (attributes_explains hP hexpand htrace v (nil_subset _) h).bind fun as s₁ c₁ h₁ => ?_
    have h := hP.advance h (advances_attributes hexpand v []) h₁
    have hwrite : Explains P old (given ++ readsAll (as.map Prod.snd)) (fun _ => [])
        (write (.emit as)) s₁ [] := by
      refine .still fun hrun m hm => .inl (mem_append_right _ ?_)
      obtain ⟨-, rfl⟩ := runs_write_iff.mp hrun
      simp only [mentionsAll, mentions, append_nil, nil_append] at hm
      obtain ⟨a, ha, hm⟩ := mem_flatMap.mp hm
      exact mem_readsAll_iff.mpr ⟨a.2, mem_map_of_mem ha, hm⟩
    exact hwrite.bind (k := fun _ s => verticesLookups expand trace b vs s) fun _ s₂ c₂ h₂ => by
      obtain ⟨rfl, -⟩ := runs_write_iff.mp h₂
      exact ih h

omit hexpand htrace hP in
theorem new_of_declare {x y : String} (hinner : s.scope.inner ≠ [])
    (h : Runs (declare span x t) s y s' code) : y ∉ s.scope.issued.keys := by
  obtain ⟨v, scope, hdeclare, rfl, -, -⟩ := runs_declare_iff.mp h
  obtain ⟨f, below, hf⟩ := exists_cons_of_ne_nil hinner
  obtain ⟨-, -, -, hfree, -⟩ := Scope.declare_ok hf hdeclare
  exact (Dictionary.not_mem_keys_iff _ _).mpr hfree

omit hexpand htrace hP in
/-- An assignment of a converted value mentions its target and what the value reads. -/
theorem mentions_of_assign {e : Expr} {y : String} {u : Unit}
    (h : Runs (do write (.assign y (← coerce span e t))) s u s' code) :
    mentionsAll code = (y, t) :: e.reads := by
  obtain ⟨e', _, _, _, h₁, h₂, rfl⟩ := runs_bind_iff.mp h
  obtain ⟨⟨rank, hrank⟩, -, rfl⟩ := runs_coerce_iff.mp h₁
  obtain ⟨-, rfl⟩ := runs_write_iff.mp h₂
  simp [mentionsAll, mentions, type_of_coerce? hrank, reads_of_coerce? hrank]

theorem declaration_explains (h : P b s.scope) (span : Span) (x : String)
    (type : Option Surface.TypeName) (init : Option Surface.Expr) :
    Explains P old given (fun _ => []) (stmt expand (.declare span x type init)) s
      (stmtLookups expand trace (.declare span x type init) b s) := by
  cases init with
  | none =>
    rw [stmt, stmtLookups]
    refine .still fun hrun m hm => ?_
    obtain ⟨_, _, ⟨_, _, _, _, _, _, _, hinit, _⟩ | ⟨_, _, _, _, _, rfl⟩⟩ := runs_declaration hrun
    · cases hinit
    · exact absurd hm not_mem_nil
  | some init =>
    rw [stmt, stmtLookups]
    refine .pass (Q := fun _ => True) (fun hrun => ⟨trivial, (runs_valueType?_iff.mp hrun).2⟩)
      none trivial fun t _ => ?_
    refine (expr_explains hP hexpand htrace init h).bind_still fun {e} _ _ _ _ _ h₁ h₂ m hm => ?_
    have h := hP.advance h (advances_expr hexpand init) h₁
    obtain ⟨y, _, _, _, hdeclare, hassign, rfl⟩ := runs_bind_iff.mp h₂
    obtain ⟨-, -, -, -, -, rfl⟩ := runs_declare_iff.mp hdeclare
    rw [nil_append, nil_append, mentions_of_assign hassign] at hm
    rcases mem_cons.mp hm with rfl | hm
    · exact .inr fun hy => new_of_declare (hP.inner h) hdeclare (hP.issued h hy)
    · exact .inl (mem_append_right _ hm)

theorem assignment_explains (h : P b s.scope) (span : Span) (x : String) (value : Surface.Expr) :
    Explains P old given (fun _ => []) (stmt expand (.assign span x value)) s
      (stmtLookups expand trace (.assign span x value) b s) := by
  rw [stmt, stmtLookups]
  refine (expr_explains hP hexpand htrace value h).bind fun e s₁ c₁ h₁ => ?_
  have h := hP.advance h (advances_expr hexpand value) h₁
  refine (Explains.variable_ h span x).bind_still fun _ hassign m hm => .inl ?_
  rw [nil_append, mentions_of_assign hassign] at hm
  rcases mem_cons.mp hm with rfl | hm
  · exact mem_append_right _ (mem_singleton_self _)
  · exact mem_append_left _ (mem_append_right _ hm)

theorem condition_explains (test : Surface.Expr) {thenStep elseStep : Compile Unit}
    {thenLookups elseLookups : Compiler → List Lookup} (hquiet : Advances [] thenStep)
    (hthen : ∀ {s : Compiler} {given}, P b s.scope →
      Explains P old given (fun _ => []) thenStep s (thenLookups s))
    (helse : ∀ {s : Compiler} {given}, P b s.scope →
      Explains P old given (fun _ => []) elseStep s (elseLookups s)) (h : P b s.scope) :
    Explains P old given (fun _ => []) (condition expand test thenStep elseStep) s
      (conditionLookups expand trace b test thenStep thenLookups elseLookups s) := by
  unfold condition conditionLookups
  refine (expr_explains hP hexpand htrace test h).bind fun e s₁ c₁ h₁ => ?_
  have h := hP.advance h (advances_expr hexpand test) h₁
  refine .coerce_bind fun e' he' => ?_
  rw [← after_capture]
  refine (hthen h).capture.bind fun thenBody s₂ c₂ h₂ => ?_
  have h := hP.advance h hquiet (runs_capture_iff.mp h₂).1
  refine (helse h).capture.bind_still fun _ hrun m hm => .inl ?_
  obtain ⟨-, rfl⟩ := runs_write_iff.mp hrun
  simpa [mentionsAll, mentions, he', or_assoc] using Or.inr hm

theorem stmt_call_explains (h : P b s.scope) (span : Span) (name : String)
    (args : List Surface.Expr) (keywords : List (String × Surface.Expr)) :
    Explains P old given (fun _ => []) (stmt expand (.expr (.call span name args keywords))) s
      (stmtLookups expand trace (.expr (.call span name args keywords)) b s) := by
  rw [stmt, stmtLookups, exprLookups]
  refine (exprs_explains hP hexpand htrace args h).bind fun es s₁ c₁ h₁ => ?_
  have h := hP.advance h (advances_exprs hexpand args) h₁
  refine (keywordExprs_explains hP hexpand htrace keywords h).bind fun ks s₂ c₂ h₂ => ?_
  have h := hP.advance h (advances_keywordExprs hexpand keywords) h₂
  exact (call_explains htrace h span name (by simp)).bind_pure fun _ => nil_subset _

-- Some members only pass hypotheses on.
set_option linter.unusedSectionVars false in
mutual

theorem stmt_explains : ∀ (st : Surface.Stmt) {b : Binders} {s : Compiler}
    {given : List (String × ValueType)}, P b s.scope →
    Explains P old given (fun _ => []) (stmt expand st) s (stmtLookups expand trace st b s)
  | .expr e, b, s, given, h => by
    by_cases hcall : ∃ span name args keywords, e = .call span name args keywords
    · obtain ⟨span, name, args, keywords, rfl⟩ := hcall
      exact stmt_call_explains hP hexpand htrace h span name args keywords
    · rw [stmt, stmtLookups]
      · exact (expr_explains hP hexpand htrace e h).bind_pure fun _ => nil_subset _
      · exact fun span name args keywords heq => hcall ⟨span, name, args, keywords, heq⟩
  | .declare span x type init, b, s, given, h =>
    declaration_explains hP hexpand htrace h span x type init
  | .assign span x value, b, s, given, h =>
    assignment_explains hP hexpand htrace h span x value
  | .return_ span value, b, s, given, _ => by
    rw [stmt, stmtLookups]
    exact .still fun hrun => absurd hrun not_runs_fail
  | .discard _, b, s, given, _ => by
    rw [stmt, stmtLookups]
    refine .still fun hrun m hm => ?_
    obtain ⟨-, rfl⟩ := runs_write_iff.mp hrun
    exact absurd hm not_mem_nil
  | .emit _ vs, b, s, given, h => by
    rw [stmt, stmtLookups]
    exact vertices_explains hP hexpand htrace vs h
  | .loop span x first last body, b, s, given, h => by
    rw [stmt, stmtLookups, ← nil_append (after _ _ _)]
    have hblock := hP.block h
    have hdeclare : Explains P old given (fun _ => []) (declare span x .int)
        (s.push []) [] := by
      refine .still fun hrun m hm => ?_
      obtain ⟨-, -, -, -, -, rfl⟩ := runs_declare_iff.mp hrun
      exact absurd hm not_mem_nil
    refine Explains.bind_still (R := Stmt.mentions) (Explains.inFrame ?_)
      fun _ hrun m hm => .inl ?_
    · refine hdeclare.bind fun y s₁ c₁ h₁ => ?_
      refine (stmt_explains body (hP.declare hblock h₁)).capture.bind_still
        fun _ hrun m hm => ?_
      obtain ⟨rfl, -, rfl⟩ := runs_pure_iff.mp hrun
      rw [Stmt.mentions, Stmt.mentionsAll, append_nil] at hm
      rcases mem_cons.mp hm with rfl | hm
      · exact .inr fun hy => new_of_declare (hP.inner hblock) h₁ (hP.issued hblock hy)
      · exact .inl (mem_append_right _ hm)
    · obtain ⟨-, rfl⟩ := runs_write_iff.mp hrun
      exact mem_append_right _ (by simpa [Stmt.mentionsAll] using hm)
  | .branch _ test body rest, b, s, given, h => by
    rw [stmt, stmtLookups]
    exact condition_explains hP hexpand htrace test (advances_stmt hexpand body).inFrame
      (fun h => (stmt_explains body (hP.block h)).inFrame) (fun h => alternatives_explains rest h) h
  | .block _ body, b, s, given, h => by
    rw [stmt, stmtLookups]
    exact (stmts_explains body (hP.block h)).inFrame

theorem alternatives_explains : ∀ (rest : Surface.Alternatives) {b : Binders} {s : Compiler}
    {given : List (String × ValueType)}, P b s.scope →
    Explains P old given (fun _ => []) (alternatives expand rest) s
      (alternativesLookups expand trace rest b s)
  | .none, b, s, given, _ => by
    rw [alternatives, alternativesLookups]
    exact .pure (nil_subset _)
  | .otherwise body, b, s, given, h => by
    rw [alternatives, alternativesLookups]
    exact (stmt_explains body (hP.block h)).inFrame
  | .elseIf test body rest, b, s, given, h => by
    rw [alternatives, alternativesLookups]
    exact condition_explains hP hexpand htrace test (advances_stmt hexpand body).inFrame
      (fun h => (stmt_explains body (hP.block h)).inFrame) (fun h => alternatives_explains rest h) h

theorem stmts_explains : ∀ (ss : List Surface.Stmt) {b : Binders} {s : Compiler}
    {given : List (String × ValueType)}, P b s.scope →
    Explains P old given (fun _ => []) (stmts expand ss) s (stmtsLookups expand trace ss b s)
  | [], b, s, given, _ => by
    rw [stmts, stmtsLookups]
    exact .pure (nil_subset _)
  | st :: ss, b, s, given, h => by
    rw [stmts, stmtsLookups]
    exact (stmt_explains st h).bind fun _ s₁ c₁ h₁ => stmts_explains ss (hP.stmt h hexpand h₁)

end

theorem body_explains (ss : List Surface.Stmt) (h : P b s.scope) :
    Explains P old given (fun r => Expr.readsAll r.toList) (body expand ss) s
      (bodyLookups expand trace ss b s) := by
  induction ss generalizing b s given with
  | nil =>
    rw [body, bodyLookups]
    exact .pure (nil_subset _)
  | cons st ss ih =>
    by_cases hreturn : ∃ span e, st = .return_ span e
    · obtain ⟨span, e, rfl⟩ := hreturn
      rw [body, bodyLookups]
      exact (expr_explains hP hexpand htrace e h).bind_pure fun _ => by simp [Expr.readsAll]
    · have hother : ∀ span e, st = .return_ span e → False :=
        fun span e heq => hreturn ⟨span, e, heq⟩
      rw [body, bodyLookups]
      · exact (stmt_explains hP hexpand htrace st h).bind fun _ s₁ c₁ h₁ =>
          ih (hP.stmt h hexpand h₁)
      · exact hother
      · exact hother

end Bodies

/-! ## Expanded calls -/

section Expansion

variable {old : List String} {given : List (String × ValueType)}

theorem mentions_of_temporaries {bound : List (Surface.Param × Expr)}
    {done formals : Dictionary String} {s : Compiler} (hinner : s.scope.inner ≠ [])
    (hold : old ⊆ s.scope.issued.keys) (hargs : ∀ p ∈ bound, p.2.reads ⊆ given)
    (h : Runs (temporaries bound done) s formals s' code) :
    ∀ m ∈ mentionsAll code, m ∈ given ∨ m.1 ∉ old := by
  induction bound generalizing s done code with
  | nil =>
    obtain ⟨-, -, rfl⟩ := runs_pure_iff.mp h
    exact forall_mem_nil _
  | cons p bound ih =>
    rw [forall_mem_cons] at hargs
    obtain ⟨v, s₁, code, htemporary, hlater, rfl⟩ := runs_temporaries_cons h
    have hstep : Compiler.Step [] s s₁ := advances_temporary _ s v s₁ [] hinner htemporary
    rw [mentionsAll, mentions, forall_mem_append, forall_mem_cons]
    refine ⟨⟨.inr fun hv => (new_of_temporary hinner htemporary).1 (hold hv), ?_⟩, ?_⟩
    · exact fun m hm => .inl (hargs.1 hm)
    · exact ih (hstep.inner_ne_nil hinner) (List.Subset.trans hold hstep.keys_issued) hargs.2 hlater

/-- The lookups of an expanded call are made in the body of the function. -/
theorem follows_tracer {P : Binders → Scope → Prop} (hP : Carries old P) (levels : Nat) :
    (tracer levels).Follows P old (expander levels) := by
  induction levels with
  | zero =>
    intro b d args s given span _ _ _
    exact .still fun hrun => absurd hrun not_runs_fail
  | succ levels ih =>
    intro b d args s given span h hlength hargs
    have hreads : ∀ p ∈ d.function.params.zip args, p.2.reads ⊆ given :=
      fun p hp m hm => hargs (mem_readsAll_iff.mpr ⟨p.2, (of_mem_zip hp).2, hm⟩)
    have htemporaries : Explains P old given (fun _ => [])
        (temporaries (d.function.params.zip args) []) s [] :=
      .still fun hrun => mentions_of_temporaries (hP.inner h) (hP.issued h) hreads hrun
    have hbody := htemporaries.bind (f := fun formals =>
        inBody d formals (body (expander levels) d.function.body)) fun formals s₁ c₁ h₁ =>
      Explains.within (body_explains hP (advancing_expander levels) ih
        d.function.body (hP.enter h hlength h₁))
        fun hrun => (runs_inBody_iff.mp hrun).imp fun _ h => h.1
    refine ⟨hbody.places, fun hrun => ?_, fun hrun => ?_⟩
    all_goals
      obtain ⟨-, hrun⟩ := runs_expander_succ hrun
      obtain ⟨returns, formals, s₁, c₁, value, c₂, -, h₁, h₂, rfl, hr⟩ := runs_expandWith hrun
    · exact hbody.found (runs_bind_iff.mpr ⟨formals, s₁, c₁, c₂, h₁, h₂, rfl⟩)
    · have hmentions := hbody.mentions (runs_bind_iff.mpr ⟨formals, s₁, c₁, c₂, h₁, h₂, rfl⟩)
      rcases hr with ⟨e, t, e', rank, rfl, -, hrank, rfl⟩ | ⟨-, rfl⟩
      · intro m hm
        exact hmentions m (by simpa [readsAll, reads_of_coerce? hrank] using hm)
      · exact hmentions

end Expansion

end Compile

end DataMarks
