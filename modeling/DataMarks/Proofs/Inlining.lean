/-
  Expanded calls do what the functions do when they are called.

  An expanded call binds the parameters to temporaries, new variables that the scope finds
  by the names of the parameters (`Bound`), and then runs like the body of the function. All
  variables of the caller are guarded while it does, so the caller finds them as they were.
-/
import DataMarks.Proofs.StatementSimulation

namespace DataMarks.Direct

open Run Dictionary List Compile

/-! ## Parameters -/

/-- Parameters bound to temporaries: under the name that the scope has for it, each one is a new
variable with the value of the parameter's cell. -/
structure Bound (globals : Dictionary Variable) (old : List String) (s : Compiler) (env : Env)
    (formals : Dictionary String) (params : Dictionary Variable) (cells : Dictionary Cell) :
    Prop where
  inner : s.scope.inner ≠ []
  before : old ⊆ s.scope.issued.keys
  formals : ∀ x, formals.get? x = (params.get? x).map Variable.name
  shown : ∀ x v, params.get? x = some v → s.scope.get? v.name = some v
  holds : FrameHolds env params cells
  owned : ∃ owner, Owned owner globals [params]
  issued : ∀ x v, params.get? x = some v → v.unique ∈ s.scope.issued.keys
  avoids : ∀ x v, params.get? x = some v → v.unique ∉ old
  apart : ∀ x v, globals.get? x = some v → params.get? x = none

section Calls

variable {globals : Dictionary Variable} {old : List String} {s s' : Compiler} {env : Env}
  {formals done : Dictionary String} {params : Dictionary Variable} {cells : Dictionary Cell}
  {code : List Stmt}
variable {store : Store Cell}

/-- One more parameter gets a temporary. -/
theorem Bound.insert (h : Bound globals old s env formals params cells)
    (hglobals : ∀ x v, globals.get? x = some v → v.unique ∈ old) {p : String}
    (hp : globals.get? p = none) {v : Variable} {t : ValueType}
    (hrun : Compile.Runs (temporary t) s v s' []) (a : Value) :
    v.unique ∉ old ∧ Bound globals old s' (env.insert v.unique a) (formals.insert p v.name)
      (params.insert p v) (cells.insert p ⟨t, some a⟩) := by
  have hstep : Compiler.Step [] s s' := advances_temporary t s v s' [] h.inner hrun
  obtain ⟨hv, rfl, -⟩ := runs_temporary_iff.mp hrun
  obtain ⟨f, below, hf⟩ := exists_cons_of_ne_nil h.inner
  have htemporary : s.scope.temporary t = (v, (s.scope.temporary t).2) := by rw [hv]
  obtain ⟨-, htype, -, hfree, hscope⟩ := Scope.temporary_eq hf htemporary
  have hnew : v.unique ∉ s.scope.issued.keys := (not_mem_keys_iff _ _).mpr hfree
  obtain ⟨owner, howned⟩ := h.owned
  refine ⟨fun hold => hnew (h.before hold), ?_⟩
  exact {
    inner := hstep.inner_ne_nil h.inner
    before := fun x hx => hstep.keys_issued (h.before hx)
    formals := by
      intro x
      rw [get?_insert, get?_insert]
      split
      · rfl
      · exact h.formals x
    shown := by
      intro x w hw
      rcases get?_insert_cases hw with ⟨-, rfl⟩ | hw
      · show Scope.lookup _ (s.scope.temporary t).2.inner w.name = some w
        rw [hscope]
        exact Scope.lookup_vars (get?_insert_self w.name w f.vars)
      · exact hstep.get? h.inner not_mem_nil (h.shown x w hw)
    holds := by
      refine FrameHolds.insert (h.holds.congr fun x w hw => ?_) ⟨htype, ?_⟩
      · refine get?_insert_of_ne ?_ a env
        intro heq
        exact hnew (heq ▸ h.issued x w hw)
      · intro b hb
        cases hb
        exact get?_insert_self v.unique a env
    owned := by
      refine howned.insert ?_
      rintro w (⟨x, hw⟩ | ⟨g, hg, x, hw⟩) heq
      · exact hnew (heq ▸ h.before (hglobals x w hw))
      · obtain rfl := mem_singleton.mp hg
        exact hnew (heq ▸ h.issued x w hw)
    issued := by
      intro x w hw
      rcases get?_insert_cases hw with ⟨-, rfl⟩ | hw
      · show w.unique ∈ (s.scope.temporary t).2.issued.keys
        rw [hscope]
        exact mem_keys_insert_self _ _ _
      · exact hstep.keys_issued (h.issued x w hw)
    avoids := by
      intro x w hw
      rcases get?_insert_cases hw with ⟨-, rfl⟩ | hw
      · exact fun hold => hnew (h.before hold)
      · exact h.avoids x w hw
    apart := by
      intro x w hw
      rw [get?_insert_of_ne, h.apart x w hw]
      rintro rfl
      rw [hp] at hw
      cases hw }

theorem temporaries_run (hglobals : ∀ x v, globals.get? x = some v → v.unique ∈ old)
    {bound : List (Surface.Param × Expr)} {args : List (Surface.Param × Typed)}
    (hargs : Forall₂ (fun b c => b.1 = c.1 ∧ Denotes old env b.2 c.2) bound args)
    (hnames : ∀ b ∈ bound, globals.get? b.1.name = none)
    (h : Bound globals old s env done params cells)
    (hrun : Compile.Runs (temporaries bound done) s formals s' code) :
    ∃ env' params', Stmt.runAll code env = .ok (.finished env' []) ∧ Kept old env env' ∧
      Bound globals old s' env' formals params' (bindParams args cells) := by
  induction bound generalizing args s env done params cells code with
  | nil =>
    cases hargs
    obtain ⟨rfl, rfl, rfl⟩ := runs_pure_iff.mp hrun
    exact ⟨env, params, by rw [Stmt.runAll], .refl _ _, h⟩
  | cons b bound ih =>
    cases hargs with
    | @cons _ c _ args hbc hrest =>
      obtain ⟨p, e⟩ := b
      obtain ⟨q, a⟩ := c
      obtain ⟨hpq, hdenotes⟩ := hbc
      obtain rfl : p = q := hpq
      rw [forall_mem_cons] at hnames
      obtain ⟨v, s₁, c, htemporary, hlater, rfl⟩ := runs_temporaries_cons hrun
      obtain ⟨hold, hbound⟩ := h.insert hglobals hnames.1 htemporary a.value
      rw [hdenotes.type] at hbound
      have hkept : Kept old env (env.insert v.unique a.value) := Kept.insert hold
      have hargs : Forall₂
          (fun b c => b.1 = c.1 ∧ Denotes old (env.insert v.unique a.value) b.2 c.2) bound args :=
        hrest.imp fun b c hbc => ⟨hbc.1, hbc.2.kept hkept (List.Subset.refl _)⟩
      obtain ⟨env', params', hrun', hkept', hbound'⟩ := ih hargs hnames.2 hbound hlater
      refine ⟨env', params', ?_, hkept.trans hkept', hbound'⟩
      refine Stmt.runAll_cons_finished_iff.mpr ⟨_, [], [], ?_, hrun', rfl⟩
      exact Stmt.run_assign_finished_iff.mpr ⟨a.value, hdenotes.eval, rfl, rfl⟩

variable {α : Type} {expand : Compile.Expander} {r : Resolver} {fs : List (Dictionary Variable)}
  {d : Definition} {es : List Expr} {vs : List Typed} {res : Option Expr}

theorem forall₂_zip {β γ : Type} {R : β → γ → Prop} (ps : List α) {bs : List β} {cs : List γ}
    (h : Forall₂ R bs cs) :
    Forall₂ (fun b c => b.1 = c.1 ∧ R b.2 c.2) (ps.zip bs) (ps.zip cs) := by
  induction ps generalizing bs cs with
  | nil => exact .nil
  | cons p ps ih =>
    cases h with
    | nil => exact .nil
    | cons hbc hrest => exact .cons ⟨rfl, hbc⟩ (ih hrest)

section Spares

variable {d : Definition} (h : Spares globals d)

include h

theorem Spares.get?_eq_none {x : String} (hx : x ∈ d.function.params.map Surface.Param.name ++
    d.function.locals ++ d.function.assigned) : globals.get? x = none := by
  exact (not_mem_keys_iff _ _).mp (h x hx)

theorem Spares.param {p : Surface.Param} (hp : p ∈ d.function.params) :
    globals.get? p.name = none :=
  h.get?_eq_none (mem_append_left _ (mem_append_left _ (mem_map_of_mem hp)))

/-- A function that leaves the globals alone may do what its statements do. -/
theorem Spares.permitted (guarded : List String) :
    ∀ t ∈ Surface.Stmt.partsAll d.function.body, Permitted globals guarded t := by
  intro t ht
  constructor
  · intro x hx
    exact h.get?_eq_none (mem_append_left _ (mem_append_right _ (mem_flatMap.mpr ⟨t, ht, hx⟩)))
  · intro x hx v hv
    rw [h.get?_eq_none (mem_append_right _ (mem_flatMap.mpr ⟨t, ht, hx⟩))] at hv
    cases hv

end Spares

/-- The body of a function, seen from its caller. -/
theorem inCallee_simulates {P : Definition → Prop} {o : Except EvalError Outcome}
    {post : α → Store Cell → Env → Prop} {x : Run α}
    (h : Simulates P o (fun a store' => post a { store' with frames := store.frames })
      (x { store with frames := [cells] })) : Simulates P o post (inCallee cells x store) := by
  unfold inCallee
  refine Simulates.bind_done rfl (Simulates.bind_done rfl (h.last ?_))
  intro a store₁ env₁ hpost
  exact Simulates.bind_done rfl (Simulates.finished hpost)

section Frames

variable {r : Resolver} {fs : List (Dictionary Variable)} {store : Store Cell} {s₁ : Compiler}
  {env₁ : Env}

theorem Linked.bound_nil (h : Linked r globals fs s env store) :
    Bound globals s.scope.issued.keys s env [] [] [] where
  inner := h.inner
  before := List.Subset.refl _
  formals := fun _ => rfl
  shown := nofun
  holds := .nil
  owned := by
    obtain ⟨owner, howned⟩ := h.fits.owned
    exact ⟨owner, nofun, howned.nil⟩
  issued := nofun
  avoids := nofun
  apart := fun _ _ _ => rfl

/-- The body of a function starts with its parameters, and all variables of the caller guarded. -/
theorem Linked.callee (h : Linked r globals fs s env store) (hstep : Compiler.Step [] s s₁)
    (hkept : Kept s.scope.issued.keys env env₁)
    (hbound : Bound globals s.scope.issued.keys s₁ env₁ formals params cells) (d : Definition) :
    Guarded (r.enter d.module) globals [params] s.scope.issued.keys
      (s₁.enter d formals) env₁ { store with frames := [cells] } where
  resolver := by
    show s₁.resolver.enter d.module = r.enter d.module
    rw [hstep.resolver, h.resolver]
  inner := cons_ne_nil _ _
  fits := (h.fits.step h.inner hstep).callee hbound.formals hbound.shown hbound.apart
    hbound.owned hbound.issued
  holds := {
    globals := h.holds.globals.congr fun x v hx => hkept _ (h.fits.issued v (.inl ⟨x, hx⟩))
    frames := .cons hbound.holds .nil }
  avoids := by
    intro f hf
    obtain rfl := mem_singleton.mp hf
    exact hbound.avoids
  issued := hbound.before

/-- Behind a call, the caller finds its variables as they were. -/
theorem Linked.caller (h : Linked r globals fs s env store) (hstep : Compiler.Step [] s s')
    (hkept : Kept s.scope.issued.keys env env₁) {store₁ : Store Cell}
    (hglobals : FrameHolds env₁ globals store₁.globals) :
    Reached r globals fs s env s' { store₁ with frames := store.frames } env₁ where
  grows := hstep.keys_issued
  kept := hkept
  linked := {
    resolver := hstep.resolver.trans h.resolver
    inner := hstep.inner_ne_nil h.inner
    fits := h.fits.step h.inner hstep
    holds := {
      globals := hglobals
      frames := (h.holds.congr fun v hv => hkept _ (h.fits.issued v hv)).frames } }

end Frames

/-- The body of a function that is expanded, with its arguments in temporaries, does what it does
when it is called. -/
theorem inBody_evaluates {invoke : Invoker} (hfollows : Follows expand invoke)
    (h : Linked r globals fs s env store) (hspares : Spares globals d)
    (hargs : Forall₂ (Denotes s.scope.issued.keys env) es vs) {s₁ : Compiler}
    {c₁ c₂ : List Stmt}
    (htemporaries : Compile.Runs (Compile.temporaries (d.function.params.zip es) []) s formals
      s₁ c₁)
    (hbody : Compile.Runs (Compile.inBody d formals (Compile.body expand d.function.body)) s₁ res
      s' c₂) :
    Evaluates r globals fs s env s' (c₁ ++ c₂)
      (fun names env' => Option.Rel (Denotes names env') res)
      (inCallee (bindParams (d.function.params.zip vs) [])
        (body invoke (r.enter d.module) d.function.body) store) := by
  have hstep₁ : Compiler.Step [] s s₁ :=
    advances_temporaries _ [] s formals s₁ c₁ h.inner htemporaries
  have hstep₂ : Compiler.Step [] s₁ s' :=
    (advances_body hfollows.advancing d.function.body).inBody s₁ res s' c₂
      (hstep₁.inner_ne_nil h.inner) hbody
  have hnames : ∀ b ∈ d.function.params.zip es, globals.get? b.1.name = none := by
    intro b hb
    exact hspares.param (of_mem_zip hb).1
  obtain ⟨env₁, params, hc₁, hkept₁, hbound⟩ := temporaries_run
    (fun x v hx => h.fits.issued v (.inl ⟨x, hx⟩)) (forall₂_zip d.function.params hargs) hnames
    h.bound_nil htemporaries
  have hcode : Stmt.runAll (c₁ ++ c₂) env = Stmt.runAll c₂ env₁ := by
    rw [Stmt.runAll_append, hc₁]
    exact Outcome.andThen_nil env₁ _
  obtain ⟨s₂, hinner, hs'⟩ := runs_inBody_iff.mp hbody
  have hissued : s'.scope.issued = s₂.scope.issued := by
    rw [hs']
    rfl
  unfold Evaluates
  rw [hcode]
  refine inCallee_simulates ((body_runs hfollows d.function.body
    (h.callee hstep₁ hkept₁ hbound d) (hspares.permitted _) hinner).mono ?_)
  rintro v store₂ env₂ ⟨⟨fs₂, -, hkept₂, hplace₂⟩, hv⟩
  rw [hissued]
  exact ⟨h.caller (hstep₁.trans hstep₂) (hkept₁.trans hkept₂) hplace₂.holds.globals, hv⟩

/-- An expanded call does what the function does when it is called. -/
theorem expandWith_evaluates {depth : Nat} (hfollows : Follows expand (invoke depth))
    (h : Linked r globals fs s env store) {span : Span}
    (hargs : Forall₂ (Denotes s.scope.issued.keys env) es vs)
    (hrun : Compile.Runs (Compile.expandWith expand span d es) s res s' code) :
    Evaluates r globals fs s env s' code (fun names env' => Option.Rel (Denotes names env') res)
      (invoke (depth + 1) r d vs store) := by
  obtain ⟨returns, formals, s₁, c₁, value, c₂, hreturns, htemporaries, hbody, rfl, hres⟩ :=
    Compile.runs_expandWith hrun
  rw [invoke]
  refine Evaluates.bind_call fun hspares => ?_
  unfold typeOf
  rw [hreturns]
  refine Evaluates.bind_done rfl ?_
  refine (inBody_evaluates hfollows h hspares hargs htemporaries hbody).last ?_
  intro v store₁ env₁ hreached hv
  rcases hres with ⟨e, t, e', rank, rfl, rfl, hcoerce, rfl⟩ | ⟨hnone, rfl⟩
  · cases hv with
    | some hv =>
      refine Evaluates.bind_done (hv.convert hcoerce store₁) ?_
      exact .done hreached.linked (.some (hv.coerce hcoerce))
  · have hend : Evaluates r globals fs s' env₁ s' []
        (fun names env' => Option.Rel (Denotes names env') res) (.done v store₁ []) :=
      .done hreached.linked hv
    cases hv with
    | none => exact hend
    | some hv =>
      rcases hnone with hvalue | rfl
      · cases hvalue
      · exact hend

/-- Calls are expanded to code that does what the functions do, at any depth. -/
theorem follows_expander (levels depth : Nat) :
    Follows (expander levels) (invoke depth) := by
  induction levels generalizing depth with
  | zero =>
    refine ⟨advancing_expander 0, ?_⟩
    intro r globals fs s env store span d es vs res s' code _ _ hrun
    exact absurd hrun not_runs_fail
  | succ levels ih =>
    refine ⟨advancing_expander (levels + 1), ?_⟩
    intro r globals fs s env store span d es vs res s' code h hargs hrun
    cases depth with
    | zero => exact True.intro
    | succ depth =>
      exact expandWith_evaluates (ih depth) h hargs (runs_expander_succ hrun).2

end Calls

end DataMarks.Direct
