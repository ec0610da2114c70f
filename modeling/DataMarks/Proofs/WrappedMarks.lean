/-
  Marks that do nothing but call another mark with their own parameters.

  Such a wrapper is compiled to assignments of its inputs to temporaries and, behind these,
  to the body of the other mark with its parameters forwarded (`Compile.functionWithin_wraps`).
  So it has the same inputs and outputs and leaves the same vertices
  (`Specification.Wraps.toOption_evaluate`), in any file with the wrapper that is accepted
  (`File.evaluate_wrapper`). A name of a parameter that is also the name of a constant means the
  constant in either body, so nothing reads such a parameter.
-/
import DataMarks.Proofs.AcceptedFiles
import DataMarks.Proofs.MirroredBodies
import DataMarks.Proofs.PassedArguments

namespace DataMarks

open Dictionary List Surface

namespace Surface

/-- Parameters with the same name, type and default. -/
structure Param.Alike (p q : Param) : Prop where
  name : q.name = p.name
  type : q.type.name = p.type.name
  default : q.default = p.default

/-- A mark with the parameters of `f` whose body is a call of `f` with these. -/
structure Function.Wraps (g f : Function) : Prop where
  kind : g.kind = .mark
  returns : g.returns = none
  params : Forall₂ Param.Alike f.params g.params
  body : ∃ span args, g.body = [.expr (.call span f.name args [])] ∧
    Forall₂ (fun p a => ∃ span, a = .name span p.name) g.params args

/-- The wrapper of a given name. -/
def Function.wrapper (f : Function) (name : String) : Function where
  span := default
  kind := .mark
  name := name
  params := f.params
  returns := none
  body := [.expr (.call default f.name (f.params.map fun p => .name default p.name) [])]

theorem Function.wrapper_wraps (f : Function) (name : String) : (f.wrapper name).Wraps f where
  kind := rfl
  returns := rfl
  params := forall₂_same.mpr fun _ _ => ⟨rfl, rfl, rfl⟩
  body := ⟨default, _, rfl, forall₂_map_right_iff.mpr (forall₂_same.mpr fun _ _ => ⟨default, rfl⟩)⟩

theorem Function.Wraps.isRenderable {g f : Function} (h : g.Wraps f) : g.isRenderable = true := by
  rw [Function.isRenderable, h.kind]
  rfl

theorem Function.Wraps.exists_alike {g f : Function} (h : g.Wraps f) {q : Param}
    (hq : q ∈ g.params) : ∃ p ∈ f.params, p.Alike q := by
  obtain ⟨n, hn, rfl⟩ := getElem_of_mem hq
  have hlength := h.params.length_eq
  exact ⟨f.params[n], getElem_mem _, h.params.get (hlength ▸ hn) hn⟩

end Surface

/-- What the name of a parameter means in the body of a mark: a constant of the name, or else the
input. -/
inductive Refers (p : Surface.Param) : Expr → Prop
  | constant {c : Constant} (name : Catalog.constant? p.name = some c) :
      Refers p (.const c.type c.value)
  | input {t : ValueType} (name : Catalog.constant? p.name = none)
      (type : ValueType.ofName? p.type.name = some t) : Refers p (.var t p.name)

/-- The call in a wrapper means the function that it wraps. -/
def Surface.Function.CallMeans (g f : Surface.Function) (r : Resolver) : Prop :=
  ∃ args fit, Forall₂ Refers g.params args ∧
    r.resolve f.name ⟨args, []⟩ = .ok (.defined ⟨none, f⟩, fit)

/-! ## Arguments -/

variable {args : List Expr} {ps : List Param} {fit : Fit}

/-- Parameters of an expression's own type get just that expression, and all others a converted
one. -/
theorem passedOn_of_bindFormals {qs : List Param} (hparams : Forall₂ Param.Alike ps qs)
    (hargs : Forall₂ Refers qs args)
    (h : Overload.bindFormals [] (ps.map fun p =>
      ⟨some p.name, ValueType.ofName? p.type.name, p.default⟩) args = some fit) :
    Forall₂ PassedOn ps fit.args := by
  induction hparams generalizing args fit with
  | nil =>
    cases h
    exact .nil
  | @cons p q ps qs hpq _ ih =>
    cases hargs with
    | @cons _ a _ args ha hargs =>
      rw [map_cons, Overload.bindFormals_cons] at h
      obtain ⟨t, ht, h⟩ := Option.bind_eq_some_iff.mp h
      obtain ⟨arg, harg, h⟩ := Option.bind_eq_some_iff.mp h
      obtain ⟨coerced, hcoerced, h⟩ := Option.bind_eq_some_iff.mp h
      obtain ⟨rest, hrest, h⟩ := Option.bind_eq_some_iff.mp h
      cases h
      cases harg
      refine .cons ?_ (ih hargs hrest)
      cases ha with
      | constant hname =>
        rw [hpq.name] at hname
        exact .constant hname ht hcoerced
      | input hname htype =>
        rw [hpq.name] at hname hcoerced
        rw [hpq.type] at htype
        obtain rfl := Option.some.inj (ht.symm.trans htype)
        have hself : (Expr.var t p.name).coerce? t = some (.var t p.name, 0) := if_pos rfl
        obtain rfl := Option.some.inj (hself.symm.trans hcoerced)
        exact .input hname ht

theorem Surface.Function.Wraps.passedOn {g f : Function} (h : g.Wraps f)
    {args : List DataMarks.Expr} (hargs : Forall₂ Refers g.params args) {r : Resolver}
    (hresolve : r.resolve f.name ⟨args, []⟩ = .ok (.defined ⟨none, f⟩, fit)) :
    Forall₂ PassedOn f.params fit.args := by
  obtain ⟨b, hb, hfits⟩ := Option.bind_eq_some_iff.mp (Resolver.resolve_ok hresolve).2
  split at hfits
  · cases hfits
    exact passedOn_of_bindFormals h.params hargs hb
  · cases hfits

namespace Compile

/-! ## Inputs -/

/-- Compilations with the same scope and outputs. -/
structure SameScope (c c' : Setting) (s t : Compiler) : Prop where
  scope : t.scope = s.scope
  outputs : t.outputs = s.outputs
  setting : s.setting = c
  setting' : t.setting = c'

section Inputs

variable {w : Forwarding} {bad : Prop} {R : Compiler → Compiler → Prop} {c c' : Setting}

theorem valueType_tracks {n n' : Surface.TypeName} (h : n'.name = n.name) :
    Tracks w bad R (fun a b => a = b) (valueType n) (valueType n') := by
  intro s t a s' code hst hrun
  obtain ⟨ha, rfl, rfl⟩ := runs_valueType_iff.mp hrun
  exact .of_runs (runs_valueType_iff.mpr ⟨by rw [h, ha], rfl, rfl⟩) ⟨rfl, hst, .nil⟩

theorem defaultValue_tracks (span span' : Span) (t : ValueType) (v : Option Value) :
    Tracks w bad R (fun a b => a = b) (defaultValue span t v) (defaultValue span' t v) := by
  unfold defaultValue
  split
  · exact .pure rfl
  · split
    · exact .pure rfl
    · exact .fail _ _

theorem SameScope.withScope {s t : Compiler} (h : SameScope c c' s t) (scope : Scope) :
    SameScope c c' { s with scope } { t with scope } :=
  ⟨rfl, h.outputs, h.setting, h.setting'⟩

theorem globalInputs_tracks (gs : List Global) (done : Dictionary Input) :
    Tracks w bad (SameScope c c') (fun a b => a = b) (globalInputs gs done)
      (globalInputs gs done) := by
  induction gs generalizing done with
  | nil => exact .pure rfl
  | cons g gs ih =>
    refine (valueType_tracks rfl).bind fun t t' ht => ?_
    subst ht
    have hdeclare : Tracks w bad (SameScope c c') (fun _ _ => True) (declareGlobal g.span g.name t)
        (declareGlobal g.span g.name t) := by
      refine Tracks.state_bind fun s u hsu => ?_
      rw [hsu.scope]
      split
      · exact .update fun s₁ u₁ h => h.withScope _
      · exact .fail _ _
    refine hdeclare.bind fun _ _ _ => (defaultValue_tracks _ _ _ _).bind fun v v' hv => ?_
    subst hv
    exact ih _

theorem paramInputs_tracks {qs : List Param} (h : Forall₂ Param.Alike ps qs)
    (done : Dictionary Input) :
    Tracks w bad (SameScope c c') (fun a b => a = b) (paramInputs ps done)
      (paramInputs qs done) := by
  induction h generalizing done with
  | nil => exact .pure rfl
  | @cons p q ps qs hpq _ ih =>
    refine (valueType_tracks hpq.type).bind fun t t' ht => ?_
    subst ht
    have hdeclare : Tracks w bad (SameScope c c') (fun _ _ => True) (declare p.span p.name t)
        (declare q.span p.name t) := by
      refine Tracks.state_bind fun s u hsu => ?_
      rw [hsu.scope]
      split
      · exact (Tracks.update fun s₁ u₁ h => h.withScope _).bind fun _ _ _ => .pure trivial
      · exact .fail _ _
    rw [hpq.default, hpq.name]
    refine hdeclare.bind fun _ _ _ => (defaultValue_tracks _ _ _ _).bind fun v v' hv => ?_
    subst hv
    exact ih _

end Inputs

end Compile

/-! ## Bodies -/

/-- Code that passes inputs on in temporaries and then does what other code does. -/
inductive Stmt.Wrapped (inputs : Dictionary Input) (code : List Stmt) : List Stmt → Prop
  | intro {bound : List (Surface.Param × Expr)} {hplain : ∀ b ∈ bound, Name.Plain b.1.name}
      {hnodup : (bound.map fun b => b.1.name).Nodup} {rest : List Stmt}
      (passes : ∀ b ∈ bound, PassedOn b.1 b.2) (given : ∀ b ∈ bound, b.1.name ∈ inputs.keys)
      (same : (Passed.forwarding hplain hnodup).SameCode code rest) :
      Wrapped inputs code (Passed.code (Passed.numbered 0 bound) ++ rest)

/-- A mark `f` that is compiled in one setting can be expanded in a wrapper `g` in another one. A
variable of the body that hides a parameter is `bad`. -/
structure Surface.Function.Expands (bad : Prop) (f g : Surface.Function) (c c' : Setting) :
    Prop where
  setting : c.Extends bad g (c'.enter ⟨none, f⟩)
  mentions : ∀ m ∈ f.mentions, m.Allowed bad g
  returns : ∃ r, f.returns.mapM (fun n => ValueType.ofName? n.name) = some r
  declares : ∀ x ∈ f.body.flatMap Surface.Stmt.declares, x ∈ f.params.map Surface.Param.name → bad

namespace Compile

/-- Two compilations where the body of `f` and that of a wrapper start. -/
structure Begin (f : Surface.Function) (inputs : Dictionary Input) (s t : Compiler) : Prop where
  scope : InputScope s.scope inputs
  plain : ∀ x ∈ inputs.keys, Name.Plain x
  types : ∀ p ∈ f.params, (inputs.get? p.name).map Input.type = ValueType.ofName? p.type.name
  nodup : (f.params.map Surface.Param.name).Nodup
  sameScope : t.scope = s.scope
  sameOutputs : t.outputs = s.outputs

section Bodies

variable {bad : Prop} {f g : Function} {s s' t : Compiler} {inputs : Dictionary Input}
  {code : List Stmt} {levels : Nat}

/-- Names of inputs are compiled to the inputs, unless constants have the names. -/
theorem runs_exprs_refers {expand : Expander} {es : List Surface.Expr}
    (hscope : InputScope s.scope inputs)
    (hes : Forall₂ (fun p e => ∃ span, e = .name span p.name) ps es)
    (hargs : Forall₂ Refers ps args)
    (htypes : ∀ p ∈ ps, (inputs.get? p.name).map Input.type = ValueType.ofName? p.type.name) :
    Runs (exprs expand es) (s.push []) args
      (s.push []) [] := by
  induction hes generalizing args with
  | nil =>
    cases hargs
    rw [exprs]
    exact runs_pure_iff.mpr ⟨rfl, rfl, rfl⟩
  | @cons p e ps es he _ ih =>
    obtain ⟨span, rfl⟩ := he
    rw [forall_mem_cons] at htypes
    cases hargs with
    | @cons _ a _ args ha hargs =>
      have hname : Runs (expr expand (.name span p.name)) (s.push []) a
          (s.push []) [] := by
        rw [expr]
        cases ha with
        | constant hconstant =>
          rw [hconstant]
          exact runs_pure_iff.mpr ⟨rfl, rfl, rfl⟩
        | @input t hconstant htype =>
          rw [hconstant]
          obtain ⟨i, hi, hit⟩ := Option.map_eq_some_iff.mp (htypes.1.trans htype)
          have hget : (s.scope.push []).get? p.name = some ⟨p.name, t, p.name⟩ := by
            rw [Scope.get?, Scope.push, Scope.lookup_below rfl rfl, hscope.inner]
            show s.scope.outermost.vars.get? p.name = _
            rw [hscope.get?_vars, hi, Option.map_some, hit]
          exact runs_bind_iff.mpr ⟨_, _, [], [], runs_variable_iff.mpr ⟨hget, rfl, rfl⟩,
            runs_pure_iff.mpr ⟨rfl, rfl, rfl⟩, rfl⟩
      rw [exprs]
      exact runs_bind_iff.mpr ⟨a, _, [], [], hname, runs_bind_iff.mpr ⟨args, _, [], [],
        ih hargs htypes.2, runs_pure_iff.mpr ⟨rfl, rfl, rfl⟩, rfl⟩, rfl⟩

/-- A call that passes all parameters on expands to what the body is compiled to by itself, behind
the assignments of the parameters. -/
theorem expandWith_passes (hf : f.Expands bad g s.setting t.setting) (hbegin : Begin f inputs s t)
    (hargs : Forall₂ PassedOn f.params args)
    (hrun : Runs (inBlock (stmts (expander levels) f.body)) s () s' code) (span : Span) :
    Leads bad (expandWith (expander levels) span ⟨none, f⟩ args)
      (t.push []) fun _ t' code' =>
        t'.outputs = s'.outputs ∧ Stmt.Wrapped inputs code code' := by
  have hmentions := hf.mentions
  rw [Function.mentions, forall_mem_append] at hmentions
  have hzip : (f.params.zip args).map Prod.fst = f.params := map_fst_zip (le_of_eq hargs.length_eq)
  have hnames : (f.params.zip args).map (fun b => b.1.name) = f.params.map Param.name := by
    conv_rhs => rw [← hzip, map_map]
    rfl
  have hpasses : ∀ b ∈ f.params.zip args, PassedOn b.1 b.2 := fun b hb => forall₂_zip hargs hb
  have hmem : ∀ b ∈ f.params.zip args, b.1 ∈ f.params := fun b hb => (of_mem_zip hb).1
  have hplain : ∀ b ∈ f.params.zip args, Name.Plain b.1.name := fun b hb =>
    (hmentions.1 (.variable b.1.name) (mem_map_of_mem (hmem b hb))).plain
  have htyped : ∀ b ∈ f.params.zip args,
      (inputs.get? b.1.name).map Input.type = some b.2.type := fun b hb => by
    rw [hbegin.types _ (hmem b hb), (hpasses b hb).type]
  have hgiven : ∀ b ∈ f.params.zip args, b.1.name ∈ inputs.keys := fun b hb => by
    rw [mem_keys_iff, ← Option.isSome_map, htyped b hb]
    rfl
  have hnodup := hbegin.nodup
  rw [← hnames] at hnodup
  obtain ⟨returns, hreturns⟩ := hf.returns
  obtain ⟨s₁, hstmts, rfl⟩ := runs_inFrame_iff.mp hrun
  -- the arguments go to the first temporaries
  have hcounts : (t.scope.push []).Counts 0 := by
    rw [hbegin.sameScope]
    exact (hbegin.scope.counts hbegin.plain).push (forall_mem_nil _)
  have hinner : (t.scope.push []).inner = [{}] := by
    rw [Scope.push, hbegin.sameScope, hbegin.scope.inner]
  obtain ⟨scope, hpassed, hpassedScope, hcounts'⟩ := runs_temporaries
    (t := t.push []) hinner hcounts
    (show (Dictionary.keys [] ++ _).Nodup from hnodup)
  -- and the body starts where these are forwarded to
  have hplaced : Placed (Passed.forwarding hplain hnodup) bad 0
      (f.body.flatMap Surface.Stmt.declares) := by
    intro _ x hx hformal
    refine hf.declares x hx ?_
    rw [← hnames, ← Passed.map_param_numbered 0]
    simpa [Passed.forwarding, Passed.formals, Dictionary.keys] using hformal
  have hmirrors : (Passed.forwarding hplain hnodup).Mirrors 0 (s.scope.push [])
      (scope.push (Passed.formals (Passed.numbered 0 (f.params.zip args)))) :=
    Passed.mirrors hbegin.scope hbegin.plain htyped (by rw [hpassedScope]; rfl)
      (by rw [hpassedScope, ← hbegin.sameScope]; rfl)
      (by rw [hpassedScope, ← hbegin.sameScope]; rfl) (by simpa using hcounts')
  have hbody := body_tracks_stmts (k := 0) hf.setting
    (expander_track (le_refl levels) hf.setting) hmentions.2 hplaced
    (s.push [])
    { t with
      scope := scope.push (Passed.formals (Passed.numbered 0 (f.params.zip args)))
      resolver := t.resolver.enter none
      callStack := Definition.key ⟨none, f⟩ :: t.callStack }
    () s₁ code ⟨hmirrors, hbegin.sameOutputs, rfl, rfl⟩ hstmts
  unfold expandWith
  refine .of_runs_bind (runs_valueType?_iff.mpr ⟨hreturns, rfl, rfl⟩) (.of_runs_bind hpassed ?_)
  refine Leads.bind (Leads.inBody hbody) fun r t' rest hr => ?_
  obtain ⟨t₁, ⟨rfl, hstates, hcode⟩, rfl⟩ := hr
  refine .of_runs (runs_pure_iff.mpr ⟨rfl, rfl, rfl⟩) ⟨hstates.outputs, ?_⟩
  simpa using Stmt.Wrapped.intro hpasses hgiven hcode

/-- The body of a wrapper is compiled to what it wraps. -/
theorem stmts_wraps (hwraps : g.Wraps f) (hf : f.Expands bad g s.setting t.setting)
    (hbegin : Begin f inputs s t) (hargs : Forall₂ Refers g.params args)
    (hresolve : t.resolver.resolve f.name ⟨args, []⟩ = .ok (.defined ⟨none, f⟩, fit))
    (hkey : (none, f.name) ∉ t.callStack)
    (hrun : Runs (inBlock (stmts (expander levels) f.body)) s () s' code) :
    Leads bad (inBlock (stmts (expander (levels + 1)) g.body)) t fun _ t' code' =>
      t'.outputs = s'.outputs ∧ Stmt.Wrapped inputs code code' := by
  obtain ⟨span, es, hbody, hes⟩ := hwraps.body
  have hparams : ∀ q ∈ g.params,
      (inputs.get? q.name).map Input.type = ValueType.ofName? q.type.name := by
    intro q hq
    obtain ⟨p, hp, hpq⟩ := hwraps.exists_alike hq
    rw [hpq.name, hpq.type]
    exact hbegin.types p hp
  have hfit := hwraps.passedOn hargs hresolve
  have hcall : Leads bad (call (expander (levels + 1)) span f.name ⟨args, []⟩)
      (t.push []) fun _ t' code' =>
        t'.outputs = s'.outputs ∧ Stmt.Wrapped inputs code code' := by
    have hexpand : call (expander (levels + 1)) span f.name ⟨args, []⟩
          (t.push []) =
        expandWith (expander levels) span ⟨none, f⟩ fit.args
          (t.push []) := by
      rw [call_of_defined (s := t.push []) hresolve, expander_succ,
        unlessRecursive_apply]
      exact if_neg hkey
    exact .congr hexpand (expandWith_passes hf hbegin hfit hrun span)
  have hexprs : Runs (exprs (expander (levels + 1)) es) (t.push []) args
      (t.push []) [] :=
    runs_exprs_refers (hbegin.sameScope ▸ hbegin.scope) hes hargs hparams
  have hnil : ∀ {u}, Runs (keywordExprs (expander (levels + 1)) []) u [] u [] := by
    intro u
    rw [keywordExprs]
    exact runs_pure_iff.mpr ⟨rfl, rfl, rfl⟩
  have hpure : ∀ {u : Compiler}, Runs (pure ()) u () u [] := runs_pure_iff.mpr ⟨rfl, rfl, rfl⟩
  have hstmt : Leads bad (stmt (expander (levels + 1)) (.expr (.call span f.name es [])))
      (t.push []) fun _ t' code' =>
        t'.outputs = s'.outputs ∧ Stmt.Wrapped inputs code code' := by
    rw [stmt]
    refine .of_runs_bind hexprs (.of_runs_bind hnil (hcall.bind fun _ t' code' h => ?_))
    exact .of_runs hpure (by simpa using h)
  have hstmts : Leads bad (stmts (expander (levels + 1)) g.body)
      (t.push []) fun _ t' code' =>
        t'.outputs = s'.outputs ∧ Stmt.Wrapped inputs code code' := by
    rw [hbody, stmts, stmts]
    exact hstmt.bind fun _ t' code' h => .of_runs hpure (by simpa using h)
  refine hstmts.inFrame.imp fun _ t' code' h => ?_
  obtain ⟨t₁, h, rfl⟩ := h
  exact h

end Bodies

end Compile

/-! ## Specifications -/

/-- `spec'` passes its inputs on in temporaries to the code of `spec`. -/
structure Specification.Wraps (spec' spec : Specification) : Prop where
  inputs : spec'.inputs = spec.inputs
  outputs : spec'.outputs = spec.outputs
  plain : ∀ x ∈ spec.inputs.keys, Name.Plain x
  statements : Stmt.Wrapped spec.inputs spec.statements spec'.statements

/-- Both fail, or both leave the same vertices. -/
theorem Specification.Wraps.toOption_evaluate {spec' spec : Specification} (h : spec'.Wraps spec)
    (given : Dictionary Value) :
    (spec'.evaluate given).toOption = (spec.evaluate given).toOption := by
  have hstatements := h.statements
  generalize hwhole : spec'.statements = whole at hstatements
  obtain @⟨bound, hplain, hnodup, code, hpassed, hkeys, hcode⟩ := hstatements
  rw [evaluate, evaluate, h.inputs, toOption_bind, toOption_bind]
  cases henv : bindInputs given spec.inputs with
  | error e => rfl
  | ok env =>
    have henvKeys := keys_of_bindInputs henv
    have hheld : ∀ b ∈ bound, ∃ v, env.get? b.1.name = some v := by
      intro b hb
      have hb := hkeys b hb
      rw [← henvKeys] at hb
      exact exists_of_mem_keys hb
    have hfree : ∀ i, env.get? (Name.candidate "tmp" i) = none := by
      intro i
      rw [← not_mem_keys_iff, henvKeys]
      exact fun hmem => Name.not_plain_candidate i (h.plain _ hmem)
    obtain ⟨env', hrun, hfollows⟩ :=
      Passed.follows hplain hnodup hpassed hheld hfree
    have hends := Stmt.runAll_rename (Forwarding.unique_injective _) hcode.reads hfollows
    rw [← hcode.eq] at hends
    have hrest : Stmt.runAll spec'.statements env = Stmt.runAll code env' := by
      rw [hwhole, Stmt.runAll_append, hrun]
      exact Outcome.andThen_nil env' (Stmt.runAll code)
    show ((Stmt.runAll spec'.statements env >>= fun o => pure o.vertices).toOption) =
      (Stmt.runAll spec.statements env >>= fun o => pure o.vertices).toOption
    rw [hrest]
    generalize Stmt.runAll spec.statements env = r at hends ⊢
    generalize Stmt.runAll code env' = r' at hends ⊢
    cases hends with
    | error => rfl
    | ok ho => exact congrArg some ho.vertices

/-- Each parameter is an input of its type. -/
theorem IsInput.map_type {entries inputs : Dictionary Input}
    (h : Forall₂ (fun p e => IsInput p.name p.type p.default e) ps entries)
    (hnodup : inputs.keys.Nodup) (hmem : ∀ e ∈ entries, e ∈ inputs) :
    ∀ p ∈ ps, (inputs.get? p.name).map Input.type = ValueType.ofName? p.type.name := by
  induction h with
  | nil => exact forall_mem_nil _
  | @cons p e ps entries he _ ih =>
    rw [forall_mem_cons] at hmem ⊢
    refine ⟨?_, ih hmem.2⟩
    obtain ⟨t, ht, hinput⟩ := Option.map_eq_some_iff.mp he.input
    rw [← he.name, get?_of_mem hnodup hmem.1, ht, ← hinput]
    rfl

namespace Compile

variable {bad : Prop} {f g : Function} {s s' t : Compiler} {spec : Specification}
  {code : List Stmt} {levels : Nat}

/-- Functions with the same parameters are compiled alike if their bodies are. -/
theorem functionWithin_leads {P : Dictionary Input → List Stmt → List Stmt → Prop} {levels' : Nat}
    (hparams : Forall₂ Param.Alike f.params g.params)
    (hplain : ∀ p ∈ f.params, Name.Plain p.name) (hglobals : t.globals = s.globals)
    (hplain' : ∀ x ∈ s.globals, Name.Plain x.name)
    (hbody : ∀ inputs s₁ t₁ statements, Begin f inputs s₁ t₁ →
      s₁.setting = ⟨s.resolver, s.globals, [(none, f.name)]⟩ →
      t₁.setting = ⟨t.resolver, t.globals, [(none, g.name)]⟩ →
      Runs (inBlock (stmts (expander levels) f.body)) s₁ () s' statements →
      Leads bad (inBlock (stmts (expander levels') g.body)) t₁ fun _ t' statements' =>
        t'.outputs = s'.outputs ∧ P inputs statements statements')
    (hrun : Runs (functionWithin levels f) s spec s' code) :
    Leads bad (functionWithin levels' g) t fun spec' _ _ =>
      spec'.inputs = spec.inputs ∧ spec'.outputs = spec.outputs ∧
        (∀ x ∈ spec.inputs.keys, Name.Plain x) ∧
        P spec.inputs spec.statements spec'.statements := by
  obtain ⟨globals, s₁, c₁, _, s₂, c₂, statements, h₁, h₂, hrunBody, rfl⟩ :=
    runs_functionWithin_steps hrun
  obtain ⟨_, rfl, hentries, hscope₁, -⟩ := runs_globalInputs .empty h₁
  obtain ⟨params, rfl, hentries', hscope₂, -⟩ := runs_paramInputs hscope₁ h₂
  have hkeys : Dictionary.keys (globals ++ params) =
      s.globals.map Global.name ++ f.params.map Param.name := by
    rw [← IsInput.keys_of_forall₂ hentries, ← IsInput.keys_of_forall₂ hentries']
    exact map_append
  have hinputs : ∀ x ∈ Dictionary.keys (globals ++ params), Name.Plain x := by
    rw [hkeys, forall_mem_append, forall_mem_map, forall_mem_map]
    exact ⟨hplain', hplain⟩
  have hnodup := hscope₂.nodup
  have htypes := IsInput.map_type hentries' hnodup fun e he => mem_append_right _ he
  rw [hkeys] at hnodup
  unfold functionWithin
  refine .of_runs_bind (a := ()) (runs_update_iff.mpr ⟨rfl, rfl⟩)
    (.of_runs_bind (runs_state_iff.mpr ⟨rfl, rfl, rfl⟩) ?_)
  have hstart : SameScope ⟨s.resolver, s.globals, [(none, f.name)]⟩
      ⟨t.resolver, t.globals, [(none, g.name)]⟩ (s.start f) (t.start g) := ⟨rfl, rfl, rfl, rfl⟩
  have htracks : Tracks .nothing bad (SameScope ⟨s.resolver, s.globals, [(none, f.name)]⟩
      ⟨t.resolver, t.globals, [(none, g.name)]⟩) (fun a b => a = b) (globalInputs s.globals [])
      (globalInputs t.globals []) := by
    rw [hglobals]
    exact globalInputs_tracks s.globals []
  refine Leads.bind (htracks _ _ _ _ _ hstart h₁) fun globals' t₁ c₁' h => ?_
  obtain ⟨rfl, hst₁, -⟩ := h
  refine Leads.bind (paramInputs_tracks (w := .nothing) hparams globals _ _ _ _ _ hst₁ h₂)
    fun inputs' t₂ c₂' h => ?_
  obtain ⟨rfl, hst₂, -⟩ := h
  have hbegin : Begin f (globals ++ params) s₂ t₂ :=
    { scope := hscope₂
      plain := hinputs
      types := htypes
      nodup := (nodup_append.mp hnodup).2.1
      sameScope := hst₂.scope
      sameOutputs := hst₂.outputs }
  have hleads := hbody _ _ _ _ hbegin hst₂.setting hst₂.setting' hrunBody
  refine Leads.bind hleads.capture fun statements' t₃ _ h => ?_
  obtain ⟨⟨houtputs, hstatements⟩, rfl⟩ := h
  refine .of_runs_bind (runs_state_iff.mpr ⟨rfl, rfl, rfl⟩)
    (.of_runs (runs_pure_iff.mpr ⟨rfl, rfl, rfl⟩) ?_)
  exact ⟨rfl, by rw [houtputs], hinputs, hstatements⟩

/-- A wrapper is compiled to a specification that passes its inputs on. -/
theorem functionWithin_wraps (hwraps : g.Wraps f) (hname : f.name ≠ g.name)
    (hf : f.Expands bad g ⟨s.resolver, s.globals, [(none, f.name)]⟩
      ⟨t.resolver, t.globals, [(none, g.name)]⟩) (hglobals : t.globals = s.globals)
    (hplain : ∀ x ∈ s.globals, Name.Plain x.name) (hmeans : g.CallMeans f t.resolver)
    (hrun : Runs (functionWithin levels f) s spec s' code) :
    Leads bad (functionWithin (levels + 1) g) t fun spec' _ _ => spec'.Wraps spec := by
  obtain ⟨args, fit, hargs, hresolve⟩ := hmeans
  have hparams : ∀ p ∈ f.params, Name.Plain p.name := fun p hp =>
    (hf.mentions (.variable p.name) (mem_append_left _ (mem_map_of_mem hp))).plain
  refine Leads.imp (functionWithin_leads hwraps.params hparams hglobals hplain ?_ hrun)
    fun spec' _ _ h => ⟨h.1, h.2.1, h.2.2.1, h.2.2.2⟩
  intro inputs s₁ t₁ statements hbegin hsetting hsetting' hbody
  rw [← hsetting, ← hsetting'] at hf
  have hresolver : t₁.resolver = t.resolver := congrArg Setting.resolver hsetting'
  have hstack : t₁.callStack = [(none, g.name)] := congrArg Setting.callStack hsetting'
  rw [← hresolver] at hresolve
  have hkey : (none, f.name) ∉ t₁.callStack := by
    rw [hstack]
    simpa using hname
  exact stmts_wraps hwraps hf hbegin hargs hresolve hkey hbody

end Compile

/-! ## Files -/

namespace Surface.File

open Compile

variable {bad : Prop} {file file' : File} {f g : Function}

theorem plain_globals (h : ∀ m ∈ file.mentions, m.Plain) : ∀ x ∈ file.globals, Name.Plain x.name :=
  fun x hx => h (.variable x.name) (mem_append_left _ (mem_map_of_mem hx))

/-- The functions that a file loads do not mention the new one, unless `bad`. -/
theorem allowed_definitions (hplain : ∀ m ∈ file.mentions, m.Plain)
    (hname : ∀ h ∈ file.functions, h.name ≠ g.name)
    (hother : bad ∨ .function g.name ∉ file.mentions)
    (hlibrary : bad ∨ g.name ∉ Library.called) :
    ∀ d ∈ file.definitions, d.Allowed bad g := by
  intro d hd
  rcases mem_definitions hd with ⟨f, hf, rfl⟩ | ⟨m, hm, f, hf, rfl⟩
  · refine ⟨fun hkey => hname f hf (congrArg Prod.snd hkey), fun m hm => ?_⟩
    have hmem : m ∈ file.mentions := mem_append_right _ (mem_flatMap.mpr ⟨f, hf, hm⟩)
    refine ⟨hplain m hmem, hother.imp id ?_⟩
    rintro hnot rfl
    exact hnot hmem
  · exact Definition.allowed_of_library hm hf hlibrary

theorem returns_of_load (h : (load file {}).result = .ok ()) (hf : f ∈ file.functions) :
    ∃ r, f.returns.mapM (fun n => ValueType.ofName? n.name) = some r := by
  obtain ⟨s, code, hrun⟩ := runs_of_result (load_ok_iff.mp h _ (mem_functions_iff.mp hf))
  rw [loadBlock] at hrun
  obtain ⟨_, s₁, _, _, -, hrest, rfl⟩ := runs_bind_iff.mp hrun
  obtain ⟨r, s₂, _, _, hreturns, -, rfl⟩ := runs_bind_iff.mp hrest
  exact ⟨r, (runs_valueType?_iff.mp hreturns).1⟩

theorem Adds.expands (h : Adds g file file') (hload : (load file {}).result = .ok ())
    (hf : f ∈ file.functions) (hplain : ∀ m ∈ file.mentions, m.Plain)
    (hname : ∀ h ∈ file.functions, h.name ≠ g.name)
    (hother : bad ∨ .function g.name ∉ file.mentions)
    (hlibrary : bad ∨ g.name ∉ Library.called)
    (hdeclares : ∀ x ∈ f.body.flatMap Stmt.declares, x ∈ f.params.map Param.name → bad) :
    f.Expands bad g ⟨{ functions := file.definitions }, file.globals, [(none, f.name)]⟩
      ⟨{ functions := file'.definitions }, file'.globals, [(none, g.name)]⟩ := by
  have hallowed := allowed_definitions hplain hname hother hlibrary
  exact {
    setting := {
      adds := ⟨h.definitions, [none], rfl, by simp⟩
      loaded := hallowed
      library := hlibrary
      stack := ⟨[(none, g.name)], rfl, by simp⟩
      caught := fun _ => mem_cons_of_mem _ (mem_singleton.mpr rfl) }
    mentions := (hallowed _ (mem_definitions_of_mem hf)).mentions
    returns := returns_of_load hload hf
    declares := hdeclares }

/-- The specification of a wrapper in the larger file wraps the one of the mark, unless it
fails. -/
theorem Adds.specification_wraps {spec : Specification} (h : Adds g file file')
    (hload : (load file {}).result = .ok ()) (hload' : (load file' {}).result = .ok ())
    (hexpands : f.Expands bad g ⟨{ functions := file.definitions }, file.globals, [(none, f.name)]⟩
      ⟨{ functions := file'.definitions }, file'.globals, [(none, g.name)]⟩)
    (hplain : ∀ m ∈ file.mentions, m.Plain) (hname : f.name ≠ g.name) (hwraps : g.Wraps f)
    (hmeans : g.CallMeans f { functions := file'.definitions })
    (hspec : file.specification f = .ok spec) :
    (∃ spec', file'.specification g = .ok spec' ∧ spec'.Wraps spec) ∨
      bad ∧ ∃ e, file'.specification g = .error e := by
  have hlevels : file'.definitions.length + Library.size + 1 =
      file.definitions.length + Library.size + 1 + 1 := by
    have hlength := h.length_definitions
    omega
  rw [specification_eq hload] at hspec
  rw [specification_eq hload', hlevels]
  obtain ⟨s, code, hrun⟩ := runs_of_result hspec
  rcases functionWithin_wraps (t := { resolver := _, globals := file'.globals }) hwraps hname
    hexpands h.globals (plain_globals hplain) hmeans hrun with ⟨spec', t', code', hrun', hspec'⟩ | hfails
  · exact .inl ⟨spec', congrArg Compiled.result hrun', hspec'⟩
  · exact .inr hfails

/-- A mark that calls another one with its own parameters behaves like that one: it has the same
inputs and outputs, and for all inputs both leave the same vertices or both fail. -/
theorem evaluate_wrapper {specs specs' : Dictionary Specification}
    (hcompile : file.compile = .ok specs) (hplain : ∀ m ∈ file.mentions, m.Plain)
    (hf : f ∈ file.functions) (hmark : f.isRenderable = true) (hadds : Adds g file file')
    (hname : ∀ h ∈ file.functions, h.name ≠ g.name) (hwraps : g.Wraps f)
    (hcompile' : file'.compile = .ok specs')
    (hmeans : g.CallMeans f { functions := file'.definitions }) :
    ∃ spec spec', file.specification f = .ok spec ∧
      (file.renderable? f.name = some f → specs.get? f.name = some spec) ∧
      specs'.get? g.name = some spec' ∧
      spec'.inputs = spec.inputs ∧ spec'.outputs = spec.outputs ∧
      ∀ given, (spec'.evaluate given).toOption = (spec.evaluate given).toOption := by
  obtain ⟨hload, hmarks⟩ := accepted_iff.mp ⟨specs, hcompile⟩
  obtain ⟨hload', -⟩ := accepted_iff.mp ⟨specs', hcompile'⟩
  obtain ⟨spec, hspec⟩ := hmarks f hf hmark
  obtain ⟨spec', hget', hspec'⟩ :=
    get?_of_renderable? hcompile' (hadds.renderable? hwraps.isRenderable hname)
  -- a call that comes to mean the wrapper would be refused, and it is not
  have hexpands : f.Expands True g _ _ := hadds.expands hload hf hplain hname (.inl trivial)
    (.inl trivial) (fun _ _ _ => trivial)
  have hwrapped : spec'.Wraps spec := by
    rcases hadds.specification_wraps hload hload' hexpands hplain (hname f hf) hwraps hmeans hspec
      with ⟨spec'', hspec'', hwrapped⟩ | ⟨-, e, he⟩
    · rw [hspec'] at hspec''
      cases hspec''
      exact hwrapped
    · rw [hspec'] at he
      cases he
  refine ⟨spec, spec', hspec, fun hlast => ?_, hget', hwrapped.inputs, hwrapped.outputs,
    hwrapped.toOption_evaluate⟩
  obtain ⟨spec'', hget, hspec''⟩ := get?_of_renderable? hcompile hlast
  rw [hspec] at hspec''
  cases hspec''
  exact hget

def doubling : Function where
  span := default
  kind := .function
  name := "double"
  params := [⟨default, "x", ⟨default, "float"⟩, none⟩]
  returns := some ⟨default, "float"⟩
  body := [.return_ default (.binary default .add (.name default "x") (.name default "x"))]

/-- A mark that calls a function of its file. -/
def doubled : Function where
  span := default
  kind := .mark
  name := "doubled"
  params := [⟨default, "x", ⟨default, "float"⟩, none⟩]
  returns := none
  body := [
    .declare default "y" none (some (.call default "double" [.name default "x"] [])),
    .emit default [[⟨default, "a", .name default "y"⟩]]]

def doubles : File := ⟨[.function doubling, .function doubled]⟩

def doublesAgain : File :=
  ⟨[.function doubling, .function doubled, .function (doubled.wrapper "again")]⟩

theorem callMeans_doubled :
    (doubled.wrapper "again").CallMeans doubled { functions := doublesAgain.definitions } :=
  ⟨[.var .float "x"], ⟨[.var .float "x"], 0, 0, 0⟩, .cons (.input rfl rfl) .nil, rfl⟩

theorem evaluate_wrapper_doubled : ∃ specs specs' spec spec',
    doubles.compile = .ok specs ∧ doublesAgain.compile = .ok specs' ∧
    specs.get? "doubled" = some spec ∧ specs'.get? "again" = some spec' ∧
    spec'.inputs = spec.inputs ∧ spec'.outputs = spec.outputs ∧
    ∀ given, (spec'.evaluate given).toOption = (spec.evaluate given).toOption := by
  obtain ⟨specs, hspecs⟩ : ∃ specs, doubles.compile = .ok specs :=
    accepted_iff_isOk.mpr (by decide +kernel)
  obtain ⟨specs', hspecs'⟩ : ∃ specs', doublesAgain.compile = .ok specs' :=
    accepted_iff_isOk.mpr (by decide +kernel)
  obtain ⟨spec, spec', -, hspec, hspec', hsame⟩ := evaluate_wrapper hspecs (by decide +kernel)
    (mem_functions_iff.mpr (by simp [doubles])) rfl ⟨[_, _], [], rfl, rfl⟩ (by decide +kernel)
    (doubled.wrapper_wraps "again") hspecs' callMeans_doubled
  exact ⟨specs, specs', spec, spec', hspecs, hspecs', hspec rfl, hspec', hsame⟩

end Surface.File

end DataMarks
