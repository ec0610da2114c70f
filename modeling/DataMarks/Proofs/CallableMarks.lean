/-
  Which marks can be called.

  A mark that compiles can be called with its own parameters, by a mark of a new name, exactly
  if no variable at the top level of its body has the name of a parameter
  (`File.accepted_wrapper_iff`). Compiled by itself, a mark has its parameters in a frame around
  that of the body, which may hide them; a body that is expanded shares the frame of its
  parameters, and there they cannot be declared again (`Compile.not_mem_formals`).

  A name is new if nothing in the file or in the library calls it. A call in the library may
  come to mean the wrapper otherwise, since wrappers are candidates wherever intrinsics are.
  Names of temporaries are kept out as well: which of them are free depends on the caller.
-/
import DataMarks.Proofs.WrappedMarks

namespace DataMarks

open Dictionary List

/-- A scope of inputs mirrors itself if nothing is forwarded. -/
theorem Forwarding.mirrors_nothing {scope : Scope} {inputs : Dictionary Input}
    (h : InputScope scope inputs) (hplain : ∀ x ∈ inputs.keys, Name.Plain x) :
    nothing.Mirrors 0 (scope.push []) (scope.push []) where
  frames := by
    have hname : ∀ x, nothing.name x = x := Name.shift_zero
    show nothing.Stacks scope.outermost scope.outermost 0 ({ formals := [] } :: scope.inner)
      ({ formals := [] } :: scope.inner)
    rw [h.inner]
    refine .base (fun _ => .none) rfl rfl fun x => ?_
    rw [hname, Scope.lookup_below rfl rfl]
    show Option.Rel _ (scope.outermost.vars.get? x) (scope.outermost.vars.get? x)
    rw [h.get?_vars]
    cases inputs.get? x with
    | none => exact .none
    | some i => exact .some ⟨rfl, (hname x).symm, fun _ => rfl⟩
  counts := by
    have hcounts : (scope.push []).Counts 0 := (h.counts hplain).push (forall_mem_nil _)
    exact ⟨0, hcounts, hcounts⟩
  issued := fun _ _ => Iff.rfl
  forwarded := fun _ hx => absurd hx not_mem_nil

namespace Compile

/-! ## Other functions -/

variable {f g : Surface.Function}

/-- A function that does not mention the new one compiles with that one as well. -/
theorem functionWithin_extends {s s' t : Compiler} {spec : Specification} {code : List Stmt}
    {levels levels' : Nat} (hlevels : levels ≤ levels')
    (hc : Setting.Extends False g ⟨s.resolver, s.globals, [(none, f.name)]⟩
      ⟨t.resolver, t.globals, [(none, f.name)]⟩) (hmentions : ∀ m ∈ f.mentions, m.Allowed False g)
    (hglobals : t.globals = s.globals) (hplain : ∀ x ∈ s.globals, Name.Plain x.name)
    (hrun : Runs (functionWithin levels f) s spec s' code) :
    ∃ spec', (functionWithin levels' f t).result = .ok spec' := by
  rw [Surface.Function.mentions, forall_mem_append, forall_mem_map] at hmentions
  have hparams : Forall₂ Surface.Param.Alike f.params f.params :=
    forall₂_same.mpr fun p _ => ⟨rfl, rfl, rfl⟩
  have hleads : Leads False (functionWithin levels' f) t _ :=
    functionWithin_leads (P := fun _ _ _ => True) hparams (fun p hp => (hmentions.1 p hp).plain)
      hglobals hplain ?_ hrun
  · rcases hleads with ⟨spec', t', code', hrun', -⟩ | ⟨hfalse, -⟩
    · exact ⟨spec', congrArg Compiled.result hrun'⟩
    · exact hfalse.elim
  intro inputs s₁ t₁ statements hbegin hsetting hsetting' hbody
  obtain ⟨s₂, hstmts, rfl⟩ := runs_inFrame_iff.mp hbody
  rw [← hsetting, ← hsetting'] at hc
  have hmirrors : Forwarding.nothing.Mirrors 0 (s₁.scope.push []) (t₁.scope.push []) := by
    rw [hbegin.sameScope]
    exact Forwarding.mirrors_nothing hbegin.scope hbegin.plain
  have htracks := stmts_tracks (w := .nothing) (k := 0) hc (expander_track hlevels hc) hmentions.2
    (fun _ x _ hx => absurd hx not_mem_nil) (s₁.push []) (t₁.push []) () s₂ statements
    ⟨hmirrors, hbegin.sameOutputs, rfl, rfl⟩ hstmts
  refine htracks.inFrame.imp fun _ t' statements' h => ?_
  obtain ⟨t₂, ⟨-, hstates, -⟩, rfl⟩ := h
  exact ⟨hstates.outputs, trivial⟩

/-! ## Loading -/

theorem loadParams_tracks {w : Forwarding} {bad : Prop} {R : Compiler → Compiler → Prop}
    {ps qs : List Surface.Param} (h : Forall₂ Surface.Param.Alike ps qs) :
    Tracks w bad R (fun _ _ => True) (loadParams ps) (loadParams qs) := by
  induction h with
  | nil => exact .pure trivial
  | @cons p q ps qs hpq _ ih =>
    rw [loadParams, loadParams, hpq.default]
    refine (valueType_tracks hpq.type).bind fun t t' ht => ?_
    subst ht
    exact (defaultValue_tracks _ _ _ _).bind fun _ _ _ => ih

/-- A wrapper can be loaded if what it wraps can. -/
theorem loadBlock_wrapper (hwraps : g.Wraps f) (h : (loadBlock (.function f) {}).result = .ok ()) :
    (loadBlock (.function g) {}).result = .ok () := by
  obtain ⟨s, code, hrun⟩ := runs_of_result h
  rw [loadBlock] at hrun
  obtain ⟨_, s₁, c₁, _, hparams, -, -⟩ := runs_bind_iff.mp hrun
  have htracks : Tracks .nothing False (fun _ _ => True) (fun _ _ => True) (loadParams f.params)
      (loadParams g.params) := loadParams_tracks hwraps.params
  rcases htracks {} {} _ s₁ c₁ trivial hparams with ⟨_, t₁, c₁', hparams', -⟩ | ⟨hfalse, -⟩
  · rw [loadBlock, bind_of_ok hparams', hwraps.returns]
    rfl
  · exact hfalse.elim

/-! ## Hidden parameters -/

section Hidden

variable {expand expand' : Expander} {s s' t t' : Compiler} {f : Frame} {below : List Frame}
  {code code' : List Stmt}

/-- A name that a frame forwards is not declared in it. -/
theorem not_mem_formals_of_stmt (hexpand : expand.Advancing) {st : Surface.Stmt}
    (h : Runs (stmt expand st) s () s' code) (hinner : s.scope.inner = f :: below) :
    ∀ x ∈ st.declares, x ∉ f.formals.keys := by
  have hdeclare : ∀ {span x t y} {u u' : Compiler} {vars}, Runs (declare span x t) u y u' [] →
      u.scope.inner = { f with vars } :: below → x ∉ f.formals.keys := by
    intro span x t y u u' vars hrun hu hmem
    obtain ⟨v, scope, hok, -⟩ := runs_declare_iff.mp hrun
    obtain ⟨hbinds, -⟩ := Scope.declare_ok hu hok
    have hformals : f.formals.contains x = false := (Bool.or_eq_false_iff.mp hbinds).2
    rw [Dictionary.contains, ← Bool.not_eq_true, ← mem_keys_iff] at hformals
    exact hformals hmem
  cases st with
  | declare span x type init =>
    rw [Surface.Stmt.declares, forall_mem_singleton]
    rw [stmt] at h
    obtain ⟨t, -, ⟨value, e, s₁, c₁, y, e', rank, -, hvalue, hrun, -⟩ | ⟨t, y, -, -, hrun, -⟩⟩ :=
      runs_declaration h
    · have hstep : Compiler.Step [] s s₁ :=
        advances_expr hexpand value s e s₁ c₁ (by simp [hinner]) hvalue
      obtain ⟨vars, hvars, -⟩ := hstep.inner f below hinner
      exact hdeclare hrun hvars
    · exact hdeclare hrun hinner
  | _ => exact forall_mem_nil _

/-- A body that is compiled as that of a mark does not return, so all of it is expanded. -/
theorem not_mem_formals (hexpand : expand'.Advancing) {ss : List Surface.Stmt} {r : Option Expr}
    (hstmts : Runs (stmts expand ss) s () s' code) (hbody : Runs (body expand' ss) t r t' code')
    (hinner : t.scope.inner = f :: below) :
    ∀ x ∈ ss.flatMap Surface.Stmt.declares, x ∉ f.formals.keys := by
  induction ss generalizing s t f code code' with
  | nil => exact forall_mem_nil _
  | cons st ss ih =>
    rw [flatMap_cons, forall_mem_append]
    obtain ⟨s₁, c₁, c₂, hstmt, hrest, rfl⟩ := runs_stmts_cons hstmts
    rcases runs_body_cons hbody with
      ⟨span, e, a, rfl, -⟩ | ⟨-, t₁, c₁', c₂', hstmt', hbody', rfl⟩
    · rw [stmt] at hstmt
      exact absurd hstmt not_runs_fail
    · have hstep := advances_stmt hexpand st t () t₁ c₁' (by simp [hinner]) hstmt'
      obtain ⟨vars, hvars, -⟩ := hstep.inner f below hinner
      have hlater := ih hrest hbody' hvars
      exact ⟨not_mem_formals_of_stmt hexpand hstmt' hinner, hlater⟩

/-- All parameters are forwarded. -/
theorem mem_keys_of_runs_temporaries {bound : List (Surface.Param × Expr)}
    {done formals : Dictionary String} (h : Runs (temporaries bound done) s formals s' code) :
    (∀ x ∈ done.keys, x ∈ formals.keys) ∧ ∀ b ∈ bound, b.1.name ∈ formals.keys := by
  induction bound generalizing s done code with
  | nil =>
    obtain ⟨rfl, -, -⟩ := runs_pure_iff.mp h
    exact ⟨fun _ hx => hx, forall_mem_nil _⟩
  | cons b bound ih =>
    obtain ⟨v, s₁, c, -, hrest, -⟩ := runs_temporaries_cons h
    obtain ⟨hdone, hbound⟩ := ih hrest
    refine ⟨fun x hx => hdone x (mem_keys_insert_iff.mpr (.inr hx)), ?_⟩
    exact forall_mem_cons.mpr ⟨hdone _ (mem_keys_insert_iff.mpr (.inl rfl)), hbound⟩

/-- Where a call that passes all parameters is expanded, none of them is declared again. -/
theorem not_mem_params_of_expandWith {d : Definition} {args : List Expr} {span : Span}
    {r : Option Expr} {u u' : Compiler} (hexpand : expand'.Advancing)
    (hlength : d.function.params.length ≤ args.length)
    (hstmts : Runs (stmts expand d.function.body) s () s' code)
    (hrun : Runs (expandWith expand' span d args) u r u' code') :
    ∀ x ∈ d.function.body.flatMap Surface.Stmt.declares,
      x ∉ d.function.params.map Surface.Param.name := by
  intro x hx hmem
  obtain ⟨returns, formals, u₁, c₁, value, c₂, -, hformals, hinBody, -⟩ := runs_expandWith hrun
  obtain ⟨u₂, hbody, -⟩ := runs_inBody_iff.mp hinBody
  refine not_mem_formals (f := { formals }) hexpand hstmts hbody rfl x hx ?_
  rw [← map_fst_zip hlength, map_map] at hmem
  obtain ⟨b, hb, rfl⟩ := mem_map.mp hmem
  exact (mem_keys_of_runs_temporaries hformals).2 b hb

end Hidden

/-- Where a wrapper is compiled, the body that it wraps hides no parameter. -/
theorem not_mem_params_of_wrapper {s s' t t' : Compiler} {spec spec' : Specification}
    {code code' : List Stmt} {levels levels' : Nat} (hwraps : g.Wraps f)
    (hmeans : g.CallMeans f t.resolver) (hrun : Runs (functionWithin levels f) s spec s' code)
    (hrun' : Runs (functionWithin levels' g) t spec' t' code') :
    ∀ x ∈ f.body.flatMap Surface.Stmt.declares, x ∉ f.params.map Surface.Param.name := by
  obtain ⟨args, fit, hargs, hresolve⟩ := hmeans
  obtain ⟨span, es, hg, hes⟩ := hwraps.body
  obtain ⟨_, _, s₁, s₂, _, -, -, -, -, hbody, -, -⟩ := runs_functionWithin hrun
  obtain ⟨s₃, hstmts, -⟩ := runs_inFrame_iff.mp hbody
  obtain ⟨_, params, t₁, t₂, _, -, hparams, hscope, ht₁, hbody', -, -⟩ := runs_functionWithin hrun'
  obtain ⟨t₃, hstmts', -⟩ := runs_inFrame_iff.mp hbody'
  rw [hg] at hstmts'
  obtain ⟨_, _, _, hstmt, -, -⟩ := runs_stmts_cons hstmts'
  obtain ⟨args', _, _, ks, _, _, r, c, hexprs, hkeywords, hcall, -⟩ := runs_stmt_call hstmt
  have hsame : Runs (exprs (expander levels') es) _ args _ [] := runs_exprs_refers hscope hes hargs
    (IsInput.map_type hparams hscope.nodup fun e he => mem_append_right _ he)
  cases hsame.symm.trans hexprs
  rw [keywordExprs] at hkeywords
  obtain ⟨rfl, rfl, rfl⟩ := runs_pure_iff.mp hkeywords
  have hresolver : t₁.resolver = t.resolver := by rw [ht₁]
  rw [← hresolver] at hresolve
  have hlength := (hwraps.passedOn hargs hresolve).length_eq
  rcases runs_call hcall with ⟨i, fit', hresolve', -⟩ | ⟨d, fit', hresolve', hexpand⟩
  · cases hresolve.symm.trans hresolve'
  · cases hresolve.symm.trans hresolve'
    cases levels' with
    | zero =>
      rw [expander] at hexpand
      exact absurd hexpand not_runs_fail
    | succ n =>
      exact not_mem_params_of_expandWith (advancing_expander n) hlength.le hstmts
        (runs_expander_succ hexpand).2


end Compile

/-! ## Files -/

namespace Surface.File

open Compile

variable {file file' : File} {f g : Function} {specs : Dictionary Specification}

/-- A larger file can be loaded if the new function wraps one that can. -/
theorem Adds.load_wrapper (h : Adds g file file') (hwraps : g.Wraps f) (hf : f ∈ file.functions)
    (hload : (load file {}).result = .ok ()) : (load file' {}).result = .ok () := by
  rw [load_ok_iff] at hload ⊢
  have hg := loadBlock_wrapper hwraps (hload _ (File.mem_functions_iff.mp hf))
  obtain ⟨before, after, hblocks, hblocks'⟩ := h
  rw [hblocks, forall_mem_append] at hload
  rw [hblocks', forall_mem_append, forall_mem_cons]
  exact ⟨hload.1, hg, hload.2⟩

/-- A function of a file still compiles in a larger one. -/
theorem Adds.specification_extends {spec : Specification} (h : Adds g file file')
    (hload : (load file {}).result = .ok ()) (hload' : (load file' {}).result = .ok ())
    (hplain : ∀ m ∈ file.mentions, m.Plain) (hallowed : ∀ d ∈ file.definitions, d.Allowed False g)
    (hlibrary : g.name ∉ Library.called) (hf : f ∈ file.functions)
    (hspec : file.specification f = .ok spec) : ∃ spec', file'.specification f = .ok spec' := by
  rw [specification_eq hload] at hspec
  rw [specification_eq hload']
  obtain ⟨s, code, hrun⟩ := runs_of_result hspec
  have hlength := h.length_definitions
  refine functionWithin_extends (by omega) ?_ (hallowed _ (mem_definitions_of_mem hf)).mentions
    h.globals (plain_globals hplain) hrun
  exact {
    adds := ⟨h.definitions, [], rfl, by simp⟩
    loaded := hallowed
    library := .inr hlibrary
    stack := ⟨[], rfl, by simp⟩
    caught := False.elim }

/-- A mark of a file can be called with its own parameters by a mark of a new name exactly if no
variable at the top level of its body has the name of a parameter. -/
theorem accepted_wrapper_iff (hcompile : file.compile = .ok specs)
    (hplain : ∀ m ∈ file.mentions, m.Plain) (hf : f ∈ file.functions)
    (hmark : f.isRenderable = true) (hadds : Adds g file file')
    (hname : ∀ h ∈ file.functions, h.name ≠ g.name) (hnew : .function g.name ∉ file.mentions)
    (hlibrary : g.name ∉ Library.called) (hwraps : g.Wraps f)
    (hmeans : g.CallMeans f { functions := file'.definitions }) :
    (∃ specs', file'.compile = .ok specs') ↔
      ∀ x ∈ f.body.flatMap Stmt.declares, x ∉ f.params.map Param.name := by
  obtain ⟨hload, hmarks⟩ := accepted_iff.mp ⟨specs, hcompile⟩
  obtain ⟨spec, hspec⟩ := hmarks f hf hmark
  have hload' := hadds.load_wrapper hwraps hf hload
  constructor
  · intro haccepted
    obtain ⟨spec', hspec'⟩ := (accepted_iff.mp haccepted).2 g
      (hadds.mem_functions_iff.mpr (.inl rfl)) hwraps.isRenderable
    rw [specification_eq hload] at hspec
    rw [specification_eq hload'] at hspec'
    obtain ⟨s, code, hrun⟩ := runs_of_result hspec
    obtain ⟨s', code', hrun'⟩ := runs_of_result hspec'
    exact not_mem_params_of_wrapper hwraps hmeans hrun hrun'
  · intro hhidden
    have hallowed : ∀ d ∈ file.definitions, d.Allowed False g :=
      allowed_definitions hplain hname (.inr hnew) (.inr hlibrary)
    refine accepted_iff.mpr ⟨hload', fun h hh hrender => ?_⟩
    rcases hadds.mem_functions_iff.mp hh with rfl | hh
    · have hexpands : f.Expands False h _ _ :=
        hadds.expands hload hf hplain hname (.inr hnew) (.inr hlibrary) hhidden
      rcases hadds.specification_wraps hload hload' hexpands hplain (hname f hf) hwraps hmeans hspec
        with ⟨spec', hspec', -⟩ | ⟨hfalse, -⟩
      · exact ⟨spec', hspec'⟩
      · exact hfalse.elim
    · obtain ⟨spec₁, hspec₁⟩ := hmarks h hh hrender
      exact hadds.specification_extends hload hload' hplain hallowed hlibrary hh hspec₁

theorem accepted_wrapper_doubled : ∃ specs specs',
    doubles.compile = .ok specs ∧ doublesAgain.compile = .ok specs' := by
  obtain ⟨specs, hspecs⟩ : ∃ specs, doubles.compile = .ok specs :=
    accepted_iff_isOk.mpr (by decide +kernel)
  have haccepted := (accepted_wrapper_iff hspecs (by decide +kernel)
    (mem_functions_iff.mpr (by simp [doubles])) rfl ⟨[_, _], [], rfl, rfl⟩ (by decide +kernel)
    (by decide +kernel) (by decide +kernel) (doubled.wrapper_wraps "again") callMeans_doubled).mpr
    (by decide)
  obtain ⟨specs', hspecs'⟩ := haccepted
  exact ⟨specs, specs', hspecs, hspecs'⟩

/-- A mark whose body hides its parameter. -/
def raised : Function where
  span := default
  kind := .mark
  name := "raised"
  params := [⟨default, "x", ⟨default, "float"⟩, none⟩]
  returns := none
  body := [
    .declare default "x" none
      (some (.binary default .add (.name default "x") (.literal default .float (.scalar 1)))),
    .emit default [[⟨default, "a", .name default "x"⟩]]]

def raises : File := ⟨[.function raised]⟩

def raisesAgain : File := ⟨[.function raised, .function (raised.wrapper "again")]⟩

/-- It compiles, and a mark of a new name that calls it does not. -/
theorem refused_wrapper_raised : (∃ specs, raises.compile = .ok specs) ∧
    (∀ m ∈ raises.mentions, m.Plain) ∧ raised ∈ raises.functions ∧ raised.kind = .mark ∧
    Adds (raised.wrapper "again") raises raisesAgain ∧
    (∀ f ∈ raises.functions, f.name ≠ "again") ∧ .function "again" ∉ raises.mentions ∧
    (raised.wrapper "again").Wraps raised ∧
    (raised.wrapper "again").CallMeans raised { functions := raisesAgain.definitions } ∧
    ∃ e, raisesAgain.compile = .error e := by
  have hrefused : ¬ ∃ specs, raisesAgain.compile = .ok specs := by
    rw [accepted_iff_isOk]
    decide +kernel
  refine ⟨accepted_iff_isOk.mpr (by decide +kernel), by decide +kernel,
    mem_functions_iff.mpr (by simp [raises]), rfl, ⟨[_], [], rfl, rfl⟩, by decide +kernel,
    by decide +kernel, raised.wrapper_wraps "again", ?_, ?_⟩
  · exact ⟨[.var .float "x"], ⟨[.var .float "x"], 0, 0, 0⟩, .cons (.input rfl rfl) .nil, rfl⟩
  · cases hresult : raisesAgain.compile with
    | ok specs => exact absurd ⟨specs, hresult⟩ hrefused
    | error e => exact ⟨e, rfl⟩

end Surface.File

end DataMarks
