/-
  Where the errors of a compilation point.

  All that an error marks is the place of some node: of the file, or of a function of the
  library where a call of it is expanded. The state of a compilation holds nodes too, in the
  functions and globals that are loaded and in the places where outputs were first emitted;
  `Compile.Locates P` says that a step keeps all of these to `P` and fails only with errors
  that mark what satisfies `P`. The functions of the library are read from texts of their own,
  so what holds of every parsed text holds of them.
-/
import DataMarks.Proofs.AddedFunction
import DataMarks.Proofs.Loading

namespace DataMarks

open List Surface Node

open Surface (Node)

/-- All that the error marks satisfies `P`. -/
def CompileError.Marks (P : Span → Prop) (e : CompileError) : Prop := ∀ l ∈ e.labels, P l.span

/-- The places that a state remembers satisfy `P`. -/
structure Compiler.Placed (P : Span → Prop) (s : Compiler) : Prop where
  functions : ∀ d ∈ s.resolver.functions, (Node.function d.function).Placed P
  globals : ∀ g ∈ s.globals, (Node.global g).Placed P
  outputs : ∀ x o, s.outputs.get? x = some o → P o.2

variable {e : CompileError}

namespace Compile

variable {α β : Type} {P : Span → Prop}

/-- The step leaves only places that satisfy `P` in the state, and its errors mark no others. -/
def Locates (P : Span → Prop) (x : Compile α) : Prop :=
  ∀ s : Compiler, s.Placed P →
    (x s).state.Placed P ∧ ∀ e, (x s).result = .error e → e.Marks P

/-! ## Rules -/

namespace Locates

variable {x : Compile α}

/-- A step that does not fail. -/
theorem of_ok (hresult : ∀ s, ∃ a, (x s).result = .ok a)
    (hstate : ∀ s, s.Placed P → (x s).state.Placed P) : Locates P x := by
  refine fun s hs => ⟨hstate s hs, fun e he => ?_⟩
  obtain ⟨a, ha⟩ := hresult s
  rw [ha] at he
  cases he

theorem pure (a : α) : Locates P (Pure.pure a : Compile α) :=
  .of_ok (fun _ => ⟨a, rfl⟩) fun _ hs => hs

/-- An error that marks one place. -/
theorem fail {span : Span} (hlabels : e.labels.map Label.span = [span]) (h : P span) :
    Locates P (Compile.fail e : Compile α) := by
  refine fun _ hs => ⟨hs, fun e' he' l hl => ?_⟩
  cases he'
  have hspan := mem_map_of_mem (f := Label.span) hl
  rw [hlabels, mem_singleton] at hspan
  rw [hspan]
  exact h

theorem bind {f : α → Compile β} (hx : Locates P x) (hf : ∀ a, Locates P (f a)) :
    Locates P (x >>= f) := by
  intro s hs
  obtain ⟨hstate, herror⟩ := hx s hs
  cases hxs : x s with
  | mk result s₁ code =>
    rw [hxs] at hstate herror
    cases result with
    | error e =>
      rw [bind_of_error hxs]
      refine ⟨hstate, fun e' he' => herror e' ?_⟩
      cases he'
      rfl
    | ok a =>
      rw [bind_of_ok hxs]
      exact hf a s₁ hstate

/-- What follows may look at the state. -/
theorem of_state {f : Compiler → Compile β} (h : ∀ s, s.Placed P → Locates P (f s)) :
    Locates P (state >>= f) :=
  fun s hs => h s hs s hs

theorem update {f : Compiler → Compiler} (h : ∀ s, s.Placed P → (f s).Placed P) :
    Locates P (Compile.update f) :=
  .of_ok (fun _ => ⟨(), rfl⟩) h

theorem write (stmt : Stmt) : Locates P (Compile.write stmt) :=
  .of_ok (fun _ => ⟨(), rfl⟩) fun _ hs => hs

theorem capture {x : Compile Unit} (h : Locates P x) : Locates P (Compile.capture x) := by
  intro s hs
  refine ⟨(h s hs).1, fun e he => (h s hs).2 e ?_⟩
  change (x s).result.map _ = _ at he
  cases hresult : (x s).result with
  | ok a => rw [hresult] at he; cases he
  | error e' =>
    rw [hresult] at he
    cases he
    rfl

theorem finally_ {leave : Compiler → Compiler} (hx : Locates P x)
    (hleave : ∀ s, s.Placed P → (leave s).Placed P) : Locates P (Compile.finally_ x leave) :=
  fun s hs => ⟨hleave _ (hx s hs).1, (hx s hs).2⟩

theorem inFrame (h : Locates P x) (formals : Dictionary String) :
    Locates P (Compile.inFrame formals x) :=
  .bind (.update fun _ hs => ⟨hs.functions, hs.globals, hs.outputs⟩) fun _ =>
    h.finally_ fun _ hs => ⟨hs.functions, hs.globals, hs.outputs⟩

theorem inBody (h : Locates P x) (d : Definition) (formals : Dictionary String) :
    Locates P (Compile.inBody d formals x) :=
  .bind (.update fun _ hs => ⟨hs.functions, hs.globals, hs.outputs⟩) fun _ =>
    (h.inFrame formals).finally_ fun _ hs => ⟨hs.functions, hs.globals, hs.outputs⟩

end Locates

/-! ## Names and types -/

theorem locates_valueType {t : Surface.TypeName} (h : P t.span) : Locates P (valueType t) := by
  unfold valueType
  split
  · exact .pure _
  · exact .fail rfl h

theorem locates_valueType? {t : Option Surface.TypeName} (h : ∀ u ∈ t, P u.span) :
    Locates P (valueType? t) := by
  cases t with
  | none => exact .pure _
  | some t => exact (locates_valueType (h t rfl)).bind fun _ => .pure _

section Places

variable {span : Span} (h : P span)
include h

theorem locates_defaultValue (t : ValueType) (v : Option Value) :
    Locates P (defaultValue span t v) := by
  unfold defaultValue
  split
  · exact .pure _
  · split
    · exact .pure _
    · exact .fail rfl h

theorem locates_declare (x : String) (t : ValueType) : Locates P (declare span x t) := by
  refine .of_state fun s _ => ?_
  split
  · exact .bind (.update fun _ hs => ⟨hs.functions, hs.globals, hs.outputs⟩) fun _ => .pure _
  · exact .fail rfl h

theorem locates_declareGlobal (x : String) (t : ValueType) :
    Locates P (declareGlobal span x t) := by
  refine .of_state fun s _ => ?_
  split
  · exact .update fun _ hs => ⟨hs.functions, hs.globals, hs.outputs⟩
  · exact .fail rfl h

theorem locates_variable (x : String) : Locates P (variable_ span x) := by
  refine .of_state fun s _ => ?_
  dsimp only
  split
  · exact .pure _
  · exact .fail rfl h

theorem locates_coerce (e : Expr) (t : ValueType) : Locates P (coerce span e t) := by
  unfold coerce
  split
  · exact .pure _
  · exact .fail rfl h

theorem locates_access (e : Expr) (f : String) : Locates P (lift (e.access span f)) := by
  unfold Expr.access
  split
  · exact .pure _
  · exact .fail rfl h

/-- The one error that marks two places: that of the output and the one noted for it before. -/
theorem locates_recordOutput (x : String) (t : ValueType) :
    Locates P (recordOutput span x t) := by
  refine .of_state fun s hs => ?_
  split
  · refine .update fun s hs => ⟨hs.functions, hs.globals, fun y o ho => ?_⟩
    rw [Dictionary.get?_insert] at ho
    split at ho
    · cases ho
      exact h
    · exact hs.outputs y o ho
  · rename_i first firstSpan hfirst
    split
    · exact .pure _
    · refine fun s hs' => ⟨hs', fun e he => ?_⟩
      cases he
      refine forall_mem_cons.mpr ⟨h, forall_mem_singleton.mpr ?_⟩
      exact hs.outputs x _ hfirst

end Places

theorem locates_temporaries (bound : List (Param × Expr)) (done : Dictionary String) :
    Locates P (temporaries bound done) := by
  induction bound generalizing done with
  | nil => exact .pure _
  | cons b bound ih =>
    have htemporary : Locates P (temporary b.2.type) :=
      .of_ok (fun _ => ⟨_, rfl⟩) fun _ hs => ⟨hs.functions, hs.globals, hs.outputs⟩
    exact htemporary.bind fun v => (Locates.write _).bind fun _ => ih _

/-! ## Bodies -/

/-- The functions of the library have their places. -/
def LibraryPlaced (P : Span → Prop) : Prop :=
  ∀ m ∈ Library.modules, ∀ f ∈ m.functions, (Node.function f).Placed P

/-- A way to expand calls that locates them. -/
def Expands (P : Span → Prop) (expand : Expander) : Prop :=
  ∀ span d args, P span → (Node.function d.function).Placed P → Locates P (expand span d args)

section Bodies

variable {expand : Expander} (hlibrary : LibraryPlaced P) (hexpand : Expands P expand)
include hlibrary hexpand

theorem locates_call {span : Span} (h : P span) (name : String) (args : Arguments) :
    Locates P (call expand span name args) := by
  refine .of_state fun s hs => ?_
  dsimp only
  split
  · rename_i e _
    cases e with
    | undefined => exact .fail rfl h
    | unresolved => exact .fail rfl h
  · exact .pure _
  · rename_i d fit hresolve
    refine hexpand span d fit.args h ?_
    -- A function that is called has been loaded, or is one beside it in a module of the library.
    rcases Resolver.mem_candidates (Resolver.resolve_ok hresolve).1 with
      ⟨_, hd⟩ | ⟨_, hd, -, heq⟩ | ⟨m, hm, f, hf, heq⟩
    · cases hd
    · cases heq
      exact hs.functions d hd
    · cases heq
      exact hlibrary m hm f hf

theorem Parallel.locates {new : List String} {x y : Compile α}
    (h : Parallel P expand expand new x y) : Locates P x := by
  induction h with
  | pure a => exact .pure a
  | fail hlabels h => exact .fail hlabels h
  | bind _ _ hx hf => exact hx.bind hf
  | mono _ _ ih => exact ih
  | write st => exact .write st
  | capture _ ih => exact ih.capture
  | inFrame _ formals ih => exact ih.inFrame formals
  | valueType? h => exact locates_valueType? h
  | declare h _ t => exact locates_declare h _ t
  | variable_ h x => exact locates_variable h x
  | coerce h e t => exact locates_coerce h e t
  | access h e f => exact locates_access h e f
  | recordOutput h x t => exact locates_recordOutput h x t
  | call h name args => exact locates_call hlibrary hexpand h name args

variable {ss : List Surface.Stmt}

theorem locates_stmts (h : ∀ s ∈ ss, (Node.stmt s).Placed P) : Locates P (stmts expand ss) :=
  (parallel_stmts ss fun s hs => (h s hs).located).locates hlibrary hexpand

theorem locates_body (h : ∀ s ∈ ss, (Node.stmt s).Placed P) : Locates P (body expand ss) :=
  (parallel_body fun s hs => (h s hs).located).locates hlibrary hexpand

theorem expands_expandWith : Expands P (expandWith expand) := by
  intro span d args hspan hd
  have hreturns : ∀ t ∈ d.function.returns, P t.span := fun t ht =>
    (hd.child (c := .typeName t) (by simp_all [children])).span
  refine (locates_valueType? hreturns).bind fun returns => ?_
  refine (locates_temporaries _ _).bind fun formals => ?_
  refine Locates.bind (.inBody (locates_body hlibrary hexpand fun s hs => hd.child ?_) _ _) ?_
  · simp [Node.children, hs]
  · intro value
    split
    · exact (locates_coerce hspan _ _).bind fun _ => .pure _
    · exact .pure _

end Bodies

theorem expands_expander (hlibrary : LibraryPlaced P) (levels : Nat) :
    Expands P (expander levels) := by
  induction levels with
  | zero => exact fun span d args hspan _ => .fail rfl hspan
  | succ levels ih =>
    refine fun span d args hspan hd => .of_state fun s _ => ?_
    split
    · exact .fail rfl hspan
    · exact expands_expandWith hlibrary ih span d args hspan hd

/-! ## Files -/

theorem locates_loadParams {ps : List Param} (h : ∀ p ∈ ps, (param p).Placed P) :
    Locates P (loadParams ps) := by
  induction ps with
  | nil => exact .pure _
  | cons p ps ih =>
    obtain ⟨hp, hps⟩ := forall_mem_cons.mp h
    have htype := (hp.child mem_cons_self).span
    exact (locates_valueType htype).bind fun t =>
      (locates_defaultValue hp.span t p.default).bind fun _ => ih hps

variable {fs : List Function}

theorem locates_addFunctions (h : ∀ f ∈ fs, (Node.function f).Placed P) (module : Option String) :
    Locates P (addFunctions module fs) := by
  refine .update fun s hs => ⟨fun d hd => ?_, hs.globals, hs.outputs⟩
  rw [Resolver.addAll_eq] at hd
  rcases mem_append.mp hd with hd | hd
  · exact hs.functions d hd
  · obtain ⟨f, hf, rfl⟩ := mem_map.mp hd
    exact h f hf

theorem locates_importNames {m : Module} (hm : ∀ f ∈ m.functions, (Node.function f).Placed P)
    {names : List (Span × String)} (h : ∀ n ∈ names, P n.1) :
    Locates P (importNames m names) := by
  induction names with
  | nil => exact .pure _
  | cons n names ih =>
    obtain ⟨hn, hnames⟩ := forall_mem_cons.mp h
    rw [importNames]
    split
    · exact .fail rfl hn
    · have hnamed : ∀ f ∈ m.named n.2, (Node.function f).Placed P := fun f hf =>
        hm f (mem_filter.mp hf).1
      exact (locates_addFunctions hnamed _).bind fun _ => ih hnames

theorem locates_globalInputs {gs : List Global} (h : ∀ g ∈ gs, (global g).Placed P)
    (done : Dictionary Input) : Locates P (globalInputs gs done) := by
  induction gs generalizing done with
  | nil => exact .pure _
  | cons g gs ih =>
    obtain ⟨hg, hgs⟩ := forall_mem_cons.mp h
    refine (locates_valueType (hg.child mem_cons_self).span).bind fun t => ?_
    refine (locates_declareGlobal hg.span g.name t).bind fun _ => ?_
    exact (locates_defaultValue hg.span t g.default).bind fun _ => ih hgs _

theorem locates_paramInputs {ps : List Param} (h : ∀ p ∈ ps, (param p).Placed P)
    (done : Dictionary Input) : Locates P (paramInputs ps done) := by
  induction ps generalizing done with
  | nil => exact .pure _
  | cons p ps ih =>
    obtain ⟨hp, hps⟩ := forall_mem_cons.mp h
    refine (locates_valueType (hp.child mem_cons_self).span).bind fun t => ?_
    refine (locates_declare hp.span p.name t).bind fun _ => ?_
    exact (locates_defaultValue hp.span t p.default).bind fun _ => ih hps _

section Files

variable (hlibrary : LibraryPlaced P)
include hlibrary

theorem locates_loadImport {i : Import} (h : (import_ i).Placed P) :
    Locates P (loadImport i) := by
  unfold loadImport
  split
  · exact .fail rfl h.span
  · rename_i m hm
    have hfunctions := hlibrary m (mem_of_find?_eq_some hm)
    split
    · exact locates_addFunctions hfunctions _
    · rename_i names hnames
      refine locates_importNames hfunctions fun n hn => ?_
      refine (h.child (c := .mark n.1) ?_).span
      exact mem_map.mpr ⟨n, by rwa [hnames], rfl⟩

theorem locates_loadBlock {b : Block} (h : b.node.Placed P) :
    Locates P (loadBlock b) := by
  cases b with
  | function f =>
    have hparams : ∀ p ∈ f.params, (param p).Placed P := fun p hp =>
      h.child (by simp [Block.node, children, hp])
    have hreturns : ∀ t ∈ f.returns, P t.span := fun t ht =>
      (h.child (c := .typeName t) (by simp_all [Block.node, children])).span
    refine (locates_loadParams hparams).bind fun _ => (locates_valueType? hreturns).bind fun _ => ?_
    exact locates_addFunctions (forall_mem_singleton.mpr h) none
  | global g =>
    refine (locates_valueType (h.child mem_cons_self).span).bind fun _ => ?_
    refine .update fun s hs => ⟨hs.functions, fun g' hg' => ?_, hs.outputs⟩
    rcases mem_append.mp hg' with hg' | hg'
    · exact hs.globals g' hg'
    · cases mem_singleton.mp hg'
      exact h
  | import_ i => exact locates_loadImport hlibrary h

theorem locates_loadBlocks {bs : List Block} (h : ∀ b ∈ bs, b.node.Placed P) :
    Locates P (loadBlocks bs) := by
  induction bs with
  | nil => exact .pure _
  | cons b bs ih =>
    obtain ⟨hb, hbs⟩ := forall_mem_cons.mp h
    exact (locates_loadBlock hlibrary hb).bind fun _ => ih hbs

theorem locates_function {f : Function} (h : (Node.function f).Placed P) :
    Locates P (function f) := by
  have hparams : ∀ p ∈ f.params, (Node.param p).Placed P := fun p hp =>
    h.child (by simp [Node.children, hp])
  have hbody : ∀ s ∈ f.body, (Node.stmt s).Placed P := fun s hs =>
    h.child (by simp [Node.children, hs])
  refine .of_state fun start _ => ?_
  -- The outputs of what was compiled before are forgotten.
  refine .bind (.update fun s hs => ⟨hs.functions, hs.globals, fun x o ho => ?_⟩) fun _ => ?_
  · cases ho
  refine .of_state fun s hs => (locates_globalInputs hs.globals []).bind fun inputs => ?_
  refine (locates_paramInputs hparams inputs).bind fun inputs => ?_
  have hstmts := locates_stmts hlibrary (expands_expander hlibrary (depth start)) hbody
  exact (hstmts.inFrame []).capture.bind fun _ => .of_state fun _ _ => .pure _

theorem locates_functions (h : ∀ f ∈ fs, (Node.function f).Placed P)
    (done : Dictionary Specification) : Locates P (functions fs done) := by
  induction fs generalizing done with
  | nil => exact .pure _
  | cons f fs ih =>
    obtain ⟨hf, hfs⟩ := forall_mem_cons.mp h
    rw [functions]
    split
    · exact (locates_function hlibrary hf).bind fun _ => ih hfs _
    · exact ih hfs _

end Files

end Compile

/-- All that an error marks for which a file is rejected are places of the file's nodes and of the
library's. -/
theorem Surface.File.marks_of_compile {P : Span → Prop} (hlibrary : Compile.LibraryPlaced P)
    {file : File} (h : ∀ n ∈ file.nodes, n.Placed P) (herror : file.compile = .error e) :
    e.Marks P := by
  have hblocks : ∀ b ∈ file.blocks, b.node.Placed P := fun b hb => h _ (mem_map_of_mem hb)
  have hfunctions : ∀ f ∈ file.functions, (function f).Placed P := fun f hf =>
    hblocks _ (mem_functions_iff.mp hf)
  have hempty : ({} : Compiler).Placed P := by
    refine ⟨fun d hd => ?_, fun g hg => ?_, fun x o ho => ?_⟩
    · cases hd
    · cases hg
    · cases ho
  have hsteps := (Compile.locates_loadBlocks hlibrary hblocks).bind fun _ =>
    Compile.locates_functions hlibrary hfunctions []
  exact (hsteps {} hempty).2 e herror

end DataMarks
