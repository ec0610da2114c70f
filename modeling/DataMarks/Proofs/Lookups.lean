/-
  The names that are looked up while a mark is compiled.

  A name that is read or assigned is looked up in the scope at its place; when a call is
  expanded there, so are the names in the body of the function. `Surface.File.lookups` lists
  them all, each with the names that the source binds around it: those of the function it
  stands in, and those of the functions that are being expanded around it.

  `Place` says what the scope at such a place is like. The frames above the outermost one
  bind the names of the source and temporaries, and only inputs are found under the names of
  inputs (`Place.get?_of_unbound`, `Place.unique_of_bound`).
-/
import DataMarks.Proofs.Loading

namespace DataMarks

open Dictionary List

/-- The names bound around a place: the parameters of the function that it stands in and the
variables of the blocks there, and the same of each function that is being expanded around it,
innermost first. -/
structure Binders where
  own : List String
  callers : List (List String) := []
deriving Repr

namespace Binders

def names (b : Binders) : List String := b.own ++ b.callers.flatten

/-- The place behind declarations. -/
def add (b : Binders) (new : List String) : Binders := { b with own := new ++ b.own }

/-- The body of a function that is expanded at the place. -/
def enter (b : Binders) (params : List String) : Binders := ⟨params, b.own :: b.callers⟩

theorem mem_names_add {b : Binders} {new : List String} {x : String} :
    x ∈ (b.add new).names ↔ x ∈ new ∨ x ∈ b.names := by
  simp [names, add]

theorem mem_names_enter {b : Binders} {params : List String} {x : String} :
    x ∈ (b.enter params).names ↔ x ∈ params ∨ x ∈ b.names := by
  simp [names, enter]

end Binders

/-- A name that is looked up at a place. -/
structure Lookup where
  name : String
  binders : Binders
  scope : Scope
deriving Repr

/-- A lookup finds a variable that code mentions. -/
def Lookup.Finds (l : Lookup) (m : String × ValueType) : Prop :=
  ∃ v, l.scope.get? l.name = some v ∧ m = (v.unique, v.type)

/-! ## Lookups in the order they are made -/

namespace Compile

/-- What follows on a step that succeeds. -/
def after {α β : Type} (x : Compile α) (s : Compiler) (next : α → Compiler → List β) : List β :=
  match x s with
  | ⟨.ok a, s', _⟩ => next a s'
  | ⟨.error _, _, _⟩ => []

theorem Runs.after_eq {α β : Type} {x : Compile α} {s s' : Compiler} {a : α} {code : List Stmt}
    (h : Runs x s a s' code) (next : α → Compiler → List β) : after x s next = next a s' := by
  unfold after
  rw [h]

/-- The lookups of an expanded call with compiled arguments. -/
abbrev Tracer := Binders → Definition → List Expr → Compiler → List Lookup

def callLookups (trace : Tracer) (b : Binders) (name : String) (args : Arguments)
    (s : Compiler) : List Lookup :=
  match s.resolver.resolve name args with
  | .ok (.defined d, fit) => trace b d fit.args s
  | _ => []

mutual

def exprLookups (expand : Expander) (trace : Tracer) (b : Binders) :
    Surface.Expr → Compiler → List Lookup
  | .literal .., _ => []
  | .name _ x, s => if (Catalog.constant? x).isSome then [] else [⟨x, b, s.scope⟩]
  | .field _ base _, s => exprLookups expand trace b base s
  | .call _ name args keywords, s =>
    exprsLookups expand trace b args s ++
      after (exprs expand args) s fun positional s₁ =>
        keywordLookups expand trace b keywords s₁ ++
          after (keywordExprs expand keywords) s₁ fun keywords s₂ =>
            callLookups trace b name { positional, keywords } s₂
  | .unary _ op arg, s =>
    exprLookups expand trace b arg s ++
      after (expr expand arg) s fun e s₁ =>
        callLookups trace b (Intrinsic.operatorName op.text) { positional := [e] } s₁
  | .binary _ op lhs rhs, s =>
    exprLookups expand trace b lhs s ++
      after (expr expand lhs) s fun l s₁ =>
        exprLookups expand trace b rhs s₁ ++
          after (expr expand rhs) s₁ fun r s₂ =>
            callLookups trace b (Intrinsic.operatorName op.text) { positional := [l, r] } s₂

def exprsLookups (expand : Expander) (trace : Tracer) (b : Binders) :
    List Surface.Expr → Compiler → List Lookup
  | [], _ => []
  | e :: es, s =>
    exprLookups expand trace b e s ++
      after (expr expand e) s fun _ s₁ => exprsLookups expand trace b es s₁

def keywordLookups (expand : Expander) (trace : Tracer) (b : Binders) :
    List (String × Surface.Expr) → Compiler → List Lookup
  | [], _ => []
  | (_, e) :: es, s =>
    exprLookups expand trace b e s ++
      after (expr expand e) s fun _ s₁ => keywordLookups expand trace b es s₁

end

def attributesLookups (expand : Expander) (trace : Tracer) (b : Binders) :
    List Surface.Attribute → Compiler → List Lookup
  | [], _ => []
  | a :: rest, s =>
    exprLookups expand trace b a.value s ++
      after (expr expand a.value) s fun e s₁ =>
        after (recordOutput a.span a.name e.type) s₁ fun _ s₂ =>
          attributesLookups expand trace b rest s₂

def verticesLookups (expand : Expander) (trace : Tracer) (b : Binders) :
    List (List Surface.Attribute) → Compiler → List Lookup
  | [], _ => []
  | v :: rest, s =>
    attributesLookups expand trace b v s ++
      after (attributes expand v []) s fun _ s₁ => verticesLookups expand trace b rest s₁

/-- The lookups of a condition whose branches are given as steps. -/
def conditionLookups (expand : Expander) (trace : Tracer) (b : Binders) (test : Surface.Expr)
    (thenStep : Compile Unit) (thenLookups elseLookups : Compiler → List Lookup) (s : Compiler) :
    List Lookup :=
  exprLookups expand trace b test s ++
    after (expr expand test) s fun _ s₁ =>
      thenLookups s₁ ++ after thenStep s₁ fun _ s₂ => elseLookups s₂

mutual

def stmtLookups (expand : Expander) (trace : Tracer) :
    Surface.Stmt → Binders → Compiler → List Lookup
  | .expr e, b, s => exprLookups expand trace b e s
  | .declare _ _ _ none, _, _ => []
  | .declare _ _ _ (some init), b, s => exprLookups expand trace b init s
  | .assign _ x value, b, s =>
    exprLookups expand trace b value s ++
      after (expr expand value) s fun _ s₁ => [⟨x, b, s₁.scope⟩]
  | .return_ .., _, _ => []
  | .discard _, _, _ => []
  | .emit _ vs, b, s => verticesLookups expand trace b vs s
  | .loop span x _ _ body, b, s =>
    after (declare span x .int) (s.push []) fun _ s₁ =>
      stmtLookups expand trace body (b.add [x]) s₁
  | .branch _ test body rest, b, s =>
    conditionLookups expand trace b test (inBlock (stmt expand body))
      (fun s₁ => stmtLookups expand trace body b (s₁.push []))
      (fun s₂ => alternativesLookups expand trace rest b s₂) s
  | .block _ body, b, s => stmtsLookups expand trace body b (s.push [])

def alternativesLookups (expand : Expander) (trace : Tracer) :
    Surface.Alternatives → Binders → Compiler → List Lookup
  | .none, _, _ => []
  | .otherwise body, b, s => stmtLookups expand trace body b (s.push [])
  | .elseIf test body rest, b, s =>
    conditionLookups expand trace b test (inBlock (stmt expand body))
      (fun s₁ => stmtLookups expand trace body b (s₁.push []))
      (fun s₂ => alternativesLookups expand trace rest b s₂) s

def stmtsLookups (expand : Expander) (trace : Tracer) :
    List Surface.Stmt → Binders → Compiler → List Lookup
  | [], _, _ => []
  | st :: ss, b, s =>
    stmtLookups expand trace st b s ++
      after (stmt expand st) s fun _ s₁ => stmtsLookups expand trace ss (b.add st.declares) s₁

end

def bodyLookups (expand : Expander) (trace : Tracer) :
    List Surface.Stmt → Binders → Compiler → List Lookup
  | [], _, _ => []
  | .return_ _ e :: _, b, s => exprLookups expand trace b e s
  | st :: ss, b, s =>
    stmtLookups expand trace st b s ++
      after (stmt expand st) s fun _ s₁ => bodyLookups expand trace ss (b.add st.declares) s₁

/-- The lookups of calls that are expanded so many levels deep. -/
def tracer : Nat → Tracer
  | 0, _, _, _, _ => []
  | depth + 1, b, d, args, s =>
    after (temporaries (d.function.params.zip args) []) s fun formals s₁ =>
      bodyLookups (expander depth) (tracer depth) d.function.body
        (b.enter (d.function.params.map Surface.Param.name)) (s₁.enter d formals)

def functionLookups (levels : Nat) (f : Surface.Function) (s : Compiler) : List Lookup :=
  after (globalInputs s.globals []) (s.start f) fun inputs s₁ =>
    after (paramInputs f.params inputs) s₁ fun _ s₂ =>
      stmtsLookups (expander levels) (tracer levels) f.body
        { own := f.params.map Surface.Param.name } (s₂.push [])

end Compile

/-- The names that are looked up while a mark of a file is compiled. -/
def Surface.File.lookups (file : Surface.File) (f : Surface.Function) : List Lookup :=
  Compile.functionLookups (Compile.depth file.loaded) f file.loaded

/-! ## Places -/

namespace Scope

/-- The names that the formals of frames stand for are bound further out. -/
def Anchored : List Frame → Prop
  | [] => True
  | f :: fs =>
    (∀ x y, f.formals.get? x = some y → ∃ g ∈ fs, y ∈ g.names) ∧ Anchored fs

variable {outermost : Frame} {fs : List Frame} {x : String} {v : Variable}

theorem lookup_of_unbound (h : ∀ f ∈ fs, x ∉ f.names) :
    lookup outermost fs x = outermost.vars.get? x := by
  induction fs with
  | nil => rfl
  | cons f fs ih =>
    rw [forall_mem_cons, Frame.names, mem_append, not_or, not_mem_keys_iff, not_mem_keys_iff] at h
    rw [lookup_below h.1.1 h.1.2, ih h.2]

/-- What a frame does not bind is bound further out. -/
theorem bound_below {f : Frame} (hvar : f.vars.get? x = none) (hformal : f.formals.get? x = none)
    (hx : ∃ g ∈ f :: fs, x ∈ g.names) : ∃ g ∈ fs, x ∈ g.names := by
  obtain ⟨g, hg, hgx⟩ := hx
  rcases mem_cons.mp hg with rfl | hg
  · rcases mem_append.mp hgx with hgx | hgx
    · exact absurd hgx ((not_mem_keys_iff _ _).mpr hvar)
    · exact absurd hgx ((not_mem_keys_iff _ _).mpr hformal)
  · exact ⟨g, hg, hgx⟩

/-- A variable is found under each name that frames bind. -/
theorem lookup_isSome_of_bound (hanchored : Anchored fs) (hx : ∃ f ∈ fs, x ∈ f.names) :
    (lookup outermost fs x).isSome = true := by
  induction fs generalizing x with
  | nil =>
    obtain ⟨f, hf, -⟩ := hx
    cases hf
  | cons f fs ih =>
    cases hvar : f.vars.get? x with
    | some v =>
      rw [lookup_vars hvar]
      rfl
    | none =>
      cases hformal : f.formals.get? x with
      | some y =>
        rw [lookup_formals hvar hformal]
        exact ih hanchored.2 (hanchored.1 x y hformal)
      | none =>
        rw [lookup_below hvar hformal]
        exact ih hanchored.2 (bound_below hvar hformal hx)

/-- What holds of the variables of frames holds of each one that is found under a name that the
frames bind. -/
theorem of_lookup_of_bound {P : Variable → Prop} (hanchored : Anchored fs)
    (hvars : ∀ f ∈ fs, ∀ y w, f.vars.get? y = some w → P w) (hx : ∃ f ∈ fs, x ∈ f.names)
    (h : lookup outermost fs x = some v) : P v := by
  induction fs generalizing x with
  | nil =>
    obtain ⟨f, hf, -⟩ := hx
    cases hf
  | cons f fs ih =>
    rw [forall_mem_cons] at hvars
    have hbelow := fun {y} => @ih y hanchored.2 hvars.2
    cases hvar : f.vars.get? x with
    | some w =>
      rw [lookup_vars hvar] at h
      cases h
      exact hvars.1 x v hvar
    | none =>
      cases hformal : f.formals.get? x with
      | some y =>
        rw [lookup_formals hvar hformal] at h
        exact hbelow (hanchored.1 x y hformal) h
      | none =>
        rw [lookup_below hvar hformal] at h
        exact hbelow (bound_below hvar hformal hx) h

theorem current_of_inner {scope : Scope} {f : Frame} {below : List Frame}
    (h : scope.inner = f :: below) : scope.current = f := by
  rw [current, h]
  rfl

theorem current_mem_inner {scope : Scope} (h : scope.inner ≠ []) :
    scope.current ∈ scope.inner := by
  obtain ⟨f, below, hf⟩ := exists_cons_of_ne_nil h
  rw [current_of_inner hf, hf]
  exact mem_cons_self

end Scope

/-- The scope at a place of a mark with inputs, of which `params` are its parameters. -/
structure Place (inputs : Dictionary Input) (params : List String) (b : Binders)
    (scope : Scope) : Prop where
  inner : scope.inner ≠ []
  outermost : ∀ x, scope.outermost.vars.get? x = (inputs.get? x).map fun i => ⟨x, i.type, x⟩
  issued : inputs.keys ⊆ scope.issued.keys
  params_bound : params ⊆ b.names
  /-- Inner frames bind names of the source and temporaries. -/
  names : ∀ f ∈ scope.inner, ∀ x ∈ f.names,
    x ∈ b.names ∨ x ∉ inputs.keys ∧ Scope.IsTemporary x
  bound : ∀ x ∈ b.names, x ∈ params ∨ ∃ f ∈ scope.inner, x ∈ f.names
  apart : ∀ f ∈ scope.inner, ∀ x v, f.vars.get? x = some v → v.unique ∉ inputs.keys
  anchored : Scope.Anchored scope.inner

namespace Place

variable {inputs : Dictionary Input} {params : List String} {b b' : Binders} {scope : Scope}
  {s s' : Compiler} {new : List String} {x : String} {v : Variable}

/-- A name that is bound neither around a place nor by temporaries is that of an input. -/
theorem get?_of_unbound (h : Place inputs params b scope) (hx : x ∉ b.names)
    (hinput : x ∈ inputs.keys ∨ ¬ Scope.IsTemporary x) :
    scope.get? x = (inputs.get? x).map fun i => ⟨x, i.type, x⟩ := by
  rw [Scope.get?, ← h.outermost x]
  refine Scope.lookup_of_unbound fun f hf hfx => ?_
  rcases h.names f hf x hfx with hmem | ⟨hkeys, htemporary⟩
  · exact hx hmem
  · rcases hinput with hinput | hinput
    · exact hkeys hinput
    · exact hinput htemporary

/-- A name that is bound around a place is not that of an input, parameters of the mark aside. -/
theorem unique_of_bound (h : Place inputs params b scope) (hx : x ∈ b.names) (hparam : x ∉ params)
    (hget : scope.get? x = some v) : v.unique ∉ inputs.keys :=
  Scope.of_lookup_of_bound h.anchored h.apart ((h.bound x hx).resolve_left hparam) hget

/-- At a place, a name is undefined exactly if it is bound neither there nor by a global. -/
theorem get?_eq_none_iff {globals : List String} (h : Place inputs params b scope)
    (hinputs : inputs.keys = globals ++ params) (hx : ¬ Scope.IsTemporary x) :
    scope.get? x = none ↔ x ∉ b.names ∧ x ∉ globals := by
  constructor
  · intro hnone
    have hunbound : ¬ ∃ f ∈ scope.inner, x ∈ f.names := by
      intro hbound
      have hsome : (scope.get? x).isSome = true := Scope.lookup_isSome_of_bound h.anchored hbound
      rw [hnone] at hsome
      cases hsome
    have hkeys : x ∉ inputs.keys := by
      rw [Scope.get?, Scope.lookup_of_unbound fun f hf hfx => hunbound ⟨f, hf, hfx⟩, h.outermost,
        Option.map_eq_none_iff] at hnone
      exact (not_mem_keys_iff _ _).mpr hnone
    rw [hinputs, mem_append, not_or] at hkeys
    refine ⟨fun hbound => ?_, hkeys.1⟩
    rcases h.bound x hbound with hparam | hframe
    · exact hkeys.2 hparam
    · exact hunbound hframe
  · rintro ⟨hbound, hglobal⟩
    rw [h.get?_of_unbound hbound (.inr hx), Option.map_eq_none_iff,
      ← not_mem_keys_iff, hinputs, mem_append, not_or]
    exact ⟨hglobal, fun hparam => hbound (h.params_bound hparam)⟩

/-- The place behind a step that declares names in the current frame. -/
theorem step (h : Place inputs params b s.scope) (hstep : Compiler.Step new s s')
    (hnew : new ⊆ s'.scope.current.names) :
    Place inputs params (b.add new) s'.scope := by
  obtain ⟨f, below, hf⟩ := exists_cons_of_ne_nil h.inner
  obtain ⟨vars, hvars, -, hkeys⟩ := hstep.inner f below hf
  have hnames := h.names
  have hanchored := h.anchored
  rw [hf] at hnames hanchored
  rw [forall_mem_cons] at hnames
  have hvisible : ∀ x ∈ inputs.keys, x ∈ s.scope.visible := by
    intro x hx
    refine Scope.mem_visible mem_cons_self (mem_append_left _ ?_)
    rw [mem_keys_iff] at hx ⊢
    rwa [h.outermost, Option.isSome_map]
  exact {
    inner := hstep.inner_ne_nil h.inner
    outermost := by
      rw [hstep.outermost]
      exact h.outermost
    issued := fun x hx => hstep.keys_issued (h.issued hx)
    params_bound := fun x hx => Binders.mem_names_add.mpr (.inr (h.params_bound hx))
    names := by
      simp only [Binders.mem_names_add, or_assoc]
      rw [hvars, forall_mem_cons]
      refine ⟨?_, fun g hg x hx => .inr (hnames.2 g hg x hx)⟩
      intro x hx
      rcases mem_append.mp hx with hx | hx
      · rcases hkeys x hx with hold | hdeclared | ⟨hfree, htemporary⟩
        · exact .inr (hnames.1 x (mem_append_left _ hold))
        · exact .inl hdeclared
        · exact .inr (.inr ⟨fun hx => hfree (hvisible x hx), htemporary⟩)
      · exact .inr (hnames.1 x (mem_append_right _ hx))
    bound := by
      intro x hx
      rcases Binders.mem_names_add.mp hx with hx | hx
      · exact .inr ⟨_, Scope.current_mem_inner (hstep.inner_ne_nil h.inner), hnew hx⟩
      · exact (h.bound x hx).imp_right hstep.bound
    apart := by
      intro g hg x v hx
      rcases hstep.fresh g hg x v hx with ⟨g, hg, hx⟩ | hfree
      · exact h.apart g hg x v hx
      · intro hinput
        exact (not_mem_keys_iff _ _).mpr hfree (h.issued hinput)
    anchored := by
      rw [hvars]
      exact hanchored }

/-- The place at the start of a frame. -/
theorem push (h : Place inputs params b scope) {formals : Dictionary String}
    (hformals : ∀ x y, formals.get? x = some y → ∃ f ∈ scope.inner, y ∈ f.names)
    (hnames : ∀ x, x ∈ b'.names ↔ x ∈ formals.keys ∨ x ∈ b.names) :
    Place inputs params b' (scope.push formals) where
  inner := cons_ne_nil _ _
  outermost := h.outermost
  issued := h.issued
  params_bound := fun x hx => (hnames x).mpr (.inr (h.params_bound hx))
  names := by
    refine forall_mem_cons.mpr ⟨?_, ?_⟩
    · intro x hx
      exact .inl ((hnames x).mpr (.inl hx))
    · intro f hf x hx
      exact (h.names f hf x hx).imp_left fun hx => (hnames x).mpr (.inr hx)
  bound := by
    intro x hx
    rcases (hnames x).mp hx with hx | hx
    · exact .inr ⟨_, mem_cons_self, mem_append_right _ hx⟩
    · refine (h.bound x hx).imp_right fun ⟨f, hf, hfx⟩ => ?_
      exact ⟨f, mem_cons_of_mem _ hf, hfx⟩
  apart := by
    refine forall_mem_cons.mpr ⟨?_, h.apart⟩
    intro x v hx
    cases hx
  anchored := ⟨hformals, h.anchored⟩

theorem block (h : Place inputs params b scope) : Place inputs params b (scope.push []) :=
  h.push nofun (by simp [Dictionary.keys])

end Place

/-! ## Steps between places -/

section Steps

open Compile

variable {inputs : Dictionary Input} {params : List String} {b : Binders} {s s' : Compiler}
  {code : List Stmt}

variable {span : Span} {x y : String} {t : ValueType} {expand : Expander} {st : Surface.Stmt}
  {u : Unit} {formals : Dictionary String}

/-- A declaration puts its name into the current frame. -/
theorem Compile.mem_current_of_declare (hinner : s.scope.inner ≠ [])
    (h : Runs (declare span x t) s y s' code) :
    x ∈ s'.scope.current.names := by
  obtain ⟨v, scope, hdeclare, -, rfl, -⟩ := runs_declare_iff.mp h
  obtain ⟨f, below, hf⟩ := exists_cons_of_ne_nil hinner
  obtain ⟨-, rfl, -, -, rfl⟩ := Scope.declare_ok hf hdeclare
  exact mem_append_left _ (mem_keys_insert_self _ _ _)

theorem Compile.declares_subset_current (hexpand : expand.Advancing) (hinner : s.scope.inner ≠ [])
    (hrun : Runs (Compile.stmt expand st) s u s' code) : st.declares ⊆ s'.scope.current.names := by
  cases st with
  | declare span x type init =>
    refine cons_subset.mpr ⟨?_, nil_subset _⟩
    rw [Compile.stmt] at hrun
    obtain ⟨type', -, ⟨value, e, s₁, c₁, y, e', rank, -, h₁, h₂, -⟩ | ⟨t, y, -, -, h₁, -⟩⟩ :=
      runs_declaration hrun
    · have hstep : Compiler.Step [] s s₁ := advances_expr hexpand value s e s₁ c₁ hinner h₁
      exact mem_current_of_declare (hstep.inner_ne_nil hinner) h₂
    · exact mem_current_of_declare hinner h₁
  | _ => exact nil_subset _

/-- A temporary has a new name, and it is found under that in the current frame. -/
theorem Compile.new_of_temporary {v : Variable} (hinner : s.scope.inner ≠ [])
    (h : Runs (temporary t) s v s' code) :
    v.unique ∉ s.scope.issued.keys ∧ v.type = t ∧ s'.scope.get? v.name = some v ∧
      ∃ f ∈ s'.scope.inner, v.name ∈ f.names := by
  obtain ⟨hv, rfl, -⟩ := runs_temporary_iff.mp h
  obtain ⟨f, below, hf⟩ := exists_cons_of_ne_nil hinner
  have htemporary : s.scope.temporary t = (v, (s.scope.temporary t).2) := by rw [hv]
  obtain ⟨-, htype, -, hfree, hscope⟩ := Scope.temporary_eq hf htemporary
  refine ⟨(not_mem_keys_iff _ _).mpr hfree, htype, ?_⟩
  show (s.scope.temporary t).2.get? v.name = some v ∧
    ∃ f ∈ (s.scope.temporary t).2.inner, v.name ∈ f.names
  rw [hscope]
  exact ⟨Scope.lookup_vars (get?_insert_self _ _ _), _, mem_cons_self,
    mem_append_left _ (mem_keys_insert_self _ _ _)⟩

/-- The names that formals stand for are bound when the temporaries are made. -/
theorem Compile.bound_of_temporaries {bound : List (Surface.Param × Expr)}
    {done : Dictionary String} (hinner : s.scope.inner ≠ [])
    (hdone : ∀ x y, done.get? x = some y → ∃ f ∈ s.scope.inner, y ∈ f.names)
    (h : Runs (temporaries bound done) s formals s' code) :
    (∀ x y, formals.get? x = some y → ∃ f ∈ s'.scope.inner, y ∈ f.names) ∧
      ∀ x, x ∈ formals.keys ↔ x ∈ done.keys ∨ x ∈ (bound.map Prod.fst).map Surface.Param.name := by
  induction bound generalizing s done code with
  | nil =>
    obtain ⟨rfl, rfl, -⟩ := runs_pure_iff.mp h
    exact ⟨hdone, by simp⟩
  | cons p bound ih =>
    obtain ⟨v, s₁, c, htemporary, hlater, -⟩ := runs_temporaries_cons h
    have hstep : Compiler.Step [] s s₁ := advances_temporary _ s v s₁ [] hinner htemporary
    have hdone' : ∀ x y, (done.insert p.1.name v.name).get? x = some y →
        ∃ f ∈ s₁.scope.inner, y ∈ f.names := by
      intro x y hx
      rcases get?_insert_cases hx with ⟨-, rfl⟩ | hx
      · exact (new_of_temporary hinner htemporary).2.2.2
      · exact hstep.bound (hdone x y hx)
    obtain ⟨hformals, hkeys⟩ := ih (hstep.inner_ne_nil hinner) hdone' hlater
    refine ⟨hformals, fun x => ?_⟩
    rw [hkeys, mem_keys_insert_iff, map_cons, map_cons, mem_cons, or_assoc]
    exact or_left_comm

/-- The place at the start of the body of a function that is expanded. -/
theorem Place.enter (h : Place inputs params b s.scope) {ps : List Surface.Param} {args : List Expr}
    (hlength : ps.length = args.length)
    (hrun : Runs (temporaries (ps.zip args) []) s formals s' code) :
    Place inputs params (b.enter (ps.map Surface.Param.name)) (s'.scope.push formals) ∧
      ∀ x, x ∈ ps.map Surface.Param.name ↔ x ∈ formals.keys := by
  have hnone : ∀ x y, Dictionary.get? ([] : Dictionary String) x = some y →
      ∃ f ∈ s.scope.inner, y ∈ f.names := by
    intro x y hx
    cases hx
  obtain ⟨hformals, hkeys⟩ := bound_of_temporaries h.inner hnone hrun
  have hparams : ∀ x, x ∈ ps.map Surface.Param.name ↔ x ∈ formals.keys := by
    intro x
    rw [hkeys, map_fst_zip (Nat.le_of_eq hlength)]
    simp [Dictionary.keys]
  have hplace : Place inputs params b s'.scope :=
    h.step (advances_temporaries _ [] s formals s' code h.inner hrun) (nil_subset _)
  refine ⟨hplace.push hformals fun x => ?_, hparams⟩
  rw [Binders.mem_names_enter, hparams]

end Steps

end DataMarks
