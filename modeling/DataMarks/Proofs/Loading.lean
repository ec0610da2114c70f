/-
  What a file makes available, and the inputs of a function.

  Loading a file that is accepted adds its functions, those that it imports and its
  globals (`Compile.runs_load`). The globals and the parameters of a function become inputs
  that stand, under their own names, in the outermost frame and in the names given out
  (`InputScope`).
-/
import DataMarks.Proofs.CompileState
import DataMarks.Proofs.LibraryText

namespace DataMarks

open Dictionary List Compile Surface

namespace Surface

/-- The functions that a block makes available to calls. -/
def Block.definitions : Block → List Definition
  | .function f => [⟨none, f⟩]
  | .global _ => []
  | .import_ i =>
    match Library.module? i.module, i.names with
    | none, _ => []
    | some m, none => m.functions.map fun f => ⟨some m.name, f⟩
    | some m, some names => names.flatMap fun n => (m.named n.2).map fun f => ⟨some m.name, f⟩

def File.definitions (file : File) : List Definition := file.blocks.flatMap Block.definitions

variable {file : File} {f : Function}

theorem File.mem_definitions_of_mem (h : f ∈ file.functions) : ⟨none, f⟩ ∈ file.definitions :=
  mem_flatMap.mpr ⟨_, mem_functions_iff.mp h, mem_singleton.mpr rfl⟩

/-- The functions that a file makes available are its own and some of the library's. -/
theorem File.mem_definitions {d : Definition} (h : d ∈ file.definitions) :
    (∃ f ∈ file.functions, d = ⟨none, f⟩) ∨
      ∃ m ∈ Library.modules, ∃ f ∈ m.functions, d = ⟨some m.name, f⟩ := by
  obtain ⟨b, hb, hd⟩ := mem_flatMap.mp h
  cases b with
  | function f =>
    obtain rfl := mem_singleton.mp hd
    exact .inl ⟨f, mem_functions_iff.mpr hb, rfl⟩
  | global g => cases hd
  | import_ i =>
    right
    rw [Block.definitions] at hd
    split at hd
    · cases hd
    · rename_i m hm _
      obtain ⟨f, hf, rfl⟩ := mem_map.mp hd
      rw [Library.module?] at hm
      exact ⟨m, mem_of_find?_eq_some hm, f, hf, rfl⟩
    · rename_i m names hm _
      obtain ⟨name, _, hd⟩ := mem_flatMap.mp hd
      obtain ⟨f, hf, rfl⟩ := mem_map.mp hd
      rw [Library.module?] at hm
      exact ⟨m, mem_of_find?_eq_some hm, f, (mem_filter.mp hf).1, rfl⟩

def Block.globals : Block → List Global
  | .global g => [g]
  | _ => []

def File.globals (file : File) : List Global := file.blocks.flatMap Block.globals

/-- What is loaded of a file. -/
abbrev File.loaded (file : File) : Compiler :=
  { resolver := { functions := file.definitions }, globals := file.globals }

/-- The last mark or shader of a name. -/
def lastRenderable? (fs : List Function) (name : String) : Option Function :=
  fs.reverse.find? fun f => f.isRenderable && f.name == name

theorem lastRenderable?_cons (f : Function) (fs : List Function) (name : String) :
    lastRenderable? (f :: fs) name =
      (lastRenderable? fs name).or (if f.isRenderable && f.name == name then some f else none) := by
  unfold lastRenderable?
  rw [reverse_cons, find?_append, find?_singleton]

/-- The mark or shader that a name means. -/
def File.renderable? (file : File) (name : String) : Option Function :=
  lastRenderable? file.functions name

theorem File.mem_of_renderable? {name : String} (h : file.renderable? name = some f) :
    f ∈ file.functions :=
  mem_reverse.mp (mem_of_find?_eq_some h)

end Surface

theorem Resolver.addAll_eq (r : Resolver) (module : Option String)
    (fs : List Function) :
    r.addAll module fs = { r with functions := r.functions ++ fs.map fun f => ⟨module, f⟩ } := by
  induction fs generalizing r with
  | nil => simp [addAll]
  | cons f fs ih =>
    have hadd : r.addAll module (f :: fs) = (r.add ⟨module, f⟩).addAll module fs := rfl
    rw [hadd, ih]
    simp [add]

variable {fs : List Function} {file : File}

namespace Compile

/-! ## Loading -/

/-- The state with more functions to call. -/
def withDefinitions (s : Compiler) (ds : List Definition) : Compiler :=
  { s with resolver := { s.resolver with functions := s.resolver.functions ++ ds } }

theorem withDefinitions_append (s : Compiler) (ds es : List Definition) :
    withDefinitions (withDefinitions s ds) es = withDefinitions s (ds ++ es) := by
  simp [withDefinitions]

section Loading

variable {s s' : Compiler} {u : Unit} {code : List Stmt}

theorem runs_addFunctions {module : Option String} (h : Runs (addFunctions module fs) s u s' code) :
    s' = withDefinitions s (fs.map fun f => ⟨module, f⟩) ∧ code = [] := by
  obtain ⟨rfl, rfl⟩ := runs_update_iff.mp h
  refine ⟨?_, rfl⟩
  rw [Resolver.addAll_eq]
  rfl

theorem runs_importNames {m : Module} {names : List (Span × String)}
    (h : Runs (importNames m names) s u s' code) :
    s' = withDefinitions s
      (names.flatMap fun n => (m.named n.2).map fun f => ⟨some m.name, f⟩) ∧ code = [] := by
  induction names generalizing s code with
  | nil =>
    obtain ⟨-, rfl, rfl⟩ := runs_pure_iff.mp h
    exact ⟨by simp [withDefinitions], rfl⟩
  | cons n names ih =>
    obtain ⟨span, name⟩ := n
    rw [importNames] at h
    split at h
    · exact absurd h not_runs_fail
    · obtain ⟨_, s₁, _, _, h₁, h₂, rfl⟩ := runs_bind_iff.mp h
      obtain ⟨rfl, rfl⟩ := runs_addFunctions h₁
      obtain ⟨rfl, rfl⟩ := ih h₂
      rw [withDefinitions_append, flatMap_cons]
      exact ⟨rfl, rfl⟩

theorem runs_loadImport {i : Import} (h : Runs (loadImport i) s u s' code) :
    s' = withDefinitions s (Block.import_ i).definitions ∧ code = [] := by
  unfold loadImport at h
  rw [Block.definitions]
  split at h
  · exact absurd h not_runs_fail
  · rename_i m hm
    rw [hm]
    split at h
    · rename_i hnames
      rw [hnames]
      exact runs_addFunctions h
    · rename_i names hnames
      rw [hnames]
      exact runs_importNames h

/-- Parameters of functions that are loaded have known types and defaults of these. -/
theorem runs_loadParams {ps : List Param} (h : Runs (loadParams ps) s u s' code) :
    s' = s ∧ code = [] ∧ ∀ p ∈ ps, p.Fits := by
  induction ps generalizing s code with
  | nil =>
    obtain ⟨-, rfl, rfl⟩ := runs_pure_iff.mp h
    exact ⟨rfl, rfl, by simp⟩
  | cons p ps ih =>
    rw [loadParams] at h
    obtain ⟨t, s₁, _, _, h₁, k₁, rfl⟩ := runs_bind_iff.mp h
    obtain ⟨ht, rfl, rfl⟩ := runs_valueType_iff.mp h₁
    obtain ⟨w, s₂, _, _, h₂, k₂, rfl⟩ := runs_bind_iff.mp k₁
    obtain ⟨rfl, rfl, haccepts, rfl⟩ := runs_defaultValue h₂
    obtain ⟨rfl, rfl, hps⟩ := ih k₂
    refine ⟨rfl, rfl, forall_mem_cons.mpr ⟨?_, hps⟩⟩
    intro t' ht' v hv
    rw [ht] at ht'
    cases ht'
    refine haccepts v ?_
    rw [Option.mem_def.mp hv]
    rfl

theorem runs_loadBlock {b : Block} (h : Runs (loadBlock b) s u s' code) :
    s' = { withDefinitions s b.definitions with globals := s.globals ++ b.globals } ∧ code = [] ∧
      ∀ f, b = .function f → ∀ p ∈ f.params, p.Fits := by
  cases b with
  | function f =>
    rw [loadBlock] at h
    obtain ⟨_, s₁, _, _, h₁, k₁, rfl⟩ := runs_bind_iff.mp h
    obtain ⟨rfl, rfl, hfits⟩ := runs_loadParams h₁
    obtain ⟨_, s₂, _, _, h₂, k₂, rfl⟩ := runs_bind_iff.mp k₁
    obtain ⟨-, rfl, rfl⟩ := runs_valueType?_iff.mp h₂
    obtain ⟨rfl, rfl⟩ := runs_addFunctions k₂
    refine ⟨?_, rfl, ?_⟩
    · simp [withDefinitions, Block.definitions, Block.globals]
    · intro g hg
      cases hg
      exact hfits
  | global g =>
    rw [loadBlock] at h
    obtain ⟨_, s₁, _, _, h₁, k₁, rfl⟩ := runs_bind_iff.mp h
    obtain ⟨-, rfl, rfl⟩ := runs_valueType_iff.mp h₁
    obtain ⟨rfl, rfl⟩ := runs_update_iff.mp k₁
    refine ⟨?_, rfl, fun f hf => by cases hf⟩
    simp [withDefinitions, Block.definitions, Block.globals]
  | import_ i =>
    rw [loadBlock] at h
    obtain ⟨rfl, rfl⟩ := runs_loadImport h
    refine ⟨?_, rfl, fun f hf => by cases hf⟩
    simp [withDefinitions, Block.globals]

/-- A file that is loaded adds its functions and globals, and the parameters of its functions have
defaults of their types. -/
theorem runs_load (h : Runs (load file) s u s' code) :
    s' = { withDefinitions s file.definitions with globals := s.globals ++ file.globals } ∧
      ∀ f ∈ file.functions, ∀ p ∈ f.params, p.Fits := by
  have hblocks : ∀ (bs : List Block) s u code, Runs (loadBlocks bs) s u s' code →
      s' = { withDefinitions s (bs.flatMap Block.definitions) with
        globals := s.globals ++ bs.flatMap Block.globals } ∧
      ∀ f, .function f ∈ bs → ∀ p ∈ f.params, p.Fits := by
    intro bs
    induction bs with
    | nil =>
      intro s u code h
      obtain ⟨-, rfl, -⟩ := runs_pure_iff.mp h
      refine ⟨by simp [withDefinitions], ?_⟩
      intro f hf
      cases hf
    | cons b bs ih =>
      intro s u code h
      rw [loadBlocks] at h
      obtain ⟨_, s₁, _, _, h₁, h₂, rfl⟩ := runs_bind_iff.mp h
      obtain ⟨rfl, rfl, hb⟩ := runs_loadBlock h₁
      obtain ⟨rfl, hbs⟩ := ih _ _ _ h₂
      refine ⟨?_, ?_⟩
      · simp [withDefinitions]
      · intro f hf
        rcases mem_cons.mp hf with heq | hf
        · exact hb f heq.symm
        · exact hbs f hf
  obtain ⟨hstate, hfits⟩ := hblocks file.blocks s u code h
  exact ⟨hstate, fun f hf => hfits f (File.mem_functions_iff.mp hf)⟩

end Loading

end Compile

/-! ## Inputs -/

/-- The input that a declared name of a type is; without a value of its own it takes that of the
type. -/
def inputOf? (type : Surface.TypeName) (default : Option Value) : Option Input :=
  (ValueType.ofName? type.name).map fun t => { type := t, default := default <|> t.defaultValue? }

/-- An entry among the inputs stands for a declared name. -/
structure IsInput (name : String) (type : Surface.TypeName) (default : Option Value)
    (e : String × Input) : Prop where
  name : e.1 = name
  input : inputOf? type default = some e.2
  accepts : ∀ v ∈ e.2.default, e.2.type.accepts v = true

theorem IsInput.keys_of_forall₂ {α : Type} {name : α → String} {type : α → Surface.TypeName}
    {default : α → Option Value} {as : List α} {entries : Dictionary Input}
    (h : Forall₂ (fun a e => IsInput (name a) (type a) (default a) e) as entries) :
    entries.keys = as.map name := by
  unfold Dictionary.keys
  induction h with
  | nil => rfl
  | cons he _ ih => rw [map_cons, map_cons, ih, he.name]

/-- A scope of inputs only: each stands in the outermost frame and is given out under its own
name. -/
structure InputScope (scope : Scope) (inputs : Dictionary Input) : Prop where
  inner : scope.inner = []
  formals : scope.outermost.formals = []
  vars : scope.outermost.vars = inputs.map fun e => (e.1, ⟨e.1, e.2.type, e.1⟩)
  issued : scope.issued = inputs.map fun e => (e.1, e.2.type)
  nodup : inputs.keys.Nodup

namespace InputScope

variable {scope scope' : Scope} {inputs : Dictionary Input} {x : String} {t : ValueType}
  {v : Variable}

theorem empty : InputScope {} [] := ⟨rfl, rfl, rfl, rfl, nodup_nil⟩

theorem get?_vars (h : InputScope scope inputs) (y : String) :
    scope.outermost.vars.get? y = (inputs.get? y).map fun i => ⟨y, i.type, y⟩ := by
  rw [h.vars, get?_map fun e : String × Input => (⟨e.1, e.2.type, e.1⟩ : Variable)]

theorem get?_issued (h : InputScope scope inputs) (y : String) :
    scope.issued.get? y = (inputs.get? y).map Input.type := by
  rw [h.issued, get?_map fun e : String × Input => e.2.type]

theorem declareGlobal (h : InputScope scope inputs)
    (hd : scope.declareGlobal x t = .ok (v, scope')) (default : Option Value) :
    inputs.insert x { type := t, default } = inputs ++ [(x, { type := t, default })] ∧
      InputScope scope' (inputs.insert x { type := t, default }) := by
  obtain ⟨hbinds, rfl, rfl⟩ := Scope.declared_ok_iff.mp hd
  have hx : x ∉ inputs.keys := by
    rw [mem_keys_iff]
    intro hsome
    refine Bool.false_ne_true (hbinds.symm.trans ?_)
    unfold Scope.frame Frame.binds Dictionary.contains
    rw [h.get?_vars, Option.isSome_map, hsome, Bool.true_or]
  have hissued : x ∉ scope.issued.keys := by
    rwa [mem_keys_iff, h.get?_issued, Option.isSome_map, ← mem_keys_iff]
  have hvars : x ∉ scope.outermost.vars.keys := by
    rwa [mem_keys_iff, h.get?_vars, Option.isSome_map, ← mem_keys_iff]
  have hinsert : inputs.insert x { type := t, default } =
      inputs ++ [(x, { type := t, default })] := insert_of_not_mem_keys hx
  rw [Name.fresh_eq_self hissued, hinsert]
  refine ⟨rfl, ?_⟩
  refine
    { inner := h.inner
      formals := h.formals
      vars := ?_
      issued := ?_
      nodup := ?_ }
  · show scope.outermost.vars.insert x _ = _
    rw [insert_of_not_mem_keys hvars, h.vars, map_append]
    rfl
  · show scope.issued.insert x t = _
    rw [insert_of_not_mem_keys hissued, h.issued, map_append]
    rfl
  · rw [Dictionary.keys, map_append]
    exact nodup_append_comm.mp (nodup_cons.mpr ⟨hx, h.nodup⟩)

/-- In the outermost frame, local variables are declared as globals are. -/
theorem declare_eq (h : InputScope scope inputs) : scope.declare x t = scope.declareGlobal x t := by
  unfold Scope.declare Scope.declareGlobal Scope.add Scope.frame Scope.modify
  dsimp only
  unfold Scope.current Scope.modifyCurrent
  rw [h.inner]
  rfl

/-- A name that is declared and gets its default is one more input. -/
theorem input {s s' : Compiler} {code : List Stmt} {type : Surface.TypeName} {span : Span}
    {default value : Option Value} (h : InputScope scope inputs)
    (ht : ValueType.ofName? type.name = some t)
    (hdeclare : scope.declareGlobal x t = .ok (v, scope'))
    (hdefault : Runs (defaultValue span t default) s value s' code) :
    ∃ e, IsInput x type default e ∧
      inputs.insert x { type := t, default := value } = inputs ++ [e] ∧
      InputScope scope' (inputs ++ [e]) ∧ s' = s := by
  obtain ⟨rfl, -, haccepts, rfl⟩ := runs_defaultValue hdefault
  obtain ⟨hinsert, hscope⟩ := h.declareGlobal hdeclare (default <|> t.defaultValue?)
  rw [hinsert] at hscope
  have hinput : inputOf? type default =
      some { type := t, default := default <|> t.defaultValue? } := by
    rw [inputOf?, ht]
    rfl
  exact ⟨_, ⟨rfl, hinput, haccepts⟩, hinsert, hscope, rfl⟩

end InputScope

namespace Compile

section Inputs

variable {s s' : Compiler} {code : List Stmt} {done inputs : Dictionary Input}
variable {levels : Nat} {f : Function} {spec : Specification}

theorem runs_globalInputs {gs : List Global} (hs : InputScope s.scope done)
    (h : Runs (globalInputs gs done) s inputs s' code) :
    ∃ entries, inputs = done ++ entries ∧
      Forall₂ (fun g e => IsInput g.name g.type g.default e) gs entries ∧
      InputScope s'.scope inputs ∧ s' = { s with scope := s'.scope } := by
  induction gs generalizing s done code with
  | nil =>
    obtain ⟨rfl, rfl, rfl⟩ := runs_pure_iff.mp h
    exact ⟨[], (append_nil _).symm, .nil, hs, rfl⟩
  | cons g gs ih =>
    rw [globalInputs] at h
    obtain ⟨t, s₁, _, _, h₁, k₁, rfl⟩ := runs_bind_iff.mp h
    obtain ⟨ht, rfl, rfl⟩ := runs_valueType_iff.mp h₁
    obtain ⟨_, s₂, _, _, h₂, k₂, rfl⟩ := runs_bind_iff.mp k₁
    obtain ⟨v, scope, hdeclare, rfl, rfl⟩ := runs_declareGlobal h₂
    obtain ⟨w, s₃, _, _, h₃, k₃, rfl⟩ := runs_bind_iff.mp k₂
    obtain ⟨e, he, hinsert, hscope, rfl⟩ := hs.input ht hdeclare h₃
    rw [hinsert] at k₃
    obtain ⟨entries, rfl, hentries, hs', hstate⟩ := ih hscope k₃
    exact ⟨e :: entries, append_assoc done [e] entries, .cons he hentries, hs', hstate⟩

theorem runs_paramInputs {ps : List Param} (hs : InputScope s.scope done)
    (h : Runs (paramInputs ps done) s inputs s' code) :
    ∃ entries, inputs = done ++ entries ∧
      Forall₂ (fun p e => IsInput p.name p.type p.default e) ps entries ∧
      InputScope s'.scope inputs ∧ s' = { s with scope := s'.scope } := by
  induction ps generalizing s done code with
  | nil =>
    obtain ⟨rfl, rfl, rfl⟩ := runs_pure_iff.mp h
    exact ⟨[], (append_nil _).symm, .nil, hs, rfl⟩
  | cons p ps ih =>
    rw [paramInputs] at h
    obtain ⟨t, s₁, _, _, h₁, k₁, rfl⟩ := runs_bind_iff.mp h
    obtain ⟨ht, rfl, rfl⟩ := runs_valueType_iff.mp h₁
    obtain ⟨_, s₂, _, _, h₂, k₂, rfl⟩ := runs_bind_iff.mp k₁
    obtain ⟨v, scope, hdeclare, -, rfl, rfl⟩ := runs_declare_iff.mp h₂
    rw [hs.declare_eq] at hdeclare
    obtain ⟨w, s₃, _, _, h₃, k₃, rfl⟩ := runs_bind_iff.mp k₂
    obtain ⟨e, he, hinsert, hscope, rfl⟩ := hs.input ht hdeclare h₃
    rw [hinsert] at k₃
    obtain ⟨entries, rfl, hentries, hs', hstate⟩ := ih hscope k₃
    exact ⟨e :: entries, append_assoc done [e] entries, .cons he hentries, hs', hstate⟩

/-- A function is compiled behind its inputs: the globals, then its parameters. -/
theorem runs_functionWithin_steps (h : Runs (functionWithin levels f) s spec s' code) :
    ∃ globals s₁ c₁ inputs s₂ c₂ statements,
      Runs (globalInputs s.globals []) (s.start f) globals s₁ c₁ ∧
      Runs (paramInputs f.params globals) s₁ inputs s₂ c₂ ∧
      Runs (inBlock (stmts (expander levels) f.body)) s₂ () s' statements ∧
      spec = {
        isShader := f.kind = .shader
        inputs
        outputs := s'.outputs.map fun e => (e.1, e.2.1)
        locals := s'.scope.issued.filter fun e => !inputs.contains e.1
        statements } := by
  unfold functionWithin at h
  obtain ⟨_, s₀, _, _, h₀, k₀, rfl⟩ := runs_bind_iff.mp h
  obtain ⟨rfl, rfl⟩ := runs_update_iff.mp h₀
  obtain ⟨_, s₃, _, _, h₁, k₁, rfl⟩ := runs_bind_iff.mp k₀
  obtain ⟨rfl, rfl, rfl⟩ := runs_state_iff.mp h₁
  obtain ⟨globals, s₁, c₁, _, h₂, k₂, rfl⟩ := runs_bind_iff.mp k₁
  obtain ⟨inputs, s₂, c₂, _, h₃, k₃, rfl⟩ := runs_bind_iff.mp k₂
  obtain ⟨statements, s₄, _, _, h₄, k₄, rfl⟩ := runs_bind_iff.mp k₃
  obtain ⟨hbody, rfl⟩ := runs_capture_iff.mp h₄
  obtain ⟨_, _, _, _, h₅, k₅, rfl⟩ := runs_bind_iff.mp k₄
  obtain ⟨rfl, rfl, rfl⟩ := runs_state_iff.mp h₅
  obtain ⟨rfl, rfl, rfl⟩ := runs_pure_iff.mp k₅
  exact ⟨globals, s₁, c₁, inputs, s₂, c₂, statements, h₂, h₃, hbody, rfl⟩

/-- A function is compiled in the scope of its inputs: the globals, then its parameters. -/
theorem runs_functionWithin (h : Runs (functionWithin levels f) s spec s' code) :
    ∃ globals params s₁ s₂ statements,
      Forall₂ (fun g e => IsInput g.name g.type g.default e) s.globals globals ∧
      Forall₂ (fun p e => IsInput p.name p.type p.default e) f.params params ∧
      InputScope s₁.scope (globals ++ params) ∧
      s₁ = { s with scope := s₁.scope, outputs := [], callStack := [(none, f.name)] } ∧
      Runs (inBlock (stmts (expander levels) f.body)) s₁ () s₂ statements ∧
      spec = {
        isShader := f.kind = .shader
        inputs := globals ++ params
        outputs := s₂.outputs.map fun e => (e.1, e.2.1)
        locals := s₂.scope.issued.filter fun e => !Dictionary.contains (globals ++ params) e.1
        statements } ∧ s' = s₂ := by
  obtain ⟨_, s₀, _, _, s₁, _, statements, h₁, h₂, hbody, rfl⟩ := runs_functionWithin_steps h
  obtain ⟨globals, rfl, hglobals, hscope, hs₀⟩ := runs_globalInputs .empty h₁
  obtain ⟨params, rfl, hparams, hscope₁, hs₁⟩ := runs_paramInputs hscope h₂
  refine ⟨_, params, s₁, s', statements, hglobals, hparams, hscope₁, ?_, hbody, rfl, rfl⟩
  rw [hs₁, hs₀]

/-- The functions and globals stay while a function is compiled. -/
theorem functionWithin_keeps (h : Runs (functionWithin levels f) s spec s' code) :
    s'.resolver = s.resolver ∧ s'.globals = s.globals := by
  obtain ⟨_, _, s₁, s₂, statements, _, _, _, hs₁, hbody, _, rfl⟩ := runs_functionWithin h
  obtain ⟨s₃, hstmts, rfl⟩ := runs_inFrame_iff.mp hbody
  have hstep := advances_stmts (advancing_expander levels) f.body _ () s₃ statements
    (cons_ne_nil _ _) hstmts
  have hresolver : s₃.resolver = s₁.resolver := hstep.resolver
  have hglobals : s₃.globals = s₁.globals := hstep.globals
  rw [hs₁] at hresolver hglobals
  exact ⟨hresolver, hglobals⟩

/-- The specification of a name is that of the last mark or shader of the name, compiled with the
functions and globals that are there at the start. -/
theorem runs_functions {done specs : Dictionary Specification}
    (h : Runs (functions fs done) s specs s' code) (name : String) :
    (lastRenderable? fs name = none → specs.get? name = done.get? name) ∧
      ∀ f, lastRenderable? fs name = some f →
        ∃ spec s₁ s₂ c, specs.get? name = some spec ∧ s₁.resolver = s.resolver ∧
          s₁.globals = s.globals ∧ Runs (functionWithin (depth s₁) f) s₁ spec s₂ c := by
  induction fs generalizing s done code with
  | nil =>
    obtain ⟨rfl, -, -⟩ := runs_pure_iff.mp h
    exact ⟨fun _ => rfl, nofun⟩
  | cons f fs ih =>
    rw [lastRenderable?_cons]
    rw [functions] at h
    split at h
    · rename_i hf
      obtain ⟨spec, s₁, c₁, c₂, h₁, h₂, rfl⟩ := runs_bind_iff.mp h
      obtain ⟨_, _, _, c, hstate, hfunction, rfl⟩ := runs_bind_iff.mp h₁
      obtain ⟨rfl, rfl, rfl⟩ := runs_state_iff.mp hstate
      obtain ⟨hresolver, hglobals⟩ := functionWithin_keeps hfunction
      obtain ⟨hnone, hsome⟩ := ih h₂
      cases hlater : lastRenderable? fs name with
      | some g =>
        refine ⟨nofun, ?_⟩
        intro g' hg'
        cases hg'
        obtain ⟨spec', t₁, t₂, c', hspec, hr, hgl, hrun⟩ := hsome g hlater
        exact ⟨spec', t₁, t₂, c', hspec, hr.trans hresolver, hgl.trans hglobals, hrun⟩
      | none =>
        rw [hnone hlater, get?_insert, Option.none_or, hf, Bool.true_and]
        by_cases hname : f.name = name
        · subst hname
          rw [if_pos rfl, if_pos (beq_self_eq_true f.name)]
          refine ⟨nofun, ?_⟩
          intro g hg
          cases hg
          exact ⟨spec, _, s₁, c, rfl, rfl, rfl, hfunction⟩
        · rw [if_neg (Ne.symm hname), if_neg (by simpa using hname)]
          exact ⟨fun _ => rfl, nofun⟩
    · rename_i hf
      rw [if_neg (by simp [hf]), Option.or_none]
      exact ih h

theorem nodup_keys_functions {done specs : Dictionary Specification} (hdone : done.keys.Nodup)
    (h : Runs (functions fs done) s specs s' code) : specs.keys.Nodup := by
  induction fs generalizing s done code with
  | nil =>
    obtain ⟨rfl, -, -⟩ := runs_pure_iff.mp h
    exact hdone
  | cons f fs ih =>
    rw [functions] at h
    split at h
    · obtain ⟨spec, s₁, c₁, c₂, h₁, h₂, rfl⟩ := runs_bind_iff.mp h
      exact ih (nodup_keys_insert hdone) h₂
    · exact ih hdone h

end Inputs

end Compile

/-- What a file that is accepted compiles to: the marks and shaders of its names, compiled with the
functions and globals of the file. -/
structure Surface.File.Compiles (file : Surface.File) (specs : Dictionary Specification) :
    Prop where
  fits : ∀ f ∈ file.functions, ∀ p ∈ f.params, p.Fits
  nodup : specs.keys.Nodup
  none : ∀ name, file.renderable? name = none → specs.get? name = none
  some : ∀ name f, file.renderable? name = some f → ∃ spec s s' code,
    specs.get? name = some spec ∧ s.resolver = { functions := file.definitions } ∧
    s.globals = file.globals ∧
    Compile.Runs (Compile.functionWithin (Compile.depth s) f) s spec s' code

variable {specs : Dictionary Specification}

theorem Surface.File.compiles (h : file.compile = .ok specs) : file.Compiles specs := by
  obtain ⟨s', code, hsteps⟩ := runs_of_result h
  obtain ⟨_, s, c₁, c₂, hload, hfunctions, rfl⟩ := runs_bind_iff.mp hsteps
  obtain ⟨rfl, hfits⟩ := runs_load hload
  have hnil : (Dictionary.keys ([] : Dictionary Specification)).Nodup := nodup_nil
  exact {
    fits := hfits
    nodup := nodup_keys_functions hnil hfunctions
    none := fun name => (runs_functions hfunctions name).1
    some := fun name => (runs_functions hfunctions name).2 }

/-- Each specification is that of a mark or shader. -/
theorem Surface.File.Compiles.of_mem (h : file.Compiles specs) {name : String}
    {spec : Specification} (hspec : (name, spec) ∈ specs) :
    ∃ f s s' code, file.renderable? name = Option.some f ∧
      s.resolver = { functions := file.definitions } ∧
      Runs (functionWithin (depth s) f) s spec s' code := by
  have hget : specs.get? name = Option.some spec := get?_of_mem h.nodup hspec
  cases hf : file.renderable? name with
  | none =>
    rw [h.none name hf] at hget
    cases hget
  | some f =>
    obtain ⟨spec', s, s', code, hspec', hresolver, -, hrun⟩ := h.some name f hf
    rw [hget] at hspec'
    cases hspec'
    exact ⟨f, s, s', code, rfl, hresolver, hrun⟩

/-! ## Evaluation -/

/-- As `function`, with the number of functions in the library written out. -/
def Compile.functionOf (f : Surface.Function) : Compile Specification := do
  functionWithin ((← state).resolver.functions.length + 11 + 1) f

theorem Compile.function_eq : function = functionOf := by
  funext f
  unfold function functionOf depth
  rw [Library.size_eq]

/-- As `functions`, with the number of functions in the library written out. -/
def Compile.functionsOf : List Surface.Function → Dictionary Specification →
    Compile (Dictionary Specification)
  | [], done => return done
  | f :: fs, done => do
    if f.isRenderable then
      let spec ← functionOf f
      functionsOf fs (done.insert f.name spec)
    else
      functionsOf fs done

theorem Compile.functions_eq (fs : List Function) (done : Dictionary Specification) :
    functions fs done = functionsOf fs done := by
  induction fs generalizing done with
  | nil => rfl
  | cons f fs ih =>
    rw [functionsOf, functions, function_eq]
    simp only [ih]

/-- A file and its specifications, evaluated from the characters of a text. -/
def Surface.File.read? (n size : Nat) (source : List Char) :
    Option (File × Dictionary Specification) :=
  match File.parseChars n size source with
  | .error _ => none
  | .ok file =>
    let steps : Compile (Dictionary Specification) := do
      Compile.load file
      Compile.functionsOf file.functions []
    match (steps {}).result with
    | .error _ => none
    | .ok specs => some (file, specs)

theorem Surface.File.of_read? {n : Nat} {source : String}
    (h : File.read? n source.utf8ByteSize source.toList = some (file, specs)) :
    File.parse n source = .ok file ∧ file.compile = .ok specs := by
  unfold File.read? at h
  rw [← File.parse_eq] at h
  split at h
  · cases h
  · rename_i file' hfile
    simp only [← functions_eq] at h
    split at h
    · cases h
    · rename_i specs' hspecs
      cases h
      exact ⟨hfile, hspecs⟩

end DataMarks
