/-
  What free names mean in functions that are expanded.

  A name that a function does not bind itself means the input of the global of that name
  exactly if no function around it binds the name (`Surface.File.lookup_free`). Otherwise
  it means the variable of a caller, as scopes are searched through all frames
  (`Surface.File.lookup_captured`).
-/
import DataMarks.Proofs.Accounts

namespace DataMarks

open List

/-! ## Marks -/

/-- The body of a mark starts at a place. -/
theorem InputScope.place {scope : Scope} {inputs : Dictionary Input}
    (h : InputScope scope inputs) (params : List String) :
    Place inputs params { own := params } (scope.push []) := by
  have hinner : (scope.push []).inner = [{}] := by rw [Scope.push, h.inner]
  exact {
    inner := cons_ne_nil _ _
    outermost := h.get?_vars
    issued := by
      intro x hx
      show x ∈ scope.issued.keys
      rwa [Dictionary.mem_keys_iff, h.get?_issued, Option.isSome_map, ← Dictionary.mem_keys_iff]
    params_bound := fun x hx => mem_append_left _ hx
    names := by simp [hinner, Frame.names, Dictionary.keys]
    bound := by
      intro x hx
      simp only [Binders.names, flatten_nil, append_nil] at hx
      exact .inl hx
    apart := by simp [hinner]
    anchored := by
      rw [hinner]
      refine ⟨fun x y hy => ?_, True.intro⟩
      cases hy }

/-- Lookups at places of a mark that find all inputs that code mentions. -/
structure Accounts (inputs : Dictionary Input) (params : List String) (ls : List Lookup)
    (code : List Stmt) : Prop where
  sound : ∀ l ∈ ls, Place inputs params l.binders l.scope ∧ ∃ v, l.scope.get? l.name = some v
  mentions : ∀ m ∈ Stmt.mentionsAll code, (∃ l ∈ ls, l.Finds m) ∨ m.1 ∉ inputs.keys

/-- The lookups of a mark account for its statements. -/
theorem Compile.functionWithin_accounts {levels : Nat} {f : Surface.Function} {s s' : Compiler}
    {spec : Specification} {code : List Stmt}
    (h : Runs (functionWithin levels f) s spec s' code) :
    Accounts spec.inputs (f.params.map Surface.Param.name) (functionLookups levels f s)
        spec.statements ∧
      spec.inputs.keys = s.globals.map Surface.Global.name ++ f.params.map Surface.Param.name ∧
      spec.inputs.keys.Nodup := by
  obtain ⟨_, s₁, c₁, _, s₂, c₂, statements, h₁, h₂, hbody, rfl⟩ := runs_functionWithin_steps h
  obtain ⟨globals, rfl, hglobals, hscope₁, -⟩ := runs_globalInputs .empty h₁
  obtain ⟨params, rfl, hparams, hscope, -⟩ := runs_paramInputs hscope₁ h₂
  obtain ⟨s₃, hstmts, -⟩ := runs_inFrame_iff.mp hbody
  have hexplains : Explains _ _ [] _ _ _ _ :=
    stmts_explains (carries_place _ _) (advancing_expander levels)
      (follows_tracer (carries_place _ _) levels) f.body (s := s₂.push [])
      (hscope.place (f.params.map Surface.Param.name))
  refine ⟨?_, ?_, hscope.nodup⟩
  · unfold functionLookups
    rw [h₁.after_eq, h₂.after_eq]
    refine ⟨fun l hl => ⟨hexplains.places l hl, hexplains.found hstmts l hl⟩, fun m hm => ?_⟩
    simpa using hexplains.mentions hstmts m hm
  · rw [← IsInput.keys_of_forall₂ hglobals, ← IsInput.keys_of_forall₂ hparams]
    simp [Dictionary.keys]

namespace Surface

/-- Lookups account for the inputs that a mark mentions, wherever that is in the functions that are
expanded in it. A name that such a function does not bind itself means the input of the global of
that name exactly if no function around it binds the name; if there is no such global, a caller
binds the name or it may be that of a temporary. -/
theorem File.lookup_free {file : File} {specs : Dictionary Specification}
    (hcompile : file.compile = .ok specs) {name : String} {f : Function}
    (hf : file.renderable? name = some f) :
    ∃ spec, specs.get? name = some spec ∧
      (∀ m ∈ Stmt.mentionsAll spec.statements, m.1 ∈ spec.inputs.keys →
        ∃ l ∈ file.lookups f, l.Finds m) ∧
      ∀ l ∈ file.lookups f, l.name ∉ l.binders.own →
        (l.name ∈ file.globals.map Global.name →
          ((∃ input, spec.inputs.get? l.name = some input ∧
              l.scope.get? l.name = some ⟨l.name, input.type, l.name⟩) ↔
            ∀ names ∈ l.binders.callers, l.name ∉ names)) ∧
        (l.name ∉ file.globals.map Global.name →
          (∃ names ∈ l.binders.callers, l.name ∈ names) ∨ Scope.IsTemporary l.name) := by
  obtain ⟨spec, s, s', code, hspec, hresolver, hglobals, hrun⟩ :=
    (File.compiles hcompile).some name f hf
  obtain ⟨haccounts, hkeys, hnodup⟩ := Compile.functionWithin_accounts hrun
  have hlookups : Compile.functionLookups (Compile.depth s) f s = file.lookups f := by
    obtain ⟨resolver, globals, scope, outputs, callStack⟩ := s
    obtain rfl : resolver = _ := hresolver
    obtain rfl : globals = _ := hglobals
    rfl
  rw [hlookups] at haccounts
  rw [hglobals] at hkeys
  refine ⟨spec, hspec, ?_, ?_⟩
  · intro m hm hinput
    exact (haccounts.mentions m hm).resolve_right fun hnew => hnew hinput
  · intro l hl hown
    obtain ⟨hplace, v, hv⟩ := haccounts.sound l hl
    have hnames : l.name ∈ l.binders.names ↔ ∃ names ∈ l.binders.callers, l.name ∈ names := by
      simp [Binders.names, hown]
    constructor
    · intro hglobal
      have hinput : l.name ∈ spec.inputs.keys := hkeys ▸ List.mem_append_left _ hglobal
      have hparam : l.name ∉ f.params.map Param.name := by
        rw [hkeys] at hnodup
        exact List.disjoint_of_nodup_append hnodup hglobal
      constructor
      · rintro ⟨input, -, hget⟩ names hmem hname
        exact hplace.unique_of_bound (hnames.mpr ⟨names, hmem, hname⟩) hparam hget hinput
      · intro hcallers
        have hunbound : l.name ∉ l.binders.names := by
          intro hbound
          obtain ⟨names, hmem, hname⟩ := hnames.mp hbound
          exact hcallers names hmem hname
        obtain ⟨input, hget⟩ := Dictionary.exists_of_mem_keys hinput
        refine ⟨input, hget, ?_⟩
        rw [hplace.get?_of_unbound hunbound (.inl (Dictionary.mem_keys_of_get? hget)), hget]
        rfl
    · intro hglobal
      by_contra hnone
      obtain ⟨hcallers, htemporary⟩ := not_or.mp hnone
      have hunbound : l.name ∉ l.binders.names := fun hbound => hcallers (hnames.mp hbound)
      rw [hplace.get?_of_unbound hunbound (.inr htemporary)] at hv
      obtain ⟨input, hget, -⟩ := Option.map_eq_some_iff.mp hv
      have hinput := Dictionary.mem_keys_of_get? hget
      rw [hkeys] at hinput
      rcases List.mem_append.mp hinput with hinput | hparam
      · exact hglobal hinput
      · exact hunbound (hplace.params_bound hparam)

/-- What holds of a mark of a text and its lookups, evaluated from the characters of the text. -/
theorem File.exists_of_read? (source name : String)
    (P : File → Dictionary Specification → List Lookup → Prop)
    [∀ file specs ls, Decidable (P file specs ls)]
    (h : ((File.read? 0 source.utf8ByteSize source.toList).any fun r =>
      (r.1.renderable? name).any fun f => decide (P r.1 r.2
        (Compile.functionLookups (r.1.definitions.length + 11 + 1) f r.1.loaded))) = true) :
    ∃ file specs f, File.parse 0 source = .ok file ∧ file.compile = .ok specs ∧
      file.renderable? name = some f ∧ P file specs (file.lookups f) := by
  obtain ⟨⟨file, specs⟩, hread, hmark⟩ := (Option.any_eq_true _ _).mp h
  obtain ⟨f, hf, hP⟩ := (Option.any_eq_true _ _).mp hmark
  obtain ⟨hparse, hcompile⟩ := File.of_read? hread
  refine ⟨file, specs, f, hparse, hcompile, hf, ?_⟩
  unfold lookups Compile.depth
  rw [Library.size_eq]
  exact of_decide_eq_true hP

/-- A function that reads a global, called by one that has a parameter of that name and by one that
has none. -/
def scaling : String := "
global size: float = 2;

function scaled(x: float): float {
    return x * size;
}

function plain(v: float): float {
    return scaled(v);
}

function resized(size: float): float {
    return scaled(size) + 1;
}

mark scaling(x: float) {
    emit { a: plain(x), b: resized(x) };
}
"

theorem File.lookup_free_scaling : ∃ file specs f spec, File.parse 0 scaling = .ok file ∧
    file.compile = .ok specs ∧ file.renderable? "scaling" = some f ∧
    specs.get? "scaling" = some spec ∧
    (∃ l ∈ file.lookups f, l.name = "size" ∧ l.binders.callers = [["v"], ["x"]] ∧
      ∃ input, spec.inputs.get? "size" = some input ∧
        l.scope.get? "size" = some ⟨"size", input.type, "size"⟩) ∧
    ∃ l ∈ file.lookups f, l.name = "size" ∧ l.binders.callers = [["size"], ["x"]] ∧
      ¬ ∃ input, spec.inputs.get? "size" = some input ∧
        l.scope.get? "size" = some ⟨"size", input.type, "size"⟩ := by
  obtain ⟨file, specs, f, hparse, hcompile, hf, hglobal, hcallers⟩ :=
    exists_of_read? scaling "scaling" (fun file _ ls => "size" ∈ file.globals.map Global.name ∧
      ∀ callers ∈ [[["v"], ["x"]], [["size"], ["x"]]], ∃ l ∈ ls,
        l.name = "size" ∧ l.name ∉ l.binders.own ∧ l.binders.callers = callers) (by
          rw [scaling, String.toList_ofList]
          decide +kernel)
  obtain ⟨spec, hspec, -, hlookups⟩ := lookup_free hcompile hf
  obtain ⟨l, hl, hname, hown, hplain⟩ := hcallers [["v"], ["x"]] (by simp)
  obtain ⟨l', hl', hname', hown', hresized⟩ := hcallers [["size"], ["x"]] (by simp)
  have hfree := (hlookups l hl hown).1 (hname ▸ hglobal)
  have hfree' := (hlookups l' hl' hown').1 (hname' ▸ hglobal)
  rw [hname, hplain] at hfree
  rw [hname', hresized] at hfree'
  refine ⟨file, specs, f, spec, hparse, hcompile, hf, hspec,
    ⟨l, hl, hname, hplain, hfree.mpr (by decide)⟩, l', hl', hname', hresized, ?_⟩
  intro hinput
  exact absurd (hfree'.mp hinput) (by decide)

/-- A mark with a variable that has the name of a global, which a function reads. -/
def capturing : String := "
global y: float = 1;

function f(): float {
    return y;
}

mark M() {
    let y = 5.0;
    emit [{ a: f() }];
}
"

/-- A name that a function does not bind may mean a variable of its caller, though there is a global
of that name. -/
theorem File.lookup_captured : ∃ file specs f, File.parse 0 capturing = .ok file ∧
    file.compile = .ok specs ∧ file.renderable? "M" = some f ∧
    "y" ∈ file.globals.map Global.name ∧
    (∃ l ∈ file.lookups f, l.name = "y" ∧ l.name ∉ l.binders.own ∧ l.binders.callers = [["y"]] ∧
      l.scope.get? "y" = some ⟨"y", .float, "y1"⟩) ∧
    (specs.get? "M").map (fun spec => Stmt.mentionsAll spec.statements) =
      some [("y1", .float), ("y1", .float)] := by
  refine @File.exists_of_read? _ _ (fun file specs ls => "y" ∈ file.globals.map Global.name ∧
    (∃ l ∈ ls, l.name = "y" ∧ l.name ∉ l.binders.own ∧ l.binders.callers = [["y"]] ∧
      l.scope.get? "y" = some ⟨"y", .float, "y1"⟩) ∧
    (specs.get? "M").map (fun spec => Stmt.mentionsAll spec.statements) =
      some [("y1", .float), ("y1", .float)]) (fun _ _ _ => inferInstance) ?_
  rw [capturing, String.toList_ofList]
  decide +kernel

end Surface

end DataMarks
