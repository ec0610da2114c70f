/-
  Every specification of a file is well scoped and well typed.

  A function is compiled in the scope of its inputs, where the names given out are just the
  inputs; the code of its body is well typed in the names given out in the end, and the
  variables of the specification are those of them that are no inputs.
-/
import DataMarks.Proofs.CompiledTypes
import DataMarks.Proofs.Loading
import DataMarks.Proofs.Run

namespace DataMarks

open Dictionary List

namespace Surface

theorem File.wellFormed_definitions {n : Nat} {source : String} {file : File}
    (hparse : File.parse n source = .ok file)
    (hfits : ∀ f ∈ file.functions, ∀ p ∈ f.params, p.Fits) :
    ∀ d ∈ file.definitions, d.WellFormed := by
  intro d hd
  rcases File.mem_definitions hd with ⟨f, hf, rfl⟩ | ⟨m, hm, f, hf, rfl⟩
  · exact ⟨File.wellFormed_of_parse hparse f hf, hfits f hf⟩
  · exact Library.wellFormed_of_mem hm hf

end Surface

theorem InputScope.typed {scope : Scope} {inputs : Dictionary Input}
    (h : InputScope scope inputs) : scope.Typed := by
  intro f hf x v hv
  rw [h.inner, mem_singleton] at hf
  rw [hf, h.get?_vars] at hv
  obtain ⟨i, hi, rfl⟩ := Option.map_eq_some_iff.mp hv
  rw [h.get?_issued, hi]
  rfl

theorem IsInput.accepts_of_forall₂ {α : Type} {name : α → String} {type : α → Surface.TypeName}
    {default : α → Option Value} {as : List α} {entries : Dictionary Input}
    (h : Forall₂ (fun a e => IsInput (name a) (type a) (default a) e) as entries) :
    ∀ e ∈ entries, ∀ v ∈ e.2.default, e.2.type.accepts v = true := by
  induction h with
  | nil => simp
  | cons he _ ih => exact forall_mem_cons.mpr ⟨he.accepts, ih⟩

variable {spec : Specification}

/-- The variables of a specification are the names given out that are no inputs. -/
theorem Specification.declaredType?_of_issued {inputs : Dictionary Input}
    {issued : Dictionary ValueType}
    (hinputs : ∀ x i, inputs.get? x = some i → issued.get? x = some i.type)
    (hin : spec.inputs = inputs)
    (hlocals : spec.locals = issued.filter fun e => !Dictionary.contains inputs e.1) {x : String}
    {t : ValueType} (hx : issued.get? x = some t) : spec.declaredType? x = some t := by
  unfold declaredType?
  rw [hin]
  cases hi : inputs.get? x with
  | some i =>
    rw [hinputs x i hi] at hx
    exact hx
  | none =>
    rw [hlocals, get?_filter fun k => !Dictionary.contains inputs k]
    simp [Dictionary.contains, hi, hx]

/-- Names that are declared with the types they are mentioned at are not undeclared. -/
theorem Specification.undeclared_eq_nil
    (h : ∀ m ∈ Stmt.mentionsAll spec.statements, spec.declaredType? m.1 = some m.2) :
    spec.undeclared = [] := by
  unfold undeclared
  have hwrong : (Stmt.mentionsAll spec.statements).filter
      (fun m => spec.declaredType? m.1 != some m.2) = [] := by
    rw [filter_eq_nil_iff]
    intro m hm
    simp [h m hm]
  rw [hwrong]
  rfl

namespace Compile

open Compiler (Ready Written)

/-- A function compiles to a specification whose inputs and variables are apart, whose code is well
typed, and whose outputs are all emitted. -/
theorem functionWithin_typed {levels : Nat} {f : Surface.Function} {s s' : Compiler}
    {spec : Specification} {code : List Stmt} (hf : f.WellFormed)
    (hdefinitions : ∀ d ∈ s.resolver.functions, d.WellFormed)
    (h : Runs (functionWithin levels f) s spec s' code) :
    (∀ x ∈ spec.inputs.keys, x ∉ spec.locals.keys) ∧ spec.WellTyped ∧
      (∀ e ∈ Stmt.testsAll spec.statements, e.type = .bool) ∧
      ∀ x ∈ spec.outputs.keys, ∃ attributes ∈ Stmt.emitsAll spec.statements,
        x ∈ attributes.keys := by
  obtain ⟨globals, params, s₁, s₂, statements, hglobals, hparams, hscope, hs₁, hbody, rfl, -⟩ :=
    runs_functionWithin h
  obtain ⟨s₃, hstmts, rfl⟩ := runs_inFrame_iff.mp hbody
  have hready : Ready (s₁.push []) := {
    scope := hscope.typed.push []
    inner := cons_ne_nil _ _
    functions := by
      rw [hs₁]
      exact hdefinitions }
  have hcompiles := stmts_typed (typed_expander levels) hf _ s₃ statements hready hstmts
  have hissued : ∀ x i, Dictionary.get? (globals ++ params) x = some i →
      s₃.scope.issued.get? x = some i.type := by
    intro x i hi
    obtain ⟨new, hstep⟩ := hcompiles.later
    refine hstep.issued x i.type ?_
    show s₁.scope.issued.get? x = _
    rw [hscope.get?_issued, hi]
    rfl
  have houtput : ∀ x, Dictionary.get? (s₃.outputs.map fun e => (e.1, e.2.1)) x =
      (s₃.outputs.get? x).map Prod.fst := fun x =>
    get?_map (fun e : String × ValueType × Span => e.2.1) s₃.outputs x
  refine ⟨?_, ?_, hcompiles.written.tests, ?_⟩
  · intro x hx hlocal
    rw [mem_keys_iff] at hx hlocal
    have hcontains : Dictionary.contains (globals ++ params) x = true := hx
    change (Dictionary.get? (s₃.scope.issued.filter _) x).isSome = true at hlocal
    rw [get?_filter fun k => !Dictionary.contains (globals ++ params) k, hcontains] at hlocal
    cases hlocal
  · refine
      { declared := ?_
        exprs := hcompiles.written.exprs
        defaults := ?_
        emitted := ?_ }
    · refine Specification.undeclared_eq_nil fun m hm => ?_
      exact Specification.declaredType?_of_issued hissued rfl rfl
        (hcompiles.written.mentions m hm)
    · intro x i v hi hv
      rcases mem_append.mp (mem_of_get? hi) with hmem | hmem
      · exact IsInput.accepts_of_forall₂ hglobals _ hmem v hv
      · exact IsInput.accepts_of_forall₂ hparams _ hmem v hv
    · intro attributes ha a hmem
      rw [houtput]
      exact hcompiles.written.emitted attributes ha a hmem
  · intro x hx
    rw [mem_keys_iff, houtput, Option.isSome_map, ← mem_keys_iff] at hx
    have houtputs : s₁.outputs = [] := by rw [hs₁]
    rcases hcompiles.written.covered x hx with hx | hx | hx
    · change x ∈ Dictionary.keys s₁.outputs at hx
      rw [houtputs] at hx
      cases hx
    · cases hx
    · exact hx

end Compile

/-- Inputs and variables of a compiled specification are apart, and it declares what it mentions. -/
theorem Surface.File.scoped_of_compile {n : Nat} {source : String} {file : File}
    {specs : Dictionary Specification} (hparse : File.parse n source = .ok file)
    (hcompile : file.compile = .ok specs) {name : String} (hspec : (name, spec) ∈ specs) :
    (∀ x ∈ spec.inputs.keys, x ∉ spec.locals.keys) ∧ spec.undeclared = [] := by
  have hcompiles := File.compiles hcompile
  obtain ⟨f, s, s', code, hf, hresolver, hrun⟩ := hcompiles.of_mem hspec
  have hdefinitions : ∀ d ∈ s.resolver.functions, d.WellFormed := by
    rw [hresolver]
    exact File.wellFormed_definitions hparse hcompiles.fits
  have htyped := Compile.functionWithin_typed
    (File.wellFormed_of_parse hparse f (File.mem_of_renderable? hf)) hdefinitions hrun
  exact ⟨htyped.1, htyped.2.1.declared⟩

/-- Specifications of a file that is read from a source text are well scoped and well typed: inputs
and variables are apart, names and expressions are used at their types, tests are truth values,
defaults and constants fit, and outputs are what is emitted. -/
theorem Surface.File.compile_wellTyped {n : Nat} {source : String} {file : File}
    {specs : Dictionary Specification} (hparse : File.parse n source = .ok file)
    (hcompile : file.compile = .ok specs) {name : String} {spec : Specification}
    (hspec : (name, spec) ∈ specs) :
    (∀ x ∈ spec.inputs.keys, x ∉ spec.locals.keys) ∧ spec.WellTyped ∧
      (∀ e ∈ Stmt.testsAll spec.statements, e.type = .bool) ∧
      ∀ x ∈ spec.outputs.keys, ∃ attributes ∈ Stmt.emitsAll spec.statements,
        x ∈ attributes.keys := by
  have hcompiles := File.compiles hcompile
  obtain ⟨f, s, s', code, hf, hresolver, hrun⟩ := hcompiles.of_mem hspec
  refine Compile.functionWithin_typed
    (File.wellFormed_of_parse hparse f (File.mem_of_renderable? hf)) ?_ hrun
  rw [hresolver]
  exact File.wellFormed_definitions hparse hcompiles.fits

/-- A mark that calls a function in a loop, in a test and for an attribute, with a default and a
keyword; names are shadowed, and integers are converted. -/
def dots : String := "
global scale: float = 2;

function half(x: float, by: float = 2): float {
    let y = x;
    if (by == 0) y = 1; else y = y / by;
    return y * scale;
}

mark dots(count: int = 3, center: Vector2) {
    let y = 0;
    for (i in 0..4) {
        let y = half(i + count);
        if (y < center.x || half(y, by = 4) > 1) {
            emit { position: Vector2(half(y), y), size: half(1) };
        } else if (i == 2) discard;
    }
    y = count;
    emit [{ position: center, size: PI }, { size: half(y) }];
}
"

theorem isSome_dots : ((Surface.File.read? 2 dots.utf8ByteSize dots.toList).bind
    fun r => r.2.get? "dots").isSome = true := by
  rw [dots, String.toList_ofList]
  decide +kernel

theorem Surface.File.compile_wellTyped_dots : ∃ file specs spec,
    File.parse 2 dots = .ok file ∧ file.compile = .ok specs ∧ ("dots", spec) ∈ specs ∧
    (∀ x ∈ spec.inputs.keys, x ∉ spec.locals.keys) ∧ spec.WellTyped ∧
      (∀ e ∈ Stmt.testsAll spec.statements, e.type = .bool) ∧
      ∀ x ∈ spec.outputs.keys, ∃ attributes ∈ Stmt.emitsAll spec.statements,
        x ∈ attributes.keys := by
  obtain ⟨spec, hspec⟩ := Option.isSome_iff_exists.mp isSome_dots
  obtain ⟨⟨file, specs⟩, hread, hget⟩ := Option.bind_eq_some_iff.mp hspec
  obtain ⟨hparse, hcompile⟩ := File.of_read? hread
  have hmem : ("dots", spec) ∈ specs := Dictionary.mem_of_get? hget
  exact ⟨file, specs, spec, hparse, hcompile, hmem, compile_wellTyped hparse hcompile hmem⟩

end DataMarks
