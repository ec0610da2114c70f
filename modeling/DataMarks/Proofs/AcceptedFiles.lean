/-
  When a file is accepted: exactly if each of its blocks can be loaded, and each of its marks
  and shaders can be compiled with what the file loads (`File.accepted_iff`). So all that one
  more function in a file can change is what the calls in the others mean (`File.Adds`).
-/
import DataMarks.Proofs.AddedFunction
import DataMarks.Proofs.CompilerRuns

namespace DataMarks

open List

namespace Compile

open Compiler (SameLoaded)

theorem function_apply (f : Surface.Function) (s : Compiler) :
    function f s = functionWithin (depth s) f s := by
  have hstate : state s = ⟨.ok s, s, []⟩ := rfl
  rw [function, bind_of_ok hstate]
  rfl

/-- Whether a block can be loaded does not depend on what is loaded already. -/
theorem result_loadBlock (b : Surface.Block) (s t : Compiler) :
    (loadBlock b s).result = (loadBlock b t).result := by
  have hany : Loading fun _ _ => True := ⟨fun _ _ _ => trivial, fun _ _ => trivial⟩
  exact (loadBlock_matches hany b s t trivial).1.eq

theorem load_ok_iff {file : Surface.File} {s : Compiler} :
    (load file s).result = .ok () ↔ ∀ b ∈ file.blocks, (loadBlock b {}).result = .ok () := by
  unfold load
  induction file.blocks generalizing s with
  | nil => exact iff_of_true rfl (forall_mem_nil _)
  | cons b bs ih =>
    rw [forall_mem_cons, ← result_loadBlock b s, loadBlocks]
    cases hb : loadBlock b s with
    | mk result s₁ code =>
      cases result with
      | error e =>
        rw [bind_of_error hb]
        exact iff_of_false (fun h => by cases h) fun h => by cases h.1
      | ok u =>
        rw [bind_of_ok hb]
        exact ih.trans (and_iff_right rfl).symm

/-- Functions are compiled up to the first mark that fails. -/
theorem functions_cases {fs : List Surface.Function} {done : Dictionary Specification}
    {s t : Compiler} (h : SameLoaded s t) :
    fs.find? (fun f => f.isRenderable && !(function f t).result.isOk) = none ∧
        (∃ specs, (functions fs done s).result = .ok specs) ∨
      ∃ f e, fs.find? (fun f => f.isRenderable && !(function f t).result.isOk) = some f ∧
        (function f t).result = .error e ∧ (functions fs done s).result = .error e := by
  induction fs generalizing s done with
  | nil => exact .inl ⟨rfl, done, rfl⟩
  | cons f fs ih =>
    rw [functions, find?_cons]
    cases hf : f.isRenderable with
    | false => exact ih h
    | true =>
      obtain ⟨heq, hstate⟩ := function_of_sameLoaded h f
      rw [← heq]
      cases hfunction : function f s with
      | mk result s₁ code =>
        rw [hfunction] at hstate heq
        cases result with
        | error e =>
          simp only [if_true, bind_of_error hfunction]
          exact .inr ⟨f, e, rfl, congrArg Compiled.result heq.symm, rfl⟩
        | ok spec =>
          simp only [if_true, bind_of_ok hfunction]
          exact ih hstate

end Compile

namespace Surface

namespace File

open Compile

variable {file file' : File} {f g : Function} {specs : Dictionary Specification}

/-- The specification of a function among what a file loads. -/
def specification (file : File) (f : Function) : Except CompileError Specification :=
  (Compile.function f (load file {}).state).result

/-- A file that can be loaded leaves its functions and globals. -/
theorem state_load (h : (load file {}).result = .ok ()) : (load file {}).state = file.loaded := by
  obtain ⟨s, code, hload⟩ := runs_of_result h
  rw [show (load file {}).state = s from congrArg Compiled.state hload, (runs_load hload).1]
  rfl

theorem specification_eq (h : (load file {}).result = .ok ()) (f : Function) :
    file.specification f =
      (functionWithin (file.definitions.length + Library.size + 1) f file.loaded).result := by
  rw [specification, state_load h, function_apply, depth]

theorem sameLoaded_load (h : (load file {}).result = .ok ()) {s : Compiler}
    (hresolver : s.resolver = { functions := file.definitions })
    (hglobals : s.globals = file.globals) : Compiler.SameLoaded s (load file {}).state := by
  rw [state_load h]
  exact ⟨hresolver, hglobals, by rw [hresolver]⟩

theorem sameLoaded_self {s : Compiler} {code : List DataMarks.Stmt}
    (h : load file {} = ⟨.ok (), s, code⟩) : Compiler.SameLoaded s s := by
  have hs := state_load (congrArg Compiled.result h)
  rw [h] at hs
  exact ⟨rfl, rfl, by rw [show s = _ from hs]⟩

theorem exists_ok_iff {ε α : Type} {x : Except ε α} : (∃ a, x = .ok a) ↔ x.isOk = true := by
  cases x with
  | error e => exact iff_of_false (fun h => by obtain ⟨a, h⟩ := h; cases h) (fun h => by cases h)
  | ok a => exact iff_of_true ⟨a, rfl⟩ rfl

/-- A file is accepted exactly if its blocks can be loaded and its marks and shaders compiled. -/
theorem accepted_iff : (∃ specs, file.compile = .ok specs) ↔
    (load file {}).result = .ok () ∧
      ∀ f ∈ file.functions, f.isRenderable = true → ∃ spec, file.specification f = .ok spec := by
  unfold compile specification
  dsimp only
  cases hload : load file {} with
  | mk result s code =>
    cases result with
    | error e =>
      rw [bind_of_error hload]
      refine iff_of_false (fun h => ?_) fun h => by cases h.1
      obtain ⟨specs, h⟩ := h
      cases h
    | ok u =>
      rw [bind_of_ok hload, and_iff_right rfl]
      rcases @functions_cases file.functions [] s s (sameLoaded_self hload) with ⟨hnone, hspecs⟩ |
        ⟨f, e, hfind, hfe, herror⟩
      · refine iff_of_true hspecs fun f hf hrenderable => exists_ok_iff.mpr ?_
        simpa [hrenderable] using find?_eq_none.mp hnone f hf
      · rw [herror]
        refine iff_of_false (fun h => by obtain ⟨specs, h⟩ := h; cases h) fun hall => ?_
        have hf := find?_some hfind
        rw [Bool.and_eq_true] at hf
        obtain ⟨spec, hspec⟩ := hall f (mem_of_find?_eq_some hfind) hf.1
        rw [hfe] at hspec
        cases hspec

/-- The specification of a name is that of the mark or shader that the name means. -/
theorem get?_of_renderable? (h : file.compile = .ok specs) {name : String}
    (hf : file.renderable? name = some f) :
    ∃ spec, specs.get? name = some spec ∧ file.specification f = .ok spec := by
  obtain ⟨hload, -⟩ := accepted_iff.mp ⟨specs, h⟩
  obtain ⟨spec, s, s', code, hspec, hresolver, hglobals, hrun⟩ := (compiles h).some name f hf
  refine ⟨spec, hspec, ?_⟩
  have hsame := sameLoaded_load hload hresolver hglobals
  rw [specification, ← (function_of_sameLoaded hsame f).1]
  exact congrArg Compiled.result hrun

/-- As `accepted_iff`, in a form to evaluate. -/
theorem accepted_iff_isOk : (∃ specs, file.compile = .ok specs) ↔
    (∀ b ∈ file.blocks, (loadBlock b {}).result.isOk = true) ∧
      ∀ f ∈ file.functions, f.isRenderable = true →
        (functionOf f { resolver := { functions := file.definitions }
                        globals := file.globals }).result.isOk = true := by
  have hblocks : (load file {}).result = .ok () ↔
      ∀ b ∈ file.blocks, (loadBlock b {}).result.isOk = true := by
    rw [load_ok_iff]
    refine forall₂_congr fun b _ => ?_
    rw [← exists_ok_iff]
    exact ⟨fun h => ⟨(), h⟩, fun h => by obtain ⟨_, h⟩ := h; exact h⟩
  rw [accepted_iff, hblocks]
  refine and_congr_right fun h => forall₂_congr fun f _ => forall_congr' fun _ => ?_
  rw [specification, state_load (hblocks.mpr h), exists_ok_iff, function_eq]

/-! ## One more function -/

/-- `file'` is `file` with one more function somewhere. -/
def Adds (g : Function) (file file' : File) : Prop :=
  ∃ before after, file.blocks = before ++ after ∧ file'.blocks = before ++ .function g :: after

namespace Adds

theorem definitions (h : Adds g file file') : ∃ before after,
    file.definitions = before ++ after ∧ file'.definitions = before ++ ⟨none, g⟩ :: after := by
  obtain ⟨before, after, hblocks, hblocks'⟩ := h
  refine ⟨before.flatMap Block.definitions, after.flatMap Block.definitions, ?_, ?_⟩
  · rw [File.definitions, hblocks, flatMap_append]
  · rw [File.definitions, hblocks', flatMap_append, flatMap_cons]
    rfl

theorem length_definitions (h : Adds g file file') :
    file'.definitions.length = file.definitions.length + 1 := by
  obtain ⟨before, after, hdefinitions, hdefinitions'⟩ := h.definitions
  rw [hdefinitions, hdefinitions', length_append, length_append, length_cons]
  omega

theorem globals (h : Adds g file file') : file'.globals = file.globals := by
  obtain ⟨before, after, hblocks, hblocks'⟩ := h
  simp [File.globals, hblocks, hblocks', Block.globals]

theorem mem_functions_iff (h : Adds g file file') :
    f ∈ file'.functions ↔ f = g ∨ f ∈ file.functions := by
  obtain ⟨before, after, hblocks, hblocks'⟩ := h
  rw [File.functions, File.functions, hblocks, hblocks', filterMap_append,
    filterMap_append, filterMap_cons]
  simp only [mem_append, mem_cons]
  tauto

/-- The new function is the only one of its name. -/
theorem renderable? (h : Adds g file file') (hg : g.isRenderable = true)
    (hname : ∀ f ∈ file.functions, f.name ≠ g.name) : file'.renderable? g.name = some g := by
  have hall : ∀ f ∈ file'.functions.reverse, f.name = g.name → f = g := by
    intro f hf heq
    rcases h.mem_functions_iff.mp (mem_reverse.mp hf) with rfl | hf
    · rfl
    · exact absurd heq (hname f hf)
  have hmem : g ∈ file'.functions.reverse := mem_reverse.mpr (h.mem_functions_iff.mpr (.inl rfl))
  cases hfind : file'.renderable? g.name with
  | none =>
    have := find?_eq_none.mp hfind g hmem
    simp [hg] at this
  | some f =>
    have hf := find?_some hfind
    rw [Bool.and_eq_true, beq_iff_eq] at hf
    rw [hall f (mem_of_find?_eq_some hfind) hf.2]

end Adds

end File

end Surface

end DataMarks
