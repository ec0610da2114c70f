/-
  The order of the functions in a file.

  Of the functions that are loaded, a call only sees those of its name. So functions of
  different names can stand in any order: each body is compiled in the same way, and where it
  can not be, it fails in the same way up to the name that may have been meant
  (`Compile.functionWithin_reordered`). With the globals in their order, a file is then
  accepted in one order exactly if it is in the other, and its marks and shaders have the
  same specifications (`Surface.File.compile_reordered`).
-/
import DataMarks.Proofs.AcceptedFiles

namespace DataMarks

open List

namespace Resolver

/-- The same overloads of each name, in the same order, and the same modules. -/
structure SameOverloads (r r' : Resolver) : Prop where
  modules : r'.modules = r.modules
  named : ∀ name, r'.functions.filter (·.function.name == name) =
    r.functions.filter (·.function.name == name)

namespace SameOverloads

variable {r r' : Resolver}

theorem resolve (h : SameOverloads r r') (name : String) (args : Arguments) :
    r'.resolve name args = r.resolve name args := by
  unfold Resolver.resolve candidates
  rw [h.modules, h.named]

theorem enter (h : SameOverloads r r') (module : Option String) :
    SameOverloads (r.enter module) (r'.enter module) :=
  ⟨congrArg (module :: ·) h.modules, h.named⟩

theorem exit (h : SameOverloads r r') : SameOverloads r.exit r'.exit :=
  ⟨congrArg List.tail h.modules, h.named⟩

end SameOverloads

/-- At most one of functions with different names has a given name. -/
theorem filter_name_eq_of_perm {fs fs' : List Definition}
    (hnames : (fs.map (·.function.name)).Nodup) (hperm : fs'.Perm fs) (name : String) :
    fs'.filter (·.function.name == name) = fs.filter (·.function.name == name) := by
  have hfilter := hperm.filter (·.function.name == name)
  have hunique : ((fs.filter (·.function.name == name)).map (·.function.name)).Nodup :=
    hnames.sublist (filter_sublist.map _)
  have hname : ∀ d ∈ fs.filter (·.function.name == name), d.function.name = name := by simp
  generalize fs.filter (·.function.name == name) = named at hfilter hunique hname
  cases named with
  | nil => exact hfilter.eq_nil
  | cons d rest =>
    cases rest with
    | nil => exact perm_singleton.mp hfilter
    | cons e rest =>
      rw [forall_mem_cons, forall_mem_cons] at hname
      simp [hname.1, hname.2.1] at hunique

end Resolver

namespace Compile

/-- The same state, but for the order of functions of different names. -/
structure Reordered (s t : Compiler) : Prop where
  resolver : s.resolver.SameOverloads t.resolver
  rest : t = { s with resolver := t.resolver }

theorem anyScope_reordered : AnyScope Reordered where
  scope := fun h => by rw [h.rest]
  outputs := fun h => by rw [h.rest]
  withScope := fun scope h => ⟨h.resolver, congrArg (fun t : Compiler => { t with scope }) h.rest⟩
  withOutputs := fun outputs h =>
    ⟨h.resolver, congrArg (fun t : Compiler => { t with outputs }) h.rest⟩

theorem call_reordered {expand : Expander}
    (hexpand : ∀ span d args,
      Relates UpToSuggestion Reordered (expand span d args) (expand span d args))
    (span : Span) (name : String) (args : Arguments) :
    Relates UpToSuggestion Reordered (call expand span name args) (call expand span name args) := by
  refine Relates.state_bind fun s t hst => ?_
  dsimp only
  rw [hst.resolver.resolve]
  cases s.resolver.resolve name args with
  | error e =>
    refine .fail ?_
    cases e <;> rfl
  | ok r =>
    obtain ⟨callee, fit⟩ := r
    cases callee with
    | intrinsic i => exact .pure _
    | defined d => exact hexpand span d fit.args

theorem inBody_reordered {d : Definition} {formals : Dictionary String} {x : Compile (Option Expr)}
    (h : Relates UpToSuggestion Reordered x x) :
    Relates UpToSuggestion Reordered (inBody d formals x) (inBody d formals x) := by
  refine .around (fun s t hst => ?_) (h.inFrame anyScope_reordered) fun s t hst => ?_
  · refine ⟨hst.resolver.enter d.module, ?_⟩
    rw [hst.rest]
  · refine ⟨hst.resolver.exit, ?_⟩
    rw [hst.rest]

theorem expander_reordered (levels : Nat) (span : Span) (d : Definition) (args : List Expr) :
    Relates UpToSuggestion Reordered (expander levels span d args)
      (expander levels span d args) := by
  induction levels generalizing span d args with
  | zero => exact .fail rfl
  | succ levels ih =>
    refine Relates.state_bind fun s t hst => ?_
    have hstack : t.callStack = s.callStack := by rw [hst.rest]
    rw [hstack]
    split
    · exact .fail rfl
    · exact expandWith_relates .refl anyScope_reordered
        (fun _ => inBody_reordered
          (body_relates .refl anyScope_reordered (call_reordered ih) d.function.body))
        span args

/-- The order of functions of different names makes no difference to the specification of a
function, nor, up to suggestions, to how it fails. -/
theorem functionWithin_reordered (levels : Nat) (f : Surface.Function) :
    Relates UpToSuggestion Reordered (functionWithin levels f) (functionWithin levels f) := by
  have hnew : Relates UpToSuggestion Reordered (update (·.start f)) (update (·.start f)) := by
    refine .update fun s t hst => ⟨hst.resolver, ?_⟩
    rw [hst.rest]
  refine hnew.bind fun _ => Relates.state_bind fun s t hst => ?_
  have hglobals : t.globals = s.globals := by rw [hst.rest]
  rw [hglobals]
  refine (globalInputs_relates .refl anyScope_reordered s.globals []).bind
    fun inputs => ?_
  refine (paramInputs_relates .refl anyScope_reordered f.params inputs).bind
    fun inputs => ?_
  refine ((stmts_relates .refl anyScope_reordered
    (call_reordered (expander_reordered levels)) f.body).inFrame anyScope_reordered).capture.bind
    fun statements => Relates.state_bind fun s t hst => ?_
  rw [anyScope_reordered.scope hst, anyScope_reordered.outputs hst]
  exact .pure _

end Compile

namespace Surface.File

open Compile

variable {file file' : File}

theorem perm_definitions (h : file'.blocks.Perm file.blocks) :
    file'.definitions.Perm file.definitions := h.flatMap_right _

theorem mem_functions_congr (h : file'.blocks.Perm file.blocks) (f : Function) :
    f ∈ file'.functions ↔ f ∈ file.functions := by
  rw [mem_functions_iff, mem_functions_iff, h.mem_iff]

theorem load_ok_congr (h : file'.blocks.Perm file.blocks) :
    (load file' {}).result = .ok () ↔ (load file {}).result = .ok () := by
  rw [load_ok_iff, load_ok_iff]
  exact forall_congr' fun b => by rw [h.mem_iff]

/-- Where functions have different names, a name means the mark or shader that has it. -/
theorem renderable?_eq_some_iff (hnames : (file.definitions.map (·.function.name)).Nodup)
    {name : String} {f : Function} : file.renderable? name = some f ↔
      f ∈ file.functions ∧ f.isRenderable = true ∧ f.name = name := by
  constructor
  · intro h
    have hf := find?_some h
    rw [Bool.and_eq_true, beq_iff_eq] at hf
    exact ⟨mem_of_renderable? h, hf⟩
  · rintro ⟨hmem, hf⟩
    cases hfind : file.renderable? name with
    | none =>
      have := find?_eq_none.mp hfind f (mem_reverse.mpr hmem)
      simp [hf] at this
    | some g =>
      have hg := find?_some hfind
      rw [Bool.and_eq_true, beq_iff_eq] at hg
      have heq := inj_on_of_nodup_map hnames
        (mem_definitions_of_mem (mem_of_renderable? hfind)) (mem_definitions_of_mem hmem)
        (hg.2.trans hf.2.symm)
      exact congrArg some (congrArg Definition.function heq)

theorem specification_reordered (hnames : (file.definitions.map (·.function.name)).Nodup)
    (hperm : file'.blocks.Perm file.blocks) (hglobals : file'.globals = file.globals)
    (hload : (load file {}).result = .ok ()) (f : Function) :
    SameResult UpToSuggestion (file.specification f) (file'.specification f) := by
  have hdefinitions := perm_definitions hperm
  have hreordered : Reordered file.loaded file'.loaded := by
    rw [File.loaded, File.loaded, hglobals]
    exact ⟨⟨rfl, Resolver.filter_name_eq_of_perm hnames hdefinitions⟩, rfl⟩
  rw [specification_eq hload, specification_eq ((load_ok_congr hperm).mpr hload),
    hdefinitions.length_eq]
  exact (functionWithin_reordered _ f _ _ hreordered).1

/-- Where no two functions, own or imported, have the same name, and the globals keep their order,
the blocks of a file can stand in any order: the file is accepted in both orders or in none, and
every mark and shader has the same specification. -/
theorem compile_reordered (hnames : (file.definitions.map (·.function.name)).Nodup)
    (hperm : file'.blocks.Perm file.blocks) (hglobals : file'.globals = file.globals) :
    ((∃ specs, file.compile = .ok specs) ↔ ∃ specs, file'.compile = .ok specs) ∧
      ∀ specs specs', file.compile = .ok specs → file'.compile = .ok specs' →
        ∀ name, specs'.get? name = specs.get? name := by
  have hnames' : (file'.definitions.map (·.function.name)).Nodup :=
    ((perm_definitions hperm).map _).nodup_iff.mpr hnames
  have hmem := mem_functions_congr hperm
  have hload := load_ok_congr hperm
  constructor
  · rw [accepted_iff, accepted_iff, hload]
    refine and_congr_right fun hload => forall_congr' fun f => ?_
    rw [hmem]
    exact forall₂_congr fun _ _ =>
      (specification_reordered hnames hperm hglobals hload f).exists_ok_iff
  · intro specs specs' hspecs hspecs' name
    have hrenderable : file'.renderable? name = file.renderable? name := by
      refine Option.ext fun f => ?_
      rw [renderable?_eq_some_iff hnames, renderable?_eq_some_iff hnames', hmem]
    obtain ⟨hload, -⟩ := accepted_iff.mp ⟨specs, hspecs⟩
    cases hf : file.renderable? name with
    | none =>
      rw [(compiles hspecs).none name hf, (compiles hspecs').none name (hrenderable.trans hf)]
    | some f =>
      obtain ⟨spec, hspec, hok⟩ := get?_of_renderable? hspecs hf
      obtain ⟨spec', hspec', hok'⟩ := get?_of_renderable? hspecs' (hrenderable.trans hf)
      have hsame := specification_reordered hnames hperm hglobals hload f
      rw [hok, hok'] at hsame
      rw [hspec, hspec', hsame.ok_eq]

def unit : Global := ⟨default, "unit", ⟨default, "float"⟩, some (.scalar 1)⟩

def half : Function where
  span := default
  kind := .function
  name := "half"
  params := [⟨default, "x", ⟨default, "float"⟩, none⟩]
  returns := some ⟨default, "float"⟩
  body := [.return_ default
    (.binary default .mul (.name default "x")
      (.binary default .mul (.name default "unit") (.literal default .float (.scalar 0.5))))]

def quarter : Function where
  span := default
  kind := .function
  name := "quarter"
  params := [⟨default, "x", ⟨default, "float"⟩, none⟩]
  returns := some ⟨default, "float"⟩
  body := [.return_ default
    (.call default "half" [.call default "half" [.name default "x"] []] [])]

def quartered : Function where
  span := default
  kind := .mark
  name := "quartered"
  params := [⟨default, "x", ⟨default, "float"⟩, none⟩]
  returns := none
  body := [.emit default [[⟨default, "a", .call default "quarter" [.name default "x"] []⟩]]]

/-- Each function stands before those that it calls. -/
def callersFirst : File :=
  ⟨[.function quartered, .function quarter, .global unit, .function half]⟩

/-- Each function stands behind those that it calls. -/
def callersLast : File := ⟨callersFirst.blocks.reverse⟩

theorem compile_reordered_callers : ∃ specs specs', callersFirst.compile = .ok specs ∧
    callersLast.compile = .ok specs' ∧ ∀ name, specs'.get? name = specs.get? name := by
  obtain ⟨specs, hspecs⟩ : ∃ specs, callersFirst.compile = .ok specs :=
    accepted_iff_isOk.mpr (by decide +kernel)
  have hperm : callersLast.blocks.Perm callersFirst.blocks := List.reverse_perm _
  obtain ⟨haccepted, hsame⟩ := compile_reordered (by decide) hperm rfl
  obtain ⟨specs', hspecs'⟩ := haccepted.mp ⟨specs, hspecs⟩
  exact ⟨specs, specs', hspecs, hspecs', hsame specs specs' hspecs hspecs'⟩

end Surface.File

end DataMarks
