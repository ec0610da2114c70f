/-
  A compiler that is used again and again.

  Requests to one compiler may fail at any point, and what they changed by then stays.
  Still a function is compiled as on a new compiler that has loaded the same files
  (`Compiler.function_served`): loading only adds functions and globals, and all other
  requests leave these and the entered modules as they found them.
-/
import DataMarks.Proofs.ExpansionDepth

namespace DataMarks

/-- What a compiler can be asked for. -/
inductive Request
  | load (file : Surface.File)
  | function (f : Surface.Function)
  | expression (e : Surface.Expr)

namespace Request

def isLoad : Request → Bool
  | load _ => true
  | function _ | expression _ => false

/-- The compiler behind a request, whether it failed or not. -/
def serve (s : Compiler) : Request → Compiler
  | load file => (Compile.load file s).state
  | function f => (Compile.function f s).state
  | expression e => (Compile.expression e s).state

end Request

/-- A new compiler behind a number of requests. -/
def Compiler.serving (rs : List Request) : Compiler := rs.foldl Request.serve {}

/-- Compilers with the same functions and globals, both outside of all modules. -/
structure Compiler.SameLoaded (s t : Compiler) : Prop where
  resolver : s.resolver = t.resolver
  globals : s.globals = t.globals
  modules : s.resolver.modules = []

namespace Compile

open Compiler (SameLoaded)

/-! ## Loading -/

/-- A relation between compilers that stays when both load the same. -/
structure Loading (R : Compiler → Compiler → Prop) : Prop where
  functions : ∀ {s t} module fs, R s t →
    R { s with resolver := s.resolver.addAll module fs }
      { t with resolver := t.resolver.addAll module fs }
  globals : ∀ {s t} g, R s t →
    R { s with globals := s.globals ++ [g] } { t with globals := t.globals ++ [g] }

theorem loading_sameLoaded : Loading SameLoaded where
  functions := fun module fs h =>
    ⟨by rw [h.resolver], h.globals, by rw [Resolver.addAll_eq]; exact h.modules⟩
  globals := fun g h => ⟨h.resolver, by rw [h.globals], h.modules⟩

section Loading

variable {R : Compiler → Compiler → Prop} (hR : Loading R)

theorem loadParams_matches (ps : List Surface.Param) :
    Matches R (loadParams ps) (loadParams ps) := by
  induction ps with
  | nil => exact .pure _
  | cons p ps ih =>
    exact (valueType_relates (fun _ => rfl) p.type).bind fun t =>
      (defaultValue_relates (fun _ => rfl) p.span t p.default).bind fun _ => ih

include hR

theorem addFunctions_matches (module : Option String) (fs : List Surface.Function) :
    Matches R (addFunctions module fs) (addFunctions module fs) :=
  .update fun _ _ => hR.functions module fs

theorem importNames_matches (m : Module) (names : List (Span × String)) :
    Matches R (importNames m names) (importNames m names) := by
  induction names with
  | nil => exact .pure _
  | cons n names ih =>
    rw [importNames]
    split
    · exact .fail rfl
    · exact (addFunctions_matches hR _ _).bind fun _ => ih

theorem loadImport_matches (i : Surface.Import) :
    Matches R (loadImport i) (loadImport i) := by
  unfold loadImport
  split
  · exact .fail rfl
  · split
    · exact addFunctions_matches hR _ _
    · exact importNames_matches hR _ _

theorem loadBlock_matches (b : Surface.Block) : Matches R (loadBlock b) (loadBlock b) := by
  cases b with
  | function f =>
    exact (loadParams_matches f.params).bind fun _ =>
      (valueType?_relates (fun _ => rfl) f.returns).bind fun _ =>
        addFunctions_matches hR none [f]
  | global g =>
    exact (valueType_relates (fun _ => rfl) g.type).bind fun _ => .update fun _ _ => hR.globals g
  | import_ i => exact loadImport_matches hR i

theorem load_matches (file : Surface.File) : Matches R (load file) (load file) := by
  unfold load
  induction file.blocks with
  | nil => exact .pure _
  | cons b bs ih => exact (loadBlock_matches hR b).bind fun _ => ih

end Loading

/-! ## Requests -/

/-- Of the state in which a function is compiled only what is loaded matters, and that stays. -/
theorem function_of_sameLoaded {s t : Compiler} (h : SameLoaded s t) (f : Surface.Function) :
    function f s = function f t ∧ SameLoaded (function f s).state t := by
  have hexpand := @expander_alike ⟨s.resolver, s.globals, [(none, f.name)]⟩ (depth s) (depth s)
    (Setting.length_free_lt _) (Setting.length_free_lt _)
  have hsetting : (function f s).state.setting = ⟨s.resolver, s.globals, [(none, f.name)]⟩ :=
    (functionBy_alike hexpand).2
  have hresolver := congrArg Setting.resolver hsetting
  have hglobals := congrArg Setting.globals hsetting
  constructor
  · obtain ⟨resolver, globals, scope, outputs, callStack⟩ := s
    obtain ⟨resolver', globals', scope', outputs', callStack'⟩ := t
    obtain rfl : resolver = resolver' := h.resolver
    obtain rfl : globals = globals' := h.globals
    rfl
  · exact ⟨hresolver.trans h.resolver, hglobals.trans h.globals,
      (congrArg Resolver.modules hresolver).trans h.modules⟩

theorem expression_setting (e : Surface.Expr) (s : Compiler) :
    (expression e s).state.setting = s.setting := by
  have hexpand : (expander (depth s)).Alike s.setting (expander (depth s)) :=
    expander_alike s.setting.length_free_lt s.setting.length_free_lt
  exact (expr_alike hexpand e).setting rfl

end Compile

namespace Compiler

/-- All requests but those to load leave what is loaded. -/
theorem SameLoaded.serve {s t : Compiler} (h : SameLoaded s t) {r : Request}
    (hr : r.isLoad = false) : SameLoaded (r.serve s) t := by
  cases r with
  | load file => cases hr
  | function f => exact (Compile.function_of_sameLoaded h f).2
  | expression e =>
    have hsetting := Compile.expression_setting e s
    have hresolver : (Request.serve s (.expression e)).resolver = s.resolver :=
      congrArg Setting.resolver hsetting
    have hglobals : (Request.serve s (.expression e)).globals = s.globals :=
      congrArg Setting.globals hsetting
    exact ⟨hresolver.trans h.resolver, hglobals.trans h.globals, by rw [hresolver, h.modules]⟩

/-- What is loaded does not depend on other requests in between. -/
theorem SameLoaded.serveAll (rs : List Request) {s t : Compiler} (h : SameLoaded s t) :
    SameLoaded (rs.foldl Request.serve s) ((rs.filter Request.isLoad).foldl Request.serve t) := by
  induction rs generalizing s t with
  | nil => exact h
  | cons r rs ih =>
    cases hr : r.isLoad with
    | false =>
      rw [List.filter_cons_of_neg (by simp [hr])]
      exact ih (h.serve hr)
    | true =>
      rw [List.filter_cons_of_pos hr]
      cases r with
      | load file => exact ih (Compile.load_matches Compile.loading_sameLoaded file s t h).2.2
      | function f => cases hr
      | expression e => cases hr

/-- Whatever a compiler was asked for before, and wherever that failed, a function is compiled as on
a new compiler that has loaded the same files, with the same result or the same error. No module
is left entered. -/
theorem function_served (rs : List Request) (f : Surface.Function) :
    (Compile.function f (serving rs)).result =
        (Compile.function f (serving (rs.filter Request.isLoad))).result ∧
      (serving rs).resolver.modules = [] := by
  have hnew : SameLoaded {} {} := ⟨rfl, rfl, rfl⟩
  have hserving := hnew.serveAll rs
  exact ⟨congrArg Compiled.result (Compile.function_of_sameLoaded hserving f).1, hserving.modules⟩

end Compiler

end DataMarks
