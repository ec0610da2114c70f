/-
  Expressions in a mark and expressions that stand alone.

  Where no function is loaded, an expression of a mark is compiled as it is outside of any
  mark, with the visible names standing for their variables. The results are the same, or
  both fail in the same way, up to the name that may have been meant
  (`Compile.expression_standalone`). `Compile.Agrees` says this of a step, which leaves
  the state as it was and writes nothing.
-/
import DataMarks.Compilation.Standalone
import DataMarks.Proofs.CompileState
import DataMarks.Proofs.Entries
import DataMarks.Proofs.Overloads
import DataMarks.Proofs.RelatedSteps

namespace DataMarks

open Dictionary List

/-! ## Visible variables -/

def Variable.expr (v : Variable) : Expr := .var v.type v.unique

/-- The visible names, each with the expression of the variable that it means. -/
def Scope.meanings (s : Scope) : Dictionary Expr :=
  Dictionary.ofEntries (s.visible.filterMap fun x => (s.get? x).map fun v => (x, v.expr))

theorem Scope.get?_meanings (s : Scope) (x : String) :
    s.meanings.get? x = (s.get? x).map Variable.expr := by
  have hentries : ∀ {e : String × Expr},
      e ∈ s.visible.filterMap (fun x => (s.get? x).map fun v => (x, v.expr)) →
        (s.get? e.1).map Variable.expr = some e.2 := by
    intro e he
    obtain ⟨y, -, hy⟩ := mem_filterMap.mp he
    obtain ⟨v, hv, rfl⟩ := Option.map_eq_some_iff.mp hy
    rw [hv]
    rfl
  cases hget : s.meanings.get? x with
  | some e =>
    exact (hentries (mem_of_mem_ofEntries (mem_of_get? hget))).symm
  | none =>
    cases hv : s.get? x with
    | none => rfl
    | some v =>
      rw [← not_mem_keys_iff, meanings, mem_keys_ofEntries] at hget
      refine absurd (mem_map.mpr ⟨(x, v.expr), ?_, rfl⟩) hget
      exact mem_filterMap.mpr ⟨x, mem_visible_of_get? hv, by rw [hv]; rfl⟩

/-! ## Calls -/

namespace Resolver

variable {r : Resolver} {name : String} {args : Arguments}

theorem shadowing_of_none {ms : List (Option String)} (h : ∀ m ∈ ms, m = none) :
    shadowing name ms = [] := by
  induction ms with
  | nil => rfl
  | cons m ms ih =>
    rw [forall_mem_cons] at h
    rw [shadowing, h.1, members, ih h.2]

/-- Where no function is loaded and no module is entered, only intrinsics can be called. -/
theorem candidates_of_empty (hfunctions : r.functions = []) (hmodules : ∀ m ∈ r.modules, m = none) :
    r.candidates name = (Catalog.named name).map .intrinsic := by
  rw [candidates, shadowing_of_none hmodules, hfunctions]
  simp

theorem resolve_of_empty (hfunctions : r.functions = []) (hmodules : ∀ m ∈ r.modules, m = none) :
    r.resolve name args = ({} : Resolver).resolve name args := by
  rw [resolve, resolve, candidates_of_empty hfunctions hmodules,
    candidates_of_empty rfl (forall_mem_nil _)]

theorem toCompileError_of_empty (hfunctions : r.functions = []) (e : ResolveError) (span : Span) :
    e.toCompileError r span name args = e.toCompileError {} span name args := by
  cases e with
  | unresolved => rfl
  | undefined =>
    unfold ResolveError.toCompileError functionNames
    rw [hfunctions]

theorem exists_intrinsic {c : Callee} {fit : Fit}
    (h : ({} : Resolver).resolve name args = .ok (c, fit)) : ∃ i, c = .intrinsic i := by
  obtain ⟨hmem, -⟩ := resolve_ok h
  rw [candidates_of_empty rfl (forall_mem_nil _)] at hmem
  obtain ⟨i, -, rfl⟩ := mem_map.mp hmem
  exact ⟨i, rfl⟩

end Resolver

namespace Compile

/-! ## Steps and results -/

/-- From a state, a step gives what an expression that stands alone gives, up to suggestions. It
changes nothing and writes nothing. -/
def Agrees {α : Type} (s : Compiler) (x : Compile α) (y : Except CompileError α) : Prop :=
  ∃ r, x s = ⟨r, s, []⟩ ∧ SameResult UpToSuggestion r y

section Rules

variable {α β : Type} {s : Compiler}

theorem Agrees.lift (x : Except CompileError α) : Agrees s (lift x) x :=
  ⟨x, rfl, .refl .refl x⟩

theorem Agrees.bind {x : Compile α} {y : Except CompileError α} {f : α → Compile β}
    {g : α → Except CompileError β} (hx : Agrees s x y) (hf : ∀ a, Agrees s (f a) (g a)) :
    Agrees s (x >>= f) (y >>= g) := by
  obtain ⟨r, hrun, hresult⟩ := hx
  cases hresult with
  | error h => exact ⟨_, bind_of_error hrun, .error h⟩
  | ok a =>
    obtain ⟨r, hrun', hresult'⟩ := hf a
    refine ⟨r, ?_, hresult'⟩
    rw [bind_of_ok hrun, hrun']
    rfl

end Rules

/-! ## Expressions -/

/-- No function is loaded and no module entered, and names stand for what they mean in the scope,
where no variable has the name of a constant. -/
structure Bare (given : Dictionary Expr) (s : Compiler) : Prop where
  functions : s.resolver.functions = []
  modules : ∀ m ∈ s.resolver.modules, m = none
  constants : ∀ x v, s.scope.get? x = some v → Catalog.constant? x = none
  given : ∀ x, given.get? x = (s.scope.get? x).map Variable.expr

section Expressions

variable {given : Dictionary Expr} {s : Compiler} (h : Bare given s) (expand : Expander)
include h

theorem callValue_agrees (span : Span) (name : String) (args : Arguments) :
    Agrees s (callValue expand span name args) (Standalone.call span name args) := by
  have hstate : state s = ⟨.ok s, s, []⟩ := rfl
  have hresolve : ({} : Resolver).resolve name args = s.resolver.resolve name args :=
    (Resolver.resolve_of_empty h.functions h.modules).symm
  rw [callValue, Standalone.call, hresolve]
  cases hr : s.resolver.resolve name args with
  | error e =>
    have hcall : call expand span name args s =
        ⟨.error (e.toCompileError s.resolver span name args), s, []⟩ := by
      rw [call, bind_of_ok hstate]
      dsimp only
      rw [hr]
      rfl
    refine ⟨_, bind_of_error hcall, ?_⟩
    rw [Resolver.toCompileError_of_empty h.functions]
    exact .error rfl
  | ok r =>
    obtain ⟨c, fit⟩ := r
    obtain ⟨i, rfl⟩ := Resolver.exists_intrinsic (hresolve.trans hr)
    have hcall : call expand span name args s =
        ⟨.ok (some (.call i.returns i.internalName fit.args)), s, []⟩ := by
      rw [call, bind_of_ok hstate]
      dsimp only
      rw [hr]
      rfl
    exact ⟨_, bind_of_ok hcall, .ok _⟩

theorem name_agrees (span : Span) (x : String) :
    Agrees s (expr expand (.name span x)) (Standalone.reference given span x) := by
  have hgiven := h.given x
  have hstate : state s = ⟨.ok s, s, []⟩ := rfl
  rw [expr, Standalone.reference]
  cases hv : s.scope.get? x with
  | some v =>
    have hvariable : variable_ span x s = ⟨.ok v, s, []⟩ := runs_variable_iff.mpr ⟨hv, rfl, rfl⟩
    rw [hv] at hgiven
    rw [h.constants x v hv, hgiven]
    exact ⟨_, bind_of_ok hvariable, .ok _⟩
  | none =>
    rw [hv] at hgiven
    rw [hgiven]
    cases Catalog.constant? x with
    | some c => exact ⟨_, rfl, .ok _⟩
    | none =>
      have hvariable : variable_ span x s =
          ⟨.error (.undefinedVariable span x
            (Name.suggest x (s.scope.visible ++ Catalog.constantNames))), s, []⟩ := by
        rw [variable_, bind_of_ok hstate]
        dsimp only
        rw [hv]
        rfl
      exact ⟨_, bind_of_error hvariable, .error rfl⟩

-- Some members only pass hypotheses on.
set_option linter.unusedSectionVars false in
mutual

theorem expr_agrees : ∀ e : Surface.Expr, Agrees s (expr expand e) (Standalone.expr given e)
  | .literal _ t v => by
    rw [expr, Standalone.expr]
    exact .lift _
  | .name span x => by
    rw [Standalone.expr]
    exact name_agrees h expand span x
  | .field span base f => by
    rw [expr, Standalone.expr]
    exact (expr_agrees base).bind fun e => .lift _
  | .call span name args keywords => by
    rw [expr, Standalone.expr]
    exact (exprs_agrees args).bind fun positional => (keywordExprs_agrees keywords).bind
      fun keywords => callValue_agrees h expand span name _
  | .unary span op arg => by
    rw [expr, Standalone.expr]
    exact (expr_agrees arg).bind fun e => callValue_agrees h expand span _ _
  | .binary span op lhs rhs => by
    rw [expr, Standalone.expr]
    exact (expr_agrees lhs).bind fun l => (expr_agrees rhs).bind fun r =>
      callValue_agrees h expand span _ _

theorem exprs_agrees : ∀ es : List Surface.Expr,
    Agrees s (exprs expand es) (Standalone.exprs given es)
  | [] => by
    rw [exprs, Standalone.exprs]
    exact .lift _
  | e :: es => by
    rw [exprs, Standalone.exprs]
    exact (expr_agrees e).bind fun e => (exprs_agrees es).bind fun es => .lift (.ok _)

theorem keywordExprs_agrees : ∀ es : List (String × Surface.Expr),
    Agrees s (keywordExprs expand es) (Standalone.keywordExprs given es)
  | [] => by
    rw [keywordExprs, Standalone.keywordExprs]
    exact .lift _
  | (k, e) :: es => by
    rw [keywordExprs, Standalone.keywordExprs]
    exact (expr_agrees e).bind fun e => (keywordExprs_agrees es).bind fun es => .lift (.ok _)

end

end Expressions

/-- Where no function is loaded and no module entered, an expression is compiled as if it stood
alone, with the visible names standing for their variables: with the same result, or with the same
error up to what it suggests. The compilation stays as it is and nothing is written. -/
theorem expression_standalone {s : Compiler} {given : Dictionary Expr}
    (hfunctions : s.resolver.functions = []) (hmodules : ∀ m ∈ s.resolver.modules, m = none)
    (hconstants : ∀ x v, s.scope.get? x = some v → Catalog.constant? x = none)
    (hgiven : ∀ x, given.get? x = (s.scope.get? x).map Variable.expr) (e : Surface.Expr) :
    SameResult UpToSuggestion (expression e s).result (Standalone.expr given e) ∧
      (expression e s).state = s ∧ (expression e s).code = [] := by
  have hbare : Bare given s := ⟨hfunctions, hmodules, hconstants, hgiven⟩
  have hstate : state s = ⟨.ok s, s, []⟩ := rfl
  obtain ⟨r, hrun, hresult⟩ := expr_agrees hbare (expander (depth s)) e
  rw [expression, bind_of_ok hstate, hrun]
  exact ⟨hresult, rfl, rfl⟩

/-- The inside of a function with a parameter `p`, expanded in a mark that has an input `size`. -/
def insideExpansion : Compiler where
  resolver := { modules := [none] }
  scope :=
    { inner := [{ formals := [("p", "tmp")] }, { vars := [("tmp", ⟨"tmp", .vector2, "tmp"⟩)] }]
      outermost := { vars := [("size", ⟨"size", .float, "size"⟩)] }
      issued := [("size", .float), ("tmp", .vector2)] }

/-- The product of a field of `p` and a name. -/
def scaledField (name : String) : Surface.Expr :=
  .binary default .mul (.field default (.name default "p") "x") (.name default name)

/-- `expression_standalone` at a product that is compiled and at one with a misspelled name. -/
theorem expression_standalone_insideExpansion :
    (expression (scaledField "size") insideExpansion).result.isOk = true ∧
      SameResult UpToSuggestion (expression (scaledField "size") insideExpansion).result
        (Standalone.expr insideExpansion.scope.meanings (scaledField "size")) ∧
      (expression (scaledField "sise") insideExpansion).result.isOk = false ∧
      SameResult UpToSuggestion (expression (scaledField "sise") insideExpansion).result
        (Standalone.expr insideExpansion.scope.meanings (scaledField "sise")) := by
  have hconstants : ∀ x v, insideExpansion.scope.get? x = some v →
      Catalog.constant? x = none := by
    intro x v hx
    have hnames : ∀ y ∈ insideExpansion.scope.visible, Catalog.constant? y = none := by
      decide +kernel
    exact hnames x (Scope.mem_visible_of_get? hx)
  have hmodules : ∀ m ∈ insideExpansion.resolver.modules, m = none := by decide
  exact ⟨by decide +kernel,
    (expression_standalone rfl hmodules hconstants (Scope.get?_meanings _) _).1,
    by decide +kernel,
    (expression_standalone rfl hmodules hconstants (Scope.get?_meanings _) _).1⟩

end Compile

end DataMarks
