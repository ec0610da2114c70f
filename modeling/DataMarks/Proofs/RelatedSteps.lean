/-
  Steps of a compilation from states that are related to each other.

  `Relates E R x y` says that from states related by `R` two steps have the same result, or
  both fail with errors related by `E`, that they write the same statements, and that the
  states they leave are related again. A body only reads and changes the scope and the
  outputs by itself. So if `R` allows for any scope and any outputs, as long as both sides have
  the same (`AnyScope`), all that is left to show for a whole body is what becomes of the
  calls in it (`stmts_relates`, `body_relates`).
-/
import DataMarks.Proofs.BodySteps
import DataMarks.Proofs.CompileStep

namespace DataMarks

open Compile

/-- The error without the name that may have been meant. -/
def CompileError.withoutSuggestion : CompileError → CompileError
  | undefinedVariable span name _ => .undefinedVariable span name none
  | undefinedFunction span name _ => .undefinedFunction span name none
  | undefinedField span type field _ => .undefinedField span type field none
  | undefinedType span name _ => .undefinedType span name none
  | undefinedModule span name _ => .undefinedModule span name none
  | e => e

/-- Errors that differ at most in the names that may have been meant. -/
def UpToSuggestion (e e' : CompileError) : Prop := e.withoutSuggestion = e'.withoutSuggestion

theorem UpToSuggestion.refl (e : CompileError) : UpToSuggestion e e := rfl

/-- The same result, or a failure on both sides. -/
inductive SameResult {α : Type} (E : CompileError → CompileError → Prop) :
    Except CompileError α → Except CompileError α → Prop
  | ok (a : α) : SameResult E (.ok a) (.ok a)
  | error {e e' : CompileError} (h : E e e') : SameResult E (.error e) (.error e')

namespace SameResult

variable {α : Type} {E : CompileError → CompileError → Prop}

theorem refl (hE : ∀ e, E e e) (x : Except CompileError α) : SameResult E x x := by
  cases x with
  | error e => exact .error (hE e)
  | ok a => exact .ok a

theorem eq {x y : Except CompileError α} (h : SameResult Eq x y) : x = y := by
  cases h with
  | ok a => rfl
  | error h => rw [h]

theorem ok_eq {a b : α} (h : SameResult E (.ok a) (.ok b)) : a = b := by
  cases h with
  | ok => rfl

theorem exists_ok_iff {x y : Except CompileError α} (h : SameResult E x y) :
    (∃ a, x = .ok a) ↔ ∃ a, y = .ok a := by
  cases h with
  | ok a => rfl
  | error => exact iff_of_false (fun h => by cases h.choose_spec) fun h => by cases h.choose_spec

end SameResult

namespace Compile

open Surface.Node (located_true)

/-! ## Rules -/

section Rules

variable {α β : Type} {E : CompileError → CompileError → Prop} {R Q : Compiler → Compiler → Prop}

/-- Two steps do the same from related states, up to how they fail, and leave related states. -/
def Relates (E : CompileError → CompileError → Prop) (R : Compiler → Compiler → Prop)
    (x y : Compile α) : Prop :=
  ∀ s t, R s t →
    SameResult E (x s).result (y t).result ∧ (x s).code = (y t).code ∧ R (x s).state (y t).state

theorem Relates.pure (a : α) : Relates E R (Pure.pure a) (Pure.pure a) :=
  fun _ _ h => ⟨.ok a, rfl, h⟩

theorem Relates.fail {e e' : CompileError} (h : E e e') :
    Relates E R (fail e : Compile α) (fail e') :=
  fun _ _ hst => ⟨.error h, rfl, hst⟩

theorem Relates.lift (hE : ∀ e, E e e) (x : Except CompileError α) :
    Relates E R (lift x) (lift x) :=
  fun _ _ h => ⟨.refl hE x, rfl, h⟩

theorem Relates.write (stmt : Stmt) : Relates E R (write stmt) (write stmt) :=
  fun _ _ h => ⟨.ok (), rfl, h⟩

theorem Relates.update {f g : Compiler → Compiler} (h : ∀ s t, R s t → R (f s) (g t)) :
    Relates E R (update f) (update g) :=
  fun s t hst => ⟨.ok (), rfl, h s t hst⟩

theorem Relates.bind {x y : Compile α} {f g : α → Compile β} (hx : Relates E R x y)
    (hf : ∀ a, Relates E R (f a) (g a)) : Relates E R (x >>= f) (y >>= g) := by
  intro s t hst
  have hstep := hx s t hst
  cases hxs : x s with
  | mk result s₁ c =>
    cases hyt : y t with
    | mk result' t₁ c' =>
      rw [hxs, hyt] at hstep
      obtain ⟨hresult, rfl, hstate⟩ : SameResult E result result' ∧ c = c' ∧ R s₁ t₁ := hstep
      cases hresult with
      | error h =>
        rw [bind_of_error hxs, bind_of_error hyt]
        exact ⟨.error h, rfl, hstate⟩
      | ok a =>
        obtain ⟨hresult, hcode, hstate⟩ := hf a s₁ t₁ hstate
        rw [bind_of_ok hxs, bind_of_ok hyt]
        exact ⟨hresult, congrArg (c ++ ·) hcode, hstate⟩

/-- What follows may look at the states themselves. -/
theorem Relates.state_bind {f g : Compiler → Compile β}
    (h : ∀ s t, R s t → Relates E R (f s) (g t)) : Relates E R (state >>= f) (state >>= g) :=
  fun s t hst => h s t hst s t hst

theorem Relates.capture {x y : Compile Unit} (h : Relates E R x y) :
    Relates E R (capture x) (capture y) := by
  intro s t hst
  obtain ⟨hresult, hcode, hstate⟩ := h s t hst
  refine ⟨?_, rfl, hstate⟩
  show SameResult E ((x s).result.map fun _ => (x s).code) ((y t).result.map fun _ => (y t).code)
  rw [hcode]
  generalize (x s).result = r, (y t).result = r' at hresult
  cases hresult with
  | ok => exact .ok _
  | error h => exact .error h

/-- Steps between a change of the state and one that takes it back. -/
theorem Relates.around {x y : Compile α} {enter leave : Compiler → Compiler}
    (henter : ∀ s t, R s t → Q (enter s) (enter t)) (h : Relates E Q x y)
    (hleave : ∀ s t, Q s t → R (leave s) (leave t)) :
    Relates E R (Compile.update enter >>= fun _ => finally_ x leave)
      (Compile.update enter >>= fun _ => finally_ y leave) := by
  intro s t hst
  obtain ⟨hresult, hcode, hstate⟩ := h _ _ (henter s t hst)
  exact ⟨hresult, hcode, hleave _ _ hstate⟩

end Rules

/-! ## Small steps -/

/-- Related states have the same scope and the same outputs, and these may be any. -/
structure AnyScope (R : Compiler → Compiler → Prop) : Prop where
  scope : ∀ {s t}, R s t → t.scope = s.scope
  outputs : ∀ {s t}, R s t → t.outputs = s.outputs
  withScope : ∀ {s t} scope, R s t → R { s with scope } { t with scope }
  withOutputs : ∀ {s t} outputs, R s t → R { s with outputs } { t with outputs }

section Steps

variable {α : Type} {E : CompileError → CompileError → Prop} {R : Compiler → Compiler → Prop}
  (hE : ∀ e, E e e) (hR : AnyScope R)

section Types

include hE

theorem valueType_relates (t : Surface.TypeName) : Relates E R (valueType t) (valueType t) := by
  unfold valueType
  split
  · exact .pure _
  · exact .fail (hE _)

theorem valueType?_relates (t : Option Surface.TypeName) :
    Relates E R (valueType? t) (valueType? t) := by
  cases t with
  | none => exact .pure _
  | some t => exact (valueType_relates hE t).bind fun u => .pure _

theorem defaultValue_relates (span : Span) (t : ValueType) (v : Option Value) :
    Relates E R (defaultValue span t v) (defaultValue span t v) := by
  unfold defaultValue
  split
  · exact .pure _
  · split
    · exact .pure _
    · exact .fail (hE _)

theorem coerce_relates (span : Span) (e : Expr) (t : ValueType) :
    Relates E R (coerce span e t) (coerce span e t) := by
  unfold coerce
  split
  · exact .pure _
  · exact .fail (hE _)

end Types

section Scopes

include hR

theorem Relates.updateScope (scope : Scope) :
    Relates E R (Compile.update fun s => { s with scope })
      (Compile.update fun s => { s with scope }) :=
  .update fun _ _ hst => hR.withScope scope hst

theorem Relates.inFrame {formals : Dictionary String} {x y : Compile α} (h : Relates E R x y) :
    Relates E R (inFrame formals x) (inFrame formals y) := by
  refine .around (fun s t hst => ?_) h fun s t hst => ?_
  · rw [hR.scope hst]
    exact hR.withScope _ hst
  · rw [hR.scope hst]
    exact hR.withScope _ hst

theorem temporary_relates (t : ValueType) : Relates E R (temporary t) (temporary t) := by
  refine Relates.state_bind fun s s' hs => ?_
  rw [hR.scope hs]
  exact (Relates.updateScope hR _).bind fun _ => .pure _

theorem temporaries_relates (bound : List (Surface.Param × Expr)) (done : Dictionary String) :
    Relates E R (temporaries bound done) (temporaries bound done) := by
  induction bound generalizing done with
  | nil => exact .pure _
  | cons b bound ih =>
    exact (temporary_relates hR b.2.type).bind fun v => (Relates.write _).bind fun _ => ih _

end Scopes

include hE hR

theorem declare_relates (span : Span) (x : String) (t : ValueType) :
    Relates E R (declare span x t) (declare span x t) := by
  refine Relates.state_bind fun s s' hs => ?_
  rw [hR.scope hs]
  split
  · exact (Relates.updateScope hR _).bind fun _ => .pure _
  · exact .fail (hE _)

theorem declareGlobal_relates (span : Span) (x : String) (t : ValueType) :
    Relates E R (declareGlobal span x t) (declareGlobal span x t) := by
  refine Relates.state_bind fun s s' hs => ?_
  rw [hR.scope hs]
  split
  · exact Relates.updateScope hR _
  · exact .fail (hE _)

theorem variable_relates (span : Span) (x : String) :
    Relates E R (variable_ span x) (variable_ span x) := by
  refine Relates.state_bind fun s s' hs => ?_
  dsimp only
  rw [hR.scope hs]
  split
  · exact .pure _
  · exact .fail (hE _)

theorem recordOutput_relates (span : Span) (x : String) (t : ValueType) :
    Relates E R (recordOutput span x t) (recordOutput span x t) := by
  refine Relates.state_bind fun s s' hs => ?_
  rw [hR.outputs hs]
  split
  · refine .update fun s s' hs => ?_
    rw [hR.outputs hs]
    exact hR.withOutputs _ hs
  · split
    · exact .pure _
    · exact .fail (hE _)

theorem globalInputs_relates (gs : List Surface.Global) (done : Dictionary Input) :
    Relates E R (globalInputs gs done) (globalInputs gs done) := by
  induction gs generalizing done with
  | nil => exact .pure _
  | cons g gs ih =>
    exact (valueType_relates hE g.type).bind fun t =>
      (declareGlobal_relates hE hR g.span g.name t).bind fun _ =>
        (defaultValue_relates hE g.span t g.default).bind fun _ => ih _

theorem paramInputs_relates (ps : List Surface.Param) (done : Dictionary Input) :
    Relates E R (paramInputs ps done) (paramInputs ps done) := by
  induction ps generalizing done with
  | nil => exact .pure _
  | cons p ps ih =>
    exact (valueType_relates hE p.type).bind fun t =>
      (declare_relates hE hR p.span p.name t).bind fun _ =>
        (defaultValue_relates hE p.span t p.default).bind fun _ => ih _

end Steps

/-! ## Bodies -/

section Bodies

variable {E : CompileError → CompileError → Prop} {R : Compiler → Compiler → Prop}
  {expand expand' : Expander} (hE : ∀ e, E e e) (hR : AnyScope R)
  (hcall : ∀ span name args, Relates E R (Compile.call expand span name args)
    (Compile.call expand' span name args))
include hE hR hcall

theorem Parallel.relates {P : Span → Prop} {new : List String} {α : Type} {x y : Compile α}
    (h : Parallel P expand expand' new x y) : Relates E R x y := by
  induction h with
  | pure a => exact .pure a
  | fail => exact .fail (hE _)
  | bind _ _ hx hf => exact hx.bind hf
  | mono _ _ ih => exact ih
  | write st => exact .write st
  | capture _ ih => exact ih.capture
  | inFrame _ _ ih => exact ih.inFrame hR
  | valueType? => exact valueType?_relates hE _
  | declare _ _ t => exact declare_relates hE hR _ _ t
  | variable_ _ x => exact variable_relates hE hR _ x
  | coerce _ e t => exact coerce_relates hE _ e t
  | access => exact .lift hE _
  | recordOutput _ x t => exact recordOutput_relates hE hR _ x t
  | call _ name args => exact hcall _ name args

theorem expr_relates (e : Surface.Expr) : Relates E R (expr expand e) (expr expand' e) :=
  (parallel_expr e (located_true _)).relates hE hR hcall

theorem stmts_relates (ss : List Surface.Stmt) :
    Relates E R (stmts expand ss) (stmts expand' ss) :=
  (parallel_stmts ss fun _ _ => located_true _).relates hE hR hcall

theorem body_relates (ss : List Surface.Stmt) : Relates E R (body expand ss) (body expand' ss) :=
  (parallel_body fun _ _ => located_true _).relates hE hR hcall

end Bodies

theorem expandWith_relates {E : CompileError → CompileError → Prop}
    {R : Compiler → Compiler → Prop} {d : Definition} {inner inner' : Expander}
    (hE : ∀ e, E e e) (hR : AnyScope R)
    (hbody : ∀ formals, Relates E R (inBody d formals (body inner d.function.body))
      (inBody d formals (body inner' d.function.body))) (span : Span) (args : List Expr) :
    Relates E R (expandWith inner span d args) (expandWith inner' span d args) := by
  refine (valueType?_relates hE d.function.returns).bind fun returns => ?_
  refine (temporaries_relates hR _ []).bind fun formals => ?_
  refine Relates.bind (hbody formals) fun value => ?_
  cases value with
  | none => exact .pure _
  | some e =>
    cases returns with
    | none => exact .pure _
    | some t => exact (coerce_relates hE span e t).bind fun e => .pure _

end Compile

end DataMarks
