/-
  The types of scaled values.

  An expression in names that stand for others has a type that depends on the types of those
  only (`Standalone.expr_type`). So a custom scale, whose type is found with numbers for its
  parameters and for its argument, has that type wherever the argument is a number, and all
  other scales have the type that they are made for (`Scaling.Built.expression_type`).
-/
import DataMarks.Proofs.ScaleReads

namespace DataMarks

open Dictionary List

variable {δ : Type}

/-! ## Names that stand for expressions -/

/-- Expressions of the same type. -/
def Expr.SameType (e e' : Expr) : Prop := e.type = e'.type

theorem Standalone.congruence_sameType : Congruence Expr.SameType where
  type h := h
  coerce := by
    intro e e' t h
    unfold Expr.coerce?
    rw [show e.type = e'.type from h]
    split
    · exact .some ⟨h, rfl⟩
    · cases Catalog.conversion? e'.type t with
      | none => exact .none
      | some c => exact .some ⟨rfl, rfl⟩
  const _ _ := rfl
  field _ _ _ := rfl
  call _ _ _ := rfl

/-- The type of an expression depends on the types behind its names only. -/
theorem Standalone.expr_type {given given' : Dictionary Expr}
    (hgiven : ∀ x, Option.Rel Expr.SameType (given.get? x) (given'.get? x)) {s : Surface.Expr}
    {e e' : Expr} (h : expr given s = .ok e) (h' : expr given' s = .ok e') : e.type = e'.type := by
  obtain ⟨_, he', htype⟩ := expr_related congruence_sameType hgiven h
  cases he'.symm.trans h'
  exact htype

/-! ## Scales -/

variable {ps : List (Parameter δ)} {owner : String}

namespace Scale

/-- Whether a scale is an expression. -/
def isCustom : Scale δ → Bool
  | custom .. => true
  | continuous .. | intrinsic _ => false

variable {given own : Dictionary Expr}

theorem get?_of_find {k : String} {e : Expr} (h : given.find k = .ok e) :
    given.get? k = some e := by
  unfold Dictionary.find at h
  cases hg : given.get? k with
  | none => simp [hg] at h
  | some g =>
    simp only [hg, Except.ok.injEq] at h
    rw [h]

/-- What is selected for a parameter is what stands for it under its owner's name. -/
theorem get?_of_select {x : String} {e : Expr} (h : select given owner ps = .ok own)
    (hx : own.get? x = some e) : given.get? (owner ++ x) = some e := by
  unfold select at h
  obtain ⟨es, hes, h⟩ := bind_ok.mp h
  cases h
  have hall := forall_of_mapM (Q := fun b => given.get? (owner ++ b.1) = some b.2) (fun p b hb => by
    obtain ⟨g, hg, hb⟩ := bind_ok.mp hb
    cases hb
    exact get?_of_find hg) hes
  exact hall (x, e) (mem_of_mem_ofEntries (mem_of_get? hx))

theorem mem_keys_select {x : String} (h : select given owner ps = .ok own) :
    x ∈ own.keys ↔ x ∈ ps.map Parameter.name := by
  unfold select at h
  obtain ⟨es, hes, hown⟩ := bind_ok.mp h
  cases hown
  rw [mem_keys_ofEntries]
  have hkeys : Dictionary.keys es = ps.map Parameter.name := by
    clear h
    induction ps generalizing es with
    | nil =>
      cases hes
      rfl
    | cons p ps ih =>
      rw [mapM_cons] at hes
      obtain ⟨b, hb, hes⟩ := bind_ok.mp hes
      obtain ⟨rest, hrest, hes⟩ := bind_ok.mp hes
      obtain ⟨g, -, hb⟩ := bind_ok.mp hb
      cases hes
      cases hb
      exact congrArg (p.name :: ·) (ih _ hrest)
  rw [hkeys]

end Scale

namespace Scaling

/-- What stands for parameters has their types. -/
def GivenTyped (given : Dictionary Expr) (ps : List (Parameter δ)) : Prop :=
  ∀ p ∈ ps, ∀ e, given.get? p.name = some e → e.type = p.type

variable {own : Dictionary Expr} {body : Surface.Expr} {types : List ValueType}

theorem GivenTyped.select {given : Dictionary Expr}
    (h : GivenTyped given (ps.map (Parameter.within owner)))
    (hown : Scale.select given owner ps = .ok own) : GivenTyped own ps :=
  fun p hp e he => h (p.within owner) (mem_map_of_mem hp) e (Scale.get?_of_select hown he)

/-- Scalings that come about through the constructors of scales, where the parameters of custom
scales are put in one after the other. -/
inductive Built : Scaling δ → Prop
  | continuous (interpolation : Interpolation) (t : ValueType) (domain range : Source δ × Source δ)
      {arg : ScaleArgument δ} (harg : ∀ s, arg = .scaling s → Built s) :
      Built (Scaling.continuous interpolation t domain range arg)
  | call {name : String} {args : List (ScaleArgument δ)} {s : Scaling δ}
      (hargs : ∀ s, .scaling s ∈ args → Built s) (h : Scaling.call name args = .ok s) : Built s
  | custom {body : Surface.Expr} {entries : List (String × Source δ)} {arg : ScaleArgument δ}
      {s : Scaling δ} (harg : ∀ s, arg = .scaling s → Built s)
      (h : Scaling.custom body (Dictionary.ofEntries entries) arg = .ok s) : Built s

mutual

/-- The types of the scalings that custom scales are applied to. -/
def customized : Scaling δ → List ValueType
  | apply scale _ _ args => argsCustomized scale.isCustom args

def argsCustomized (custom : Bool) : List (ScaleArgument δ) → List ValueType
  | [] => []
  | .value _ :: args => argsCustomized custom args
  | .scaling s :: args =>
    (if custom then [s.returns] else []) ++ s.customized ++ argsCustomized custom args

end

variable {s : Scaling δ} {given : Dictionary Expr} {e : Expr}
variable {parameters : Dictionary (Source δ)}

theorem custom_ok {arg : ScaleArgument δ} (h : Scaling.custom body parameters arg = .ok s) :
    ∃ e₀, Standalone.expr (Dictionary.insert "value" (.const .float (.scalar 0))
        (parameters.map fun e => (e.1, .const .float (.scalar 0)))) body = .ok e₀ ∧
      s = apply (.custom body parameters) e₀.type [.float] [arg] := by
  unfold Scaling.custom at h
  obtain ⟨e₀, he₀, h⟩ := bind_ok.mp h
  cases h
  exact ⟨e₀, he₀, rfl⟩

variable {args : List (ScaleArgument δ)}

theorem call_ok {name : String} (h : Scaling.call name args = .ok s) :
    ∃ f ∈ Catalog.intrinsics,
      s = apply (.intrinsic f) f.returns (args.map ScaleArgument.type) args := by
  unfold Scaling.call at h
  dsimp only at h
  split at h
  · rename_i f fit hresolve
    cases h
    exact ⟨f, Resolver.wellFormed_of_mem_candidates (forall_mem_nil _)
      (Resolver.resolve_ok hresolve).1, rfl⟩
  · cases h
  · cases h

/-- The names of a custom scale stand for numbers, as they do where its type is found. -/
theorem types_of_select {value : Expr}
    (hgiven : GivenTyped given ((Scale.custom body parameters).parameters.map (Parameter.within "s")))
    (hown : Scale.select given "s" (Scale.custom body parameters).parameters = .ok own)
    (hvalue : value.type = .float) (x : String) :
    Option.Rel Expr.SameType ((own.insert "value" value).get? x)
      ((Dictionary.insert "value" (.const .float (.scalar 0))
        (parameters.map fun e => (e.1, .const .float (.scalar 0)))).get? x) := by
  have hkeys : (Scale.custom body parameters).parameters.map Parameter.name = parameters.keys := by
    simp [Scale.parameters, Dictionary.keys]
  rw [get?_insert, get?_insert]
  by_cases hx : x = "value"
  · rw [if_pos hx, if_pos hx]
    exact .some hvalue
  · rw [if_neg hx, if_neg hx, get?_map (fun _ => Expr.const .float (.scalar 0)) parameters x]
    have hmem : x ∈ own.keys ↔ x ∈ parameters.keys := hkeys ▸ Scale.mem_keys_select hown
    cases hp : parameters.get? x with
    | none =>
      have hnone : own.get? x = none := by
        rw [← not_mem_keys_iff, hmem, not_mem_keys_iff]
        exact hp
      rw [hnone]
      exact .none
    | some source =>
      obtain ⟨g, hg⟩ := Option.isSome_iff_exists.mp
        ((mem_keys_iff _ _).mp (hmem.mpr (mem_keys_of_get? hp)))
      have hparameter : ⟨x, .float, source⟩ ∈ (Scale.custom body parameters).parameters :=
        mem_map.mpr ⟨(x, source), mem_of_get? hp, rfl⟩
      rw [hg]
      exact .some (hgiven _ (mem_map_of_mem hparameter) g (Scale.get?_of_select hown hg))

theorem expression_ok {scale : Scale δ} {t : ValueType}
    (h : (apply scale t types args).expression given = .ok e) :
    ∃ own values, Scale.select given "s" scale.parameters = .ok own ∧
      argExpressions given 0 args = .ok values ∧ scale.expression own values = .ok e := by
  rw [expression] at h
  obtain ⟨own, hown, h⟩ := bind_ok.mp h
  obtain ⟨values, hvalues, h⟩ := bind_ok.mp h
  exact ⟨own, values, hown, hvalues, h⟩

/-- The value of an argument is one of those given, or that of a scaling in its place. -/
inductive ArgumentValue (given : Dictionary Expr) (types : List ValueType)
    (args : List (ScaleArgument δ)) (e : Expr) : Prop
  | value {k : String} (hk : (k, e) ∈ given)
      (htype : (∀ t ∈ types, t = .float) → e.type = .float)
  | scaling {s : Scaling δ} {owner : String} {inner : Dictionary Expr} (hs : .scaling s ∈ args)
      (hinner : Scale.select given owner s.parameters = .ok inner)
      (htyped : GivenTyped inner s.parameters) (he : s.expression inner = .ok e)

theorem ArgumentValue.later (h : ArgumentValue given types.tail args e) (arg : ScaleArgument δ) :
    ArgumentValue given types (arg :: args) e := by
  cases h with
  | value hk htype => exact .value hk fun h => htype fun t ht => h t (mem_of_mem_tail ht)
  | scaling hs hinner htyped he => exact .scaling (mem_cons_of_mem arg hs) hinner htyped he

theorem mem_argExpressions {i : Nat} {values : List Expr}
    (hgiven : GivenTyped given (argParameters i types args))
    (h : argExpressions given i args = .ok values) (he : e ∈ values) :
    ArgumentValue given types args e := by
  induction args generalizing i types values with
  | nil =>
    rw [argExpressions] at h
    cases h
    cases he
  | cons arg args ih =>
    cases arg with
    | value source =>
      rw [argParameters] at hgiven
      rw [argExpressions] at h
      obtain ⟨g, hg, h⟩ := bind_ok.mp h
      obtain ⟨rest, hrest, h⟩ := bind_ok.mp h
      cases h
      obtain rfl | he := mem_cons.mp he
      · refine .value (mem_of_find hg) fun ht => ?_
        rw [hgiven _ mem_cons_self e (Scale.get?_of_find hg)]
        cases types with
        | nil => rfl
        | cons t types => exact ht t mem_cons_self
      · exact (ih (fun p hp => hgiven p (mem_cons_of_mem _ hp)) hrest he).later _
    | scaling s =>
      rw [argParameters] at hgiven
      rw [argExpressions] at h
      obtain ⟨inner, hinner, h⟩ := bind_ok.mp h
      obtain ⟨g, hg, h⟩ := bind_ok.mp h
      obtain ⟨rest, hrest, h⟩ := bind_ok.mp h
      cases h
      obtain rfl | he := mem_cons.mp he
      · exact .scaling mem_cons_self hinner
          (GivenTyped.select (fun p hp => hgiven p (mem_append_left _ hp)) hinner) hg
      · exact (ih (fun p hp => hgiven p (mem_append_right _ hp)) hrest he).later _

theorem argsCustomized_subset {custom : Bool} (hs : .scaling s ∈ args) :
    s.customized ⊆ argsCustomized custom args ∧
      (custom = true → s.returns ∈ argsCustomized custom args) := by
  induction args with
  | nil => cases hs
  | cons arg args ih =>
    cases arg with
    | value source =>
      rw [argsCustomized]
      exact ih (by simpa using hs)
    | scaling s' =>
      rw [argsCustomized]
      obtain hs | hs := mem_cons.mp hs
      · cases hs
        refine ⟨subset_append_of_subset_left _ (subset_append_right _ _), ?_⟩
        rintro rfl
        simp
      · exact ⟨subset_append_of_subset_right _ (ih hs).1,
          fun hc => mem_append_right _ ((ih hs).2 hc)⟩

/-- A scaled value has the type that its scaling returns, if what stands for parameters has their
types and custom scales are applied to numbers. -/
theorem Built.expression_type (hs : s.Built) (hcustom : ∀ t ∈ s.customized, t = .float)
    (hgiven : GivenTyped given s.parameters) (h : s.expression given = .ok e) :
    e.type = s.returns := by
  induction hs generalizing given e with
  | continuous interpolation t domain range harg ih =>
    obtain ⟨own, values, -, -, h⟩ := expression_ok h
    obtain ⟨value, d₀, d₁, r₀, r₁, -, -, -, -, -, rfl⟩ := Scale.continuous_ok h
    rfl
  | call hargs hcall ih =>
    obtain ⟨f, -, rfl⟩ := call_ok hcall
    obtain ⟨own, values, -, -, h⟩ := expression_ok h
    rw [Scale.expression] at h
    obtain ⟨args, -, h⟩ := bind_ok.mp h
    cases h
    rfl
  | @custom body ps arg s harg hs ih =>
    obtain ⟨e₀, he₀, rfl⟩ := custom_ok hs
    obtain ⟨own, values, hown, hvalues, h⟩ := expression_ok h
    obtain ⟨value, hvalue, hbody⟩ := Scale.custom_ok h
    rw [parameters] at hgiven
    rw [customized] at hcustom
    have hnumber : value.type = .float := by
      cases mem_argExpressions (fun p hp => hgiven p (mem_append_right _ hp)) hvalues
        (Scale.argument_mem hvalue) with
      | value hk htype => exact htype (forall_mem_singleton.mpr rfl)
      | @scaling s' owner inner hs' hinner htyped he' =>
        obtain ⟨hsubset, hreturns⟩ := argsCustomized_subset hs'
        rw [ih s' (mem_singleton.mp hs').symm (fun t ht => hcustom t (hsubset ht)) htyped he']
        exact hcustom _ (hreturns rfl)
    have htypes := types_of_select (fun p hp => hgiven p (mem_append_left _ hp)) hown hnumber
    exact Standalone.expr_type htypes hbody he₀

end Scaling

end DataMarks
