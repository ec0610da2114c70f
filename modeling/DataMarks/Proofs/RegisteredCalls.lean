/-
  Which calls the values of scales are made of.

  An intrinsic scale converts its arguments to the parameters of an intrinsic, and a custom
  scale is compiled against the catalog, so both call intrinsics at the types they are declared
  with. A continuous scale writes its calls down unchecked: they are in the catalog if its
  argument is a number and its range is of a type that can be mixed. So a scaled value has the
  type that its scaling promises where custom scales are applied to numbers, and calls
  intrinsics as these are declared where interpolation is by numbers and between such values
  (`Scaling.Built.expression_promised`).
-/
import DataMarks.Proofs.ExpandedScopes
import DataMarks.Proofs.FlattenedTypes

namespace DataMarks

open Dictionary List

variable {δ : Type}

/-! ## Calls -/

namespace Expr

variable {e e' : Expr} {t : ValueType} {name : String} {args : List Expr}

theorem registeredAll_iff : RegisteredAll args ↔ ∀ e ∈ args, e.Registered := by
  induction args with
  | nil => simp [RegisteredAll]
  | cons e es ih => simp [RegisteredAll, ih]

theorem registered_call {i : Intrinsic} (hi : i ∈ Catalog.intrinsics)
    (hparams : i.params = args.map type) (hargs : ∀ e ∈ args, e.Registered) :
    (call i.returns i.internalName args).Registered := by
  rw [Registered]
  exact ⟨registeredAll_iff.mpr hargs, i, Catalog.find?_internalName i hi, hparams, rfl⟩

theorem not_registered_call (h : Catalog.find? name = none) : ¬ (call t name args).Registered := by
  rw [Registered, h]
  rintro ⟨-, i, hi, -⟩
  cases hi

theorem Registered.coerce {rank : Nat} (h : e.coerce? t = some (e', rank)) (he : e.Registered) :
    e'.Registered := by
  obtain ⟨-, rfl⟩ | ⟨c, hc, rfl⟩ := coerce?_cases h
  · exact he
  · obtain ⟨hfind, hsource, htarget⟩ := Catalog.find?_conversion hc
    rw [Registered, RegisteredAll, RegisteredAll, map_singleton, ← hsource]
    exact ⟨⟨he, trivial⟩, c.intrinsic, hfind, rfl, htarget⟩

/-- A call by the types of its arguments, where the catalog has an overload for these. -/
theorem registered_intrinsic (types : List ValueType) (htypes : args.map type = types)
    (hargs : ∀ e ∈ args, e.Registered)
    (h : ∃ i ∈ Catalog.named name, i.params = types ∧ i.returns = t) :
    (intrinsic name args t).Registered := by
  obtain ⟨i, hi, hparams, rfl⟩ := h
  obtain ⟨hcatalog, hname⟩ := mem_filter.mp hi
  have hcall := registered_call hcatalog (hparams.trans htypes.symm) hargs
  rwa [Intrinsic.internalName, eq_of_beq hname, hparams, ← htypes] at hcall

end Expr

theorem Standalone.inherits_registered : Inherits Expr.Registered where
  coerce := Expr.Registered.coerce
  const _ _ := trivial
  field _ _ h := h
  call := Expr.registered_call

/-! ## Scales -/

/-- The types that values can be mixed in. -/
def Catalog.mixable : List ValueType := (named "mix").map Intrinsic.returns

theorem Catalog.mix_of_mixable : ∀ t ∈ mixable,
    ∃ i ∈ named "mix", i.params = [t, t, .float] ∧ i.returns = t := by
  decide

namespace Scale

/-- Where a number lies between two others is told by calls of the catalog. -/
theorem registered_position {value d₀ d₁ : Expr} (hvalue : value.Registered ∧ value.type = .float)
    (hd₀ : d₀.Registered ∧ d₀.type = .float) (hd₁ : d₁.Registered ∧ d₁.type = .float)
    (interpolation : Interpolation) : (position value d₀ d₁ interpolation).Registered ∧
      (position value d₀ d₁ interpolation).type = .float := by
  have hbinary : ∀ {op : String} {a b : Expr}, op ∈ ["-", "/"] → a.Registered ∧ a.type = .float →
      b.Registered ∧ b.type = .float →
      (Expr.binary op a b).Registered ∧ (Expr.binary op a b).type = .float := by
    intro op a b hop ha hb
    refine ⟨Expr.registered_intrinsic [.float, .float] (by simp [ha, hb]) (by simp [ha, hb]) ?_, ha.2⟩
    rw [ha.2]
    revert op
    decide
  have hlog : ∀ {a : Expr}, a.Registered ∧ a.type = .float →
      (Expr.intrinsic "log" [a] .float).Registered ∧
        (Expr.intrinsic "log" [a] .float).type = .float := fun ha =>
    ⟨Expr.registered_intrinsic [.float] (by simp [ha]) (by simp [ha]) (by decide), rfl⟩
  cases interpolation with
  | linear => exact hbinary (by simp) (hbinary (by simp) hvalue hd₀) (hbinary (by simp) hd₁ hd₀)
  | log =>
    exact hbinary (by simp) (hlog (hbinary (by simp) hvalue hd₀)) (hlog (hbinary (by simp) hd₁ hd₀))

/-- The type that a scale interpolates in, if it does. -/
def range? : Scale δ → Option ValueType
  | continuous _ t _ _ => some t
  | intrinsic _ | custom .. => none

end Scale

namespace Scaling

mutual

/-- Interpolation is between values that can be mixed, and by numbers. -/
def Interpolates : Scaling δ → Prop
  | apply scale _ _ args =>
    (∀ t ∈ scale.range?, t ∈ Catalog.mixable) ∧ ArgsInterpolate scale.range?.isSome args

def ArgsInterpolate (byNumber : Bool) : List (ScaleArgument δ) → Prop
  | [] => True
  | .value _ :: args => ArgsInterpolate byNumber args
  | .scaling s :: args =>
    (byNumber = true → s.returns = .float) ∧ s.Interpolates ∧ ArgsInterpolate byNumber args

end

variable {s : Scaling δ} {given : Dictionary Expr} {e : Expr}
variable {args : List (ScaleArgument δ)}

theorem argsInterpolate_iff {byNumber : Bool} :
    ArgsInterpolate byNumber args ↔
      ∀ s, .scaling s ∈ args → (byNumber = true → s.returns = .float) ∧ s.Interpolates := by
  induction args with
  | nil => simp [ArgsInterpolate]
  | cons arg args ih => cases arg <;> simp [ArgsInterpolate, ih, and_assoc]

/-- A scale has parameters and arguments that call intrinsics of the catalog if the scalings among
the arguments do. -/
theorem registered_apply {scale : Scale δ} {t : ValueType} {types : List ValueType}
    (ih : ∀ s, .scaling s ∈ args → ∀ given e, (∀ t ∈ s.customized, t = .float) → s.Interpolates →
      (∀ g ∈ given, g.2.Registered) → GivenTyped given s.parameters → s.expression given = .ok e →
      e.Registered)
    (hcustom : ∀ u ∈ (apply scale t types args).customized, u = .float)
    (hmixed : (apply scale t types args).Interpolates) (hgiven : ∀ g ∈ given, g.2.Registered)
    (htyped : GivenTyped given (apply scale t types args).parameters)
    (h : (apply scale t types args).expression given = .ok e) :
    ∃ own values, scale.expression own values = .ok e ∧ GivenTyped own scale.parameters ∧
      (∀ g ∈ own, g.2.Registered) ∧ (∀ e ∈ values, e.Registered) ∧
      GivenTyped given (argParameters 0 types args) ∧ argExpressions given 0 args = .ok values := by
  obtain ⟨own, values, hown, hvalues, h⟩ := expression_ok h
  rw [parameters] at htyped
  obtain ⟨htypedOwn, htypedArgs⟩ := forall_mem_append.mp htyped
  refine ⟨own, values, h, GivenTyped.select htypedOwn hown, Scale.forall_of_select hgiven hown,
    fun e he => ?_, htypedArgs, hvalues⟩
  rw [customized] at hcustom
  rw [Interpolates] at hmixed
  cases mem_argExpressions htypedArgs hvalues he with
  | value hk htype => exact hgiven _ hk
  | @scaling s owner inner hs hinner htyped he =>
    exact ih s hs inner e (fun t ht => hcustom t ((argsCustomized_subset hs).1 ht))
      (argsInterpolate_iff.mp hmixed.2 s hs).2 (Scale.forall_of_select hgiven hinner) htyped he

/-- A scaled value calls intrinsics as the catalog has them, if custom scales are applied to numbers
and interpolation is between values that can be mixed. -/
theorem Built.registered (hs : s.Built) (hcustom : ∀ t ∈ s.customized, t = .float)
    (hmixed : s.Interpolates) (hgiven : ∀ g ∈ given, g.2.Registered)
    (htyped : GivenTyped given s.parameters) (h : s.expression given = .ok e) : e.Registered := by
  induction hs generalizing given e with
  | @continuous interpolation t domain range arg harg ih =>
    rw [Scaling.continuous] at hcustom hmixed htyped h
    obtain ⟨own, values, h, hownTyped, hown, hregistered, htypedArgs, hvalues⟩ := registered_apply
      (fun s hs _ _ => ih s (mem_singleton.mp hs).symm) hcustom hmixed hgiven htyped h
    obtain ⟨value, d₀, d₁, r₀, r₁, hvalue, hd₀, hd₁, hr₀, hr₁, rfl⟩ := Scale.continuous_ok h
    rw [Interpolates] at hmixed
    rw [customized] at hcustom
    have hnumber : value.type = .float := by
      cases mem_argExpressions htypedArgs hvalues (Scale.argument_mem hvalue) with
      | value hk htype => exact htype (forall_mem_singleton.mpr rfl)
      | @scaling s owner inner hs hinner htyped he =>
        rw [(harg s (mem_singleton.mp hs).symm).expression_type
          (fun t ht => hcustom t ((argsCustomized_subset hs).1 ht)) htyped he]
        exact (argsInterpolate_iff.mp hmixed.2 s hs).1 rfl
    have hfound : ∀ {k : String} {g : Expr} (u : ValueType) (source : Source δ), own.find k = .ok g →
        ⟨k, u, source⟩ ∈ (Scale.continuous interpolation t domain range).parameters →
        g.Registered ∧ g.type = u := fun u source hg hp =>
      ⟨hown _ (mem_of_find hg), hownTyped _ hp _ (Scale.get?_of_find hg)⟩
    have h₀ := hfound t range.1 hr₀ (by simp [Scale.parameters])
    have h₁ := hfound t range.2 hr₁ (by simp [Scale.parameters])
    have hposition := Scale.registered_position
      ⟨hregistered value (Scale.argument_mem hvalue), hnumber⟩
      (hfound .float domain.1 hd₀ (by simp [Scale.parameters]))
      (hfound .float domain.2 hd₁ (by simp [Scale.parameters])) interpolation
    exact Expr.registered_intrinsic [t, t, .float] (by simp [h₀, h₁, hposition])
      (by simp [h₀, h₁, hposition]) (Catalog.mix_of_mixable t (hmixed.1 t rfl))
  | call hargs hcall ih =>
    obtain ⟨f, hf, rfl⟩ := call_ok hcall
    obtain ⟨own, values, h, -, -, hregistered, -⟩ :=
      registered_apply (fun s hs _ _ => ih s hs) hcustom hmixed hgiven htyped h
    rw [Scale.expression] at h
    obtain ⟨args, hargs, h⟩ := bind_ok.mp h
    cases h
    obtain ⟨hparams, hall⟩ := Scale.convert_ok Standalone.inherits_registered hregistered hargs
    exact Expr.registered_call hf hparams hall
  | @custom body ps arg s harg hs ih =>
    obtain ⟨e₀, -, rfl⟩ := custom_ok hs
    obtain ⟨own, values, h, -, hown, hregistered, -⟩ := registered_apply
      (fun s hs _ _ => ih s (mem_singleton.mp hs).symm) hcustom hmixed hgiven htyped h
    exact Scale.forall_of_custom Standalone.inherits_registered hown hregistered h

/-- A scaled value has the type that its scaling promises, if what stands for parameters has their
types and custom scales are applied to numbers. If moreover interpolation is between values that
can be mixed and by numbers, then all its calls are of intrinsics, with arguments of just the types
of the parameters. -/
theorem Built.expression_promised (hs : s.Built) (hcustom : ∀ t ∈ s.customized, t = .float)
    (hgiven : ∀ g ∈ given, g.2.Registered) (htyped : GivenTyped given s.parameters)
    (h : s.expression given = .ok e) : e.type = s.returns ∧ (s.Interpolates → e.Registered) :=
  ⟨hs.expression_type hcustom htyped h, fun hmixed => hs.registered hcustom hmixed hgiven htyped h⟩

/-- Variables that are called like the parameters have the types of these, and call nothing. -/
theorem standIns_fit (h : (s.parameters.map Parameter.name).Nodup) :
    GivenTyped s.standIns s.parameters ∧ ∀ g ∈ s.standIns, g.2.Registered := by
  have hmem : ∀ {g}, g ∈ s.standIns → ∃ p ∈ s.parameters, (p.name, .var p.type p.name) = g :=
    fun hg => mem_map.mp (mem_of_mem_ofEntries hg)
  refine ⟨fun p hp e he => ?_, fun g hg => ?_⟩
  · obtain ⟨q, hq, heq⟩ := hmem (mem_of_get? he)
    obtain ⟨hname, rfl⟩ := Prod.mk.inj heq
    rw [inj_on_of_nodup_map h hq hp hname]
    rfl
  · obtain ⟨p, -, rfl⟩ := hmem hg
    trivial

theorem Built.expression_promised_stretched : ∃ e,
    Mark.stretched.expression Mark.stretched.standIns = .ok e ∧ e.type = .float ∧ e.Registered := by
  obtain ⟨e, he⟩ : ∃ e, Mark.stretched.expression Mark.stretched.standIns = .ok e := ⟨_, rfl⟩
  obtain ⟨htyped, hgiven⟩ := standIns_fit (s := Mark.stretched) (by decide)
  obtain ⟨htype, hregistered⟩ :=
    expression_promised Mark.stretched_built (by decide) hgiven htyped he
  refine ⟨e, he, htype, hregistered ?_⟩
  simp [Mark.stretched, Mark.position, Interpolates, ArgsInterpolate, Scaling.continuous,
    Scale.range?]
  decide

/-- The value of a scaling is a call that is not in the catalog. -/
def Unregistered (s : Scaling Unit) : Prop :=
  ∃ e, s.expression s.standIns = .ok e ∧ ¬ e.Registered

/-- The promised type of a custom scale is wrong for a vector, and a continuous scale makes calls that
there are none of, from a vector or between integers. -/
theorem expression_unpromised : ∃ pair doubled : Scaling Unit,
    Scaling.vector2 (.value (.number 1)) (.value (.number 2)) = .ok pair ∧
    Scaling.custom (.binary default .mul (.name default "value") (.literal default .float (.scalar 2)))
      [] (.scaling pair) = .ok doubled ∧
    (∃ e, doubled.expression doubled.standIns = .ok e ∧ doubled.returns = .float ∧
      e.type = .vector2) ∧
    Unregistered (.continuous .linear .float unitDomain (unitRange .float) (.scaling pair)) ∧
    Unregistered (.continuous .linear .int unitDomain (unitRange .int) (.value (.number 1))) := by
  refine ⟨_, _, rfl, rfl, ⟨_, rfl, rfl, rfl⟩, ⟨_, rfl, ?_⟩, _, rfl, ?_⟩
  · exact Expr.not_registered_call (by decide +kernel)
  · exact Expr.not_registered_call (by decide +kernel)

end Scaling

end DataMarks
