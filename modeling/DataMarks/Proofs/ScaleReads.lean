/-
  What scaled values depend on.

  The expression of a scaling reads no variables but those of the expressions that
  stand for its parameters (`Scaling.expression_readsOnly`), at any depth of scalings
  in scalings, and so does an expression in names that stand for others. What is kept by
  constants, fields and calls carries over from what stands for the names to such an
  expression (`Standalone.expr_related`).
-/
import DataMarks.Scale
import DataMarks.Proofs.Accounts
import DataMarks.Proofs.Entries
import DataMarks.Proofs.Run

namespace DataMarks

open Dictionary List DataMarks.Expr

variable {δ : Type} {P : String × ValueType → Prop}
variable {t : ValueType}

namespace Expr

/-- All variables of an expression, with the types they are read at, are such. -/
def ReadsOnly (P : String × ValueType → Prop) (e : Expr) : Prop := ∀ r ∈ e.reads, P r

theorem readsOnly_const (t : ValueType) (v : Value) : (const t v).ReadsOnly P := by
  intro r hr
  rw [reads] at hr
  cases hr

theorem readsOnly_call {f : String} {args : List Expr} (h : ∀ e ∈ args, e.ReadsOnly P) :
    (call t f args).ReadsOnly P := by
  intro r hr
  rw [reads] at hr
  obtain ⟨e, he, hr⟩ := mem_readsAll_iff.mp hr
  exact h e he r hr

theorem readsOnly_field {e : Expr} {f : String} (h : e.ReadsOnly P) :
    (field t e f).ReadsOnly P := by
  intro r hr
  rw [reads] at hr
  exact h r hr

end Expr

/-! ## Names that stand for expressions -/

namespace Standalone

/-- Relations that hold of what is built alike from related expressions. -/
structure Congruence (R : Expr → Expr → Prop) : Prop extends Overload.Respects R where
  const : ∀ t v, R (.const t v) (.const t v)
  field : ∀ {e e'} t f, R e e' → R (.field t e f) (.field t e' f)
  call : ∀ {args args'} {i : Intrinsic}, i ∈ Catalog.intrinsics → i.params = args.map Expr.type →
    Forall₂ R args args' → R (.call i.returns i.internalName args)
      (.call i.returns i.internalName args')

section

variable {R : Expr → Expr → Prop} (hR : Congruence R) {span : Span} {f : String} {e : Expr}
include hR

theorem access_related {base base' : Expr} (hbase : R base base')
    (h : base.access span f = .ok e) : ∃ e', base'.access span f = .ok e' ∧ R e e' := by
  unfold access at h ⊢
  rw [← hR.type hbase]
  split at h
  · cases h
    exact ⟨_, rfl, hR.field _ _ hbase⟩
  · cases h

theorem call_related {args args' : Arguments} (hargs : Overload.Related R args args')
    (h : call span f args = .ok e) : ∃ e', call span f args' = .ok e' ∧ R e e' := by
  unfold call at h ⊢
  dsimp only at h ⊢
  split at h
  · cases h
  · rename_i i fit hresolve
    cases h
    obtain ⟨fit', hresolve', hfit⟩ := Resolver.resolve_related hR.toRespects
      (fun _ _ _ _ t _ v _ => hR.const t v) hargs hresolve
    obtain ⟨hcandidate, hbind⟩ := Resolver.resolve_ok hresolve
    rw [hresolve']
    exact ⟨_, rfl, hR.call (Resolver.wellFormed_of_mem_candidates (forall_mem_nil _) hcandidate)
      (Overload.types_of_bind_intrinsic hbind) hfit.args⟩
  · cases h

variable {given given' : Dictionary Expr}
  (hgiven : ∀ x, Option.Rel R (given.get? x) (given'.get? x))
include hgiven

theorem reference_related {x : String} (h : reference given span x = .ok e) :
    ∃ e', reference given' span x = .ok e' ∧ R e e' := by
  have hx := hgiven x
  unfold reference at h ⊢
  generalize given.get? x = g at hx h
  generalize given'.get? x = g' at hx ⊢
  cases hx with
  | some hg =>
    cases h
    exact ⟨_, rfl, hg⟩
  | none =>
    cases hc : Catalog.constant? x with
    | none =>
      rw [hc] at h
      cases h
    | some c =>
      rw [hc] at h
      cases h
      exact ⟨_, rfl, hR.const _ _⟩

-- Some members only pass hypotheses on.
set_option linter.unusedSectionVars false in
mutual

/-- An expression is related to itself where related expressions stand for its names. -/
theorem expr_related : ∀ {s : Surface.Expr} {e : Expr}, expr given s = .ok e →
    ∃ e', expr given' s = .ok e' ∧ R e e'
  | .literal _ t v, e, h => by
    rw [expr] at h ⊢
    cases h
    exact ⟨_, rfl, hR.const t v⟩
  | .name span x, e, h => by
    rw [expr] at h ⊢
    exact reference_related hR hgiven h
  | .field span base f, e, h => by
    rw [expr] at h ⊢
    obtain ⟨b, hb, h⟩ := bind_ok.mp h
    obtain ⟨b', hb', hbase⟩ := expr_related hb
    rw [hb']
    exact access_related hR hbase h
  | .call span f args keywords, e, h => by
    rw [expr] at h ⊢
    obtain ⟨ps, hps, h⟩ := bind_ok.mp h
    obtain ⟨ks, hks, h⟩ := bind_ok.mp h
    obtain ⟨ps', hps', hpositional⟩ := exprs_related hps
    obtain ⟨ks', hks', hkeywords⟩ := keywordExprs_related hks
    rw [hps', hks']
    exact call_related hR ⟨hpositional, hkeywords⟩ h
  | .unary span op arg, e, h => by
    rw [expr] at h ⊢
    obtain ⟨a, ha, h⟩ := bind_ok.mp h
    obtain ⟨a', ha', harg⟩ := expr_related ha
    rw [ha']
    exact call_related hR ⟨.cons harg .nil, .nil⟩ h
  | .binary span op lhs rhs, e, h => by
    rw [expr] at h ⊢
    obtain ⟨l, hl, h⟩ := bind_ok.mp h
    obtain ⟨r, hr, h⟩ := bind_ok.mp h
    obtain ⟨l', hl', hlhs⟩ := expr_related hl
    obtain ⟨r', hr', hrhs⟩ := expr_related hr
    rw [hl', hr']
    exact call_related hR ⟨.cons hlhs (.cons hrhs .nil), .nil⟩ h

theorem exprs_related : ∀ {ss : List Surface.Expr} {es : List Expr}, exprs given ss = .ok es →
    ∃ es', exprs given' ss = .ok es' ∧ Forall₂ R es es'
  | [], es, h => by
    rw [exprs] at h ⊢
    cases h
    exact ⟨_, rfl, .nil⟩
  | s :: ss, es, h => by
    rw [exprs] at h ⊢
    obtain ⟨e, he, h⟩ := bind_ok.mp h
    obtain ⟨rest, hrest, h⟩ := bind_ok.mp h
    obtain ⟨e', he', hhead⟩ := expr_related he
    obtain ⟨rest', hrest', htail⟩ := exprs_related hrest
    cases h
    rw [he', hrest']
    exact ⟨_, rfl, .cons hhead htail⟩

theorem keywordExprs_related : ∀ {ss : List (String × Surface.Expr)} {ks : List (String × Expr)},
    keywordExprs given ss = .ok ks → ∃ ks', keywordExprs given' ss = .ok ks' ∧
      Forall₂ (fun a b => a.1 = b.1 ∧ R a.2 b.2) ks ks'
  | [], ks, h => by
    rw [keywordExprs] at h ⊢
    cases h
    exact ⟨_, rfl, .nil⟩
  | (k, s) :: ss, ks, h => by
    rw [keywordExprs] at h ⊢
    obtain ⟨e, he, h⟩ := bind_ok.mp h
    obtain ⟨rest, hrest, h⟩ := bind_ok.mp h
    obtain ⟨e', he', hhead⟩ := expr_related he
    obtain ⟨rest', hrest', htail⟩ := keywordExprs_related hrest
    cases h
    rw [he', hrest']
    exact ⟨_, rfl, .cons ⟨rfl, hhead⟩ htail⟩

end

end

/-- Properties that what is built of expressions has from these. -/
structure Inherits (W : Expr → Prop) : Prop where
  coerce : ∀ {e e' t rank}, e.coerce? t = some (e', rank) → W e → W e'
  const : ∀ t v, W (.const t v)
  field : ∀ {e} t f, W e → W (.field t e f)
  call : ∀ {args} {i : Intrinsic}, i ∈ Catalog.intrinsics → i.params = args.map Expr.type →
    (∀ e ∈ args, W e) → W (.call i.returns i.internalName args)

variable {W : Expr → Prop}

theorem Inherits.congruence (h : Inherits W) :
    Congruence fun e e' => W e ∧ e = e' where
  type := fun h => by rw [h.2]
  coerce := by
    rintro e _ t ⟨he, rfl⟩
    cases hc : e.coerce? t with
    | none => exact .none
    | some c => exact .some ⟨⟨h.coerce hc he, rfl⟩, rfl⟩
  const t v := ⟨h.const t v, rfl⟩
  field t f he := ⟨h.field t f he.1, by rw [he.2]⟩
  call hi hparams hargs := by
    obtain ⟨hall, heq⟩ := (forall₂_and_left _ _).mp hargs
    rw [forall₂_eq_eq_eq] at heq
    exact ⟨h.call hi hparams hall, by rw [heq]⟩

/-- An expression has what the expressions behind its names have. -/
theorem Inherits.expr (h : Inherits W) {given : Dictionary Expr} (hgiven : ∀ g ∈ given, W g.2)
    {s : Surface.Expr} {e : Expr} (he : expr given s = .ok e) : W e := by
  have hself : ∀ x, Option.Rel (fun e e' => W e ∧ e = e') (given.get? x) (given.get? x) := by
    intro x
    cases hx : given.get? x with
    | none => exact .none
    | some g => exact .some ⟨hgiven _ (mem_of_get? hx), rfl⟩
  obtain ⟨_, -, hW, -⟩ := expr_related h.congruence hself he
  exact hW

theorem inherits_readsOnly : Inherits (Expr.ReadsOnly P) where
  coerce hc h := by
    rw [Expr.ReadsOnly, reads_of_coerce? hc]
    exact h
  const := readsOnly_const
  field _ _ := readsOnly_field
  call _ _ := readsOnly_call

end Standalone

/-! ## Scales -/

theorem Dictionary.mem_of_find {α : Type} {d : Dictionary α} {k : String} {a : α}
    (h : d.find k = .ok a) : (k, a) ∈ d := by
  rw [Dictionary.find] at h
  split at h
  · rename_i hget
    cases h
    exact mem_of_get? hget
  · cases h

/-- What each step gives, a list of steps gives. -/
theorem forall_of_mapM {ε α β : Type} {f : α → Except ε β} {Q : β → Prop} {as : List α}
    {bs : List β} (hf : ∀ a b, f a = .ok b → Q b) (h : as.mapM f = .ok bs) : ∀ b ∈ bs, Q b := by
  induction as generalizing bs with
  | nil =>
    cases h
    exact fun _ hb => by cases hb
  | cons a as ih =>
    rw [mapM_cons] at h
    obtain ⟨b, hb, h⟩ := bind_ok.mp h
    obtain ⟨rest, hrest, h⟩ := bind_ok.mp h
    cases h
    exact forall_mem_cons.mpr ⟨hf a b hb, ih hrest⟩

namespace Scale

variable {given own : Dictionary Expr} {values : List Expr} {e : Expr}

variable {W : Expr → Prop} {i : Nat} {body : Surface.Expr}

theorem forall_of_select {owner : String} {parameters : List (Parameter δ)}
    (hgiven : ∀ g ∈ given, W g.2) (h : select given owner parameters = .ok own) :
    ∀ g ∈ own, W g.2 := by
  rw [select] at h
  obtain ⟨es, hes, h⟩ := bind_ok.mp h
  cases h
  intro g hg
  refine forall_of_mapM (Q := fun g => W g.2) ?_ hes g (mem_of_mem_ofEntries hg)
  intro p b hb
  obtain ⟨e, he, hb⟩ := bind_ok.mp hb
  cases hb
  exact hgiven (owner ++ p.name, e) (mem_of_find he)

theorem argument_mem (h : argument values i = .ok e) : e ∈ values := by
  rw [argument] at h
  split at h
  · rename_i hget
    cases h
    exact mem_of_getElem? hget
  · cases h

/-- Converted arguments have the types asked for, and what conversions leave to them. -/
theorem convert_ok (hW : Standalone.Inherits W) {ts : List ValueType} {args : List Expr}
    (hvalues : ∀ e ∈ values, W e) (h : convert values i ts = .ok args) :
    ts = args.map type ∧ ∀ e ∈ args, W e := by
  induction ts generalizing i args with
  | nil =>
    rw [convert] at h
    cases h
    exact ⟨rfl, forall_mem_nil _⟩
  | cons t ts ih =>
    rw [convert] at h
    obtain ⟨arg, harg, h⟩ := bind_ok.mp h
    split at h
    · cases h
    · rename_i arg' rank hcoerce
      obtain ⟨rest, hrest, h⟩ := bind_ok.mp h
      cases h
      obtain ⟨htypes, hall⟩ := ih hrest
      refine ⟨?_, forall_mem_cons.mpr ⟨hW.coerce hcoerce (hvalues arg (argument_mem harg)), hall⟩⟩
      rw [map_cons, type_of_coerce? hcoerce, ← htypes]

theorem continuous_ok {interpolation : Interpolation} {domain range : Source δ × Source δ}
    (h : (continuous interpolation t domain range).expression own values = .ok e) :
    ∃ value d₀ d₁ r₀ r₁, argument values 0 = .ok value ∧ own.find "d0" = .ok d₀ ∧
      own.find "d1" = .ok d₁ ∧ own.find "r0" = .ok r₀ ∧ own.find "r1" = .ok r₁ ∧
      e = .intrinsic "mix" [r₀, r₁, position value d₀ d₁ interpolation] t := by
  rw [expression] at h
  obtain ⟨value, hvalue, h⟩ := bind_ok.mp h
  obtain ⟨d₀, hd₀, h⟩ := bind_ok.mp h
  obtain ⟨d₁, hd₁, h⟩ := bind_ok.mp h
  obtain ⟨r₀, hr₀, h⟩ := bind_ok.mp h
  obtain ⟨r₁, hr₁, h⟩ := bind_ok.mp h
  cases h
  exact ⟨value, d₀, d₁, r₀, r₁, hvalue, hd₀, hd₁, hr₀, hr₁, rfl⟩

variable {parameters : Dictionary (Source δ)}

theorem custom_ok (h : (custom body parameters).expression own values = .ok e) :
    ∃ value, argument values 0 = .ok value ∧
      Standalone.expr (own.insert "value" value) body = .ok e := by
  rw [expression] at h
  obtain ⟨value, hvalue, h⟩ := bind_ok.mp h
  cases hbody : Standalone.expr (own.insert "value" value) body with
  | error err =>
    rw [hbody] at h
    cases h
  | ok e' =>
    rw [hbody] at h
    cases h
    exact ⟨value, hvalue, hbody⟩

theorem position_readsOnly {value d₀ d₁ : Expr} (hvalue : value.ReadsOnly P)
    (hd₀ : d₀.ReadsOnly P) (hd₁ : d₁.ReadsOnly P) (interpolation : Interpolation) :
    (position value d₀ d₁ interpolation).ReadsOnly P := by
  have hbinary : ∀ {op : String} {a b : Expr}, a.ReadsOnly P → b.ReadsOnly P →
      (Expr.binary op a b).ReadsOnly P := fun ha hb =>
    Expr.readsOnly_call (forall_mem_cons.mpr ⟨ha, forall_mem_singleton.mpr hb⟩)
  have hlog : ∀ {a : Expr}, a.ReadsOnly P → (Expr.intrinsic "log" [a] .float).ReadsOnly P :=
    fun ha => Expr.readsOnly_call (forall_mem_singleton.mpr ha)
  cases interpolation with
  | linear => exact hbinary (hbinary hvalue hd₀) (hbinary hd₁ hd₀)
  | log => exact hbinary (hlog (hbinary hvalue hd₀)) (hlog (hbinary hd₁ hd₀))

/-- The value of a custom scale has what its parameters and its argument have. -/
theorem forall_of_custom (hW : Standalone.Inherits W) (hown : ∀ g ∈ own, W g.2)
    (hvalues : ∀ e ∈ values, W e) (h : (custom body parameters).expression own values = .ok e) :
    W e := by
  obtain ⟨value, hvalue, hbody⟩ := custom_ok h
  refine hW.expr (fun g hg => ?_) hbody
  obtain rfl | hg := eq_or_mem_of_mem_insert hg
  · exact hvalues value (argument_mem hvalue)
  · exact hown g hg

/-- A scaled value reads what the parameters of the scale and its arguments read. -/
theorem expression_readsOnly {scale : Scale δ} (hown : ∀ g ∈ own, g.2.ReadsOnly P)
    (hvalues : ∀ e ∈ values, e.ReadsOnly P) (h : scale.expression own values = .ok e) :
    e.ReadsOnly P := by
  cases scale with
  | continuous interpolation t domain range =>
    obtain ⟨value, d₀, d₁, r₀, r₁, hvalue, hd₀, hd₁, hr₀, hr₁, rfl⟩ := continuous_ok h
    have hfound : ∀ {k : String} {g : Expr}, own.find k = .ok g → g.ReadsOnly P :=
      fun hg => hown _ (mem_of_find hg)
    have hposition := position_readsOnly (hvalues value (argument_mem hvalue)) (hfound hd₀)
      (hfound hd₁) interpolation
    exact readsOnly_call (forall_mem_cons.mpr ⟨hfound hr₀,
      forall_mem_cons.mpr ⟨hfound hr₁, forall_mem_singleton.mpr hposition⟩⟩)
  | intrinsic f =>
    rw [expression] at h
    obtain ⟨args, hargs, h⟩ := bind_ok.mp h
    cases h
    exact readsOnly_call (convert_ok Standalone.inherits_readsOnly hvalues hargs).2
  | custom body parameters => exact forall_of_custom Standalone.inherits_readsOnly hown hvalues h

end Scale

namespace Scaling

mutual

/-- The value of a scaling reads what stands for its parameters. -/
theorem expression_readsOnly : ∀ {s : Scaling δ} {given : Dictionary Expr} {e : Expr},
    (∀ g ∈ given, g.2.ReadsOnly P) → s.expression given = .ok e → e.ReadsOnly P
  | apply scale _ _ args, given, e, hgiven, h => by
    rw [expression] at h
    obtain ⟨own, hown, h⟩ := bind_ok.mp h
    obtain ⟨values, hvalues, h⟩ := bind_ok.mp h
    exact Scale.expression_readsOnly (Scale.forall_of_select hgiven hown)
      (argExpressions_readsOnly hgiven hvalues) h

theorem argExpressions_readsOnly : ∀ {args : List (ScaleArgument δ)} {given : Dictionary Expr}
    {i : Nat} {es : List Expr}, (∀ g ∈ given, g.2.ReadsOnly P) →
    argExpressions given i args = .ok es → ∀ e ∈ es, e.ReadsOnly P
  | [], given, i, es, hgiven, h => by
    rw [argExpressions] at h
    cases h
    exact fun _ he => by cases he
  | .value _ :: args, given, i, es, hgiven, h => by
    rw [argExpressions] at h
    obtain ⟨e, he, h⟩ := bind_ok.mp h
    obtain ⟨rest, hrest, h⟩ := bind_ok.mp h
    cases h
    exact forall_mem_cons.mpr ⟨hgiven _ (mem_of_find he), argExpressions_readsOnly hgiven hrest⟩
  | .scaling s :: args, given, i, es, hgiven, h => by
    rw [argExpressions] at h
    obtain ⟨inner, hinner, h⟩ := bind_ok.mp h
    obtain ⟨e, he, h⟩ := bind_ok.mp h
    obtain ⟨rest, hrest, h⟩ := bind_ok.mp h
    cases h
    exact forall_mem_cons.mpr
      ⟨expression_readsOnly (Scale.forall_of_select hgiven hinner) he,
        argExpressions_readsOnly hgiven hrest⟩

end

end Scaling

end DataMarks
