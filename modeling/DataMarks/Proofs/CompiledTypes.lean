/-
  Compiled code is well scoped and well typed.

  Expressions come out well typed and read only names that were given out, at the types
  they were given out with; statements keep to that, test truth values only, and emit
  outputs at the types that were noted for them (`Written`). Arguments, conversions and
  defaults enter through overload resolution, which gives each parameter an expression of
  its type. All of it holds for an expanded call if it holds for the calls in its body, and
  so at every depth.
-/
import DataMarks.Proofs.CompileState
import DataMarks.Proofs.LibraryText
import DataMarks.Proofs.Overloads

namespace DataMarks

open Dictionary List Stmt

namespace Stmt

theorem mentionsAll_append (ss ts : List Stmt) :
    mentionsAll (ss ++ ts) = mentionsAll ss ++ mentionsAll ts := by
  induction ss with
  | nil => rw [mentionsAll]; rfl
  | cons s ss ih => rw [cons_append, mentionsAll, mentionsAll, ih, append_assoc]

theorem exprsAll_append (ss ts : List Stmt) :
    exprsAll (ss ++ ts) = exprsAll ss ++ exprsAll ts := by
  induction ss with
  | nil => rw [exprsAll]; rfl
  | cons s ss ih => rw [cons_append, exprsAll, exprsAll, ih, append_assoc]

theorem testsAll_append (ss ts : List Stmt) :
    testsAll (ss ++ ts) = testsAll ss ++ testsAll ts := by
  induction ss with
  | nil => rw [testsAll]; rfl
  | cons s ss ih => rw [cons_append, testsAll, testsAll, ih, append_assoc]

theorem emitsAll_append (ss ts : List Stmt) :
    emitsAll (ss ++ ts) = emitsAll ss ++ emitsAll ts := by
  induction ss with
  | nil => rw [emitsAll]; rfl
  | cons s ss ih => rw [cons_append, emitsAll, emitsAll, ih, append_assoc]

end Stmt

/-- Literals of a function and defaults of its parameters have values of their types. -/
def Definition.WellFormed (d : Definition) : Prop :=
  d.function.WellFormed ∧ ∀ p ∈ d.function.params, p.Fits

/-! ## Expressions in a state -/

variable {x : String} {e : Expr}

namespace Expr

/-- An expression is well typed and reads given names at their types. -/
def TypedIn (issued : Dictionary ValueType) (e : Expr) : Prop :=
  e.WellTyped ∧ ∀ r ∈ e.reads, issued.get? r.1 = some r.2

variable {issued : Dictionary ValueType} {t : ValueType}

theorem typedIn_const {v : Value} (h : t.accepts v = true) : (const t v).TypedIn issued := by
  refine ⟨h, ?_⟩
  intro r hr
  cases hr

theorem typedIn_var (h : issued.get? x = some t) : (var t x).TypedIn issued := by
  refine ⟨True.intro, ?_⟩
  intro r hr
  rw [reads, mem_singleton] at hr
  rw [hr]
  exact h

theorem TypedIn.coerce {e' : Expr} {rank : Nat} (he : e.TypedIn issued)
    (h : e.coerce? t = some (e', rank)) : e'.TypedIn issued := by
  refine ⟨wellTyped_of_coerce? h he.1, ?_⟩
  rw [reads_of_coerce? h]
  exact he.2

theorem typedIn_call {i : Intrinsic} (hi : i ∈ Catalog.intrinsics) {args : List Expr}
    (hargs : ∀ e ∈ args, e.TypedIn issued) (hparams : i.params = args.map type) :
    (call i.returns i.internalName args).TypedIn issued := by
  have hall : WellTypedAll args ∧ ∀ r ∈ readsAll args, issued.get? r.1 = some r.2 := by
    clear hparams
    induction args with
    | nil => exact ⟨True.intro, fun r hr => by cases hr⟩
    | cons e es ih =>
      obtain ⟨hes, hreads⟩ := ih fun e he => hargs e (mem_cons_of_mem _ he)
      have he := hargs e mem_cons_self
      refine ⟨⟨he.1, hes⟩, fun r hr => ?_⟩
      rw [readsAll] at hr
      rcases mem_append.mp hr with hr | hr
      · exact he.2 r hr
      · exact hreads r hr
  refine ⟨⟨hall.1, i, Catalog.find?_internalName i hi, hparams, rfl⟩, ?_⟩
  rw [reads]
  exact hall.2

end Expr

variable {t : ValueType} {formals : Dictionary String}

namespace Compiler

/-- A state inside a body, whose functions are well formed. -/
structure Ready (s : Compiler) : Prop where
  scope : s.scope.Typed
  inner : s.scope.inner ≠ []
  functions : ∀ d ∈ s.resolver.functions, d.WellFormed

/-- A state that steps inside a body lead to. -/
def Later (s s' : Compiler) : Prop := ∃ new, Step new s s'

variable {s s' : Compiler}

theorem Later.ready (h : Later s s') (hs : s.Ready) : s'.Ready := by
  obtain ⟨new, hstep⟩ := h
  refine ⟨hstep.typed hs.scope, hstep.inner_ne_nil hs.inner, ?_⟩
  rw [hstep.resolver]
  exact hs.functions

theorem Later.typedIn (h : Later s s') (he : e.TypedIn s.scope.issued) :
    e.TypedIn s'.scope.issued := by
  obtain ⟨new, hstep⟩ := h
  exact ⟨he.1, fun r hr => hstep.issued _ _ (he.2 r hr)⟩

theorem Later.trans {s₁ s₂ : Compiler} (h₁ : Later s s₁) (h₂ : Later s₁ s₂) : Later s s₂ := by
  obtain ⟨new₁, hstep₁⟩ := h₁
  obtain ⟨new₂, hstep₂⟩ := h₂
  exact ⟨new₁ ++ new₂, (hstep₁.mono (subset_append_left _ _)).trans
    (hstep₂.mono (subset_append_right _ _))⟩

/-- A type that is noted for an output stays. -/
theorem Later.output (h : Later s s') (hx : (s.outputs.get? x).map Prod.fst = some t) :
    (s'.outputs.get? x).map Prod.fst = some t := by
  obtain ⟨new, hstep⟩ := h
  obtain ⟨o, ho, rfl⟩ := Option.map_eq_some_iff.mp hx
  rw [hstep.outputs x o ho]
  rfl

/-! ## Written code -/

/-- Code written between two states is well typed in the later one, and every output noted since
the earlier one is emitted by the code or is one of the pending ones. -/
structure Written (pending : List String) (s s' : Compiler) (code : List Stmt) : Prop where
  mentions : ∀ m ∈ Stmt.mentionsAll code, s'.scope.issued.get? m.1 = some m.2
  exprs : ∀ e ∈ Stmt.exprsAll code, e.WellTyped
  tests : ∀ e ∈ Stmt.testsAll code, e.type = .bool
  emitted : ∀ attributes ∈ Stmt.emitsAll code, ∀ a ∈ attributes,
    (s'.outputs.get? a.1).map Prod.fst = some a.2.type
  covered : ∀ x ∈ s'.outputs.keys, x ∈ s.outputs.keys ∨ x ∈ pending ∨
    ∃ attributes ∈ Stmt.emitsAll code, x ∈ attributes.keys

namespace Written

variable {pending : List String} {s s₁ s₂ : Compiler} {c c₁ c₂ : List Stmt}

theorem nil (h : s₁.outputs = s.outputs) : Written pending s s₁ [] where
  mentions := fun m hm => by cases hm
  exprs := fun e he => by cases he
  tests := fun e he => by cases he
  emitted := fun a ha => by cases ha
  covered := fun x hx => .inl (h ▸ hx)

theorem mono {pending' : List String} (h : Written pending s s₁ c) (hp : pending ⊆ pending') :
    Written pending' s s₁ c := by
  refine { h with covered := fun x hx => ?_ }
  rcases h.covered x hx with h | h | h
  · exact .inl h
  · exact .inr (.inl (hp h))
  · exact .inr (.inr h)

theorem append (h₁ : Written pending s s₁ c₁) (hlater : Later s₁ s₂)
    (h₂ : Written pending s₁ s₂ c₂) : Written pending s s₂ (c₁ ++ c₂) where
  mentions := by
    rw [mentionsAll_append, forall_mem_append]
    obtain ⟨new, hstep⟩ := hlater
    exact ⟨fun m hm => hstep.issued _ _ (h₁.mentions m hm), h₂.mentions⟩
  exprs := by
    rw [exprsAll_append, forall_mem_append]
    exact ⟨h₁.exprs, h₂.exprs⟩
  tests := by
    rw [testsAll_append, forall_mem_append]
    exact ⟨h₁.tests, h₂.tests⟩
  emitted := by
    rw [emitsAll_append, forall_mem_append]
    exact ⟨fun as ha a hm => hlater.output (h₁.emitted as ha a hm), h₂.emitted⟩
  covered := by
    intro x hx
    rw [emitsAll_append]
    rcases h₂.covered x hx with hx | hx | ⟨as, ha, hx⟩
    · rcases h₁.covered x hx with hx | hx | ⟨as, ha, hx⟩
      · exact .inl hx
      · exact .inr (.inl hx)
      · exact .inr (.inr ⟨as, mem_append_left _ ha, hx⟩)
    · exact .inr (.inl hx)
    · exact .inr (.inr ⟨as, mem_append_right _ ha, hx⟩)

/-- Only names given out, outputs and code count. -/
theorem congr {t t₁ : Compiler} (h : Written pending s s₁ c)
    (hs : t.outputs = s.outputs) (hissued : t₁.scope.issued = s₁.scope.issued)
    (houtputs : t₁.outputs = s₁.outputs) : Written pending t t₁ c :=
  { h with
    mentions := hissued ▸ h.mentions
    emitted := houtputs ▸ h.emitted
    covered := hs ▸ houtputs ▸ h.covered }

theorem assign (he : e.TypedIn s.scope.issued) (hx : s.scope.issued.get? x = some e.type) :
    Written pending s s [.assign x e] where
  mentions := by
    simp only [mentionsAll, Stmt.mentions, append_nil, forall_mem_cons]
    exact ⟨hx, he.2⟩
  exprs := by simpa [exprsAll, Stmt.exprs] using he.1
  tests := by simp [testsAll, Stmt.tests]
  emitted := by simp [emitsAll, Stmt.emits]
  covered := fun x hx => .inl hx

theorem discard : Written pending s s [.discard] where
  mentions := by simp [mentionsAll, Stmt.mentions]
  exprs := by simp [exprsAll, Stmt.exprs]
  tests := by simp [testsAll, Stmt.tests]
  emitted := by simp [emitsAll, Stmt.emits]
  covered := fun x hx => .inl hx

theorem emit {attributes : Dictionary Expr} (h : Written attributes.keys s s₁ c)
    (htyped : ∀ a ∈ attributes, a.2.TypedIn s₁.scope.issued ∧
      (s₁.outputs.get? a.1).map Prod.fst = some a.2.type) :
    Written [] s s₁ (c ++ [.emit attributes]) where
  mentions := by
    rw [mentionsAll_append, forall_mem_append]
    refine ⟨h.mentions, ?_⟩
    simp only [mentionsAll, Stmt.mentions, append_nil, mem_flatMap]
    rintro m ⟨a, ha, hm⟩
    exact (htyped a ha).1.2 m hm
  exprs := by
    rw [exprsAll_append, forall_mem_append]
    refine ⟨h.exprs, ?_⟩
    simp only [exprsAll, Stmt.exprs, append_nil, mem_map]
    rintro e ⟨a, ha, rfl⟩
    exact (htyped a ha).1.1
  tests := by
    rw [testsAll_append, forall_mem_append]
    exact ⟨h.tests, by simp [testsAll, Stmt.tests]⟩
  emitted := by
    rw [emitsAll_append, forall_mem_append]
    refine ⟨h.emitted, ?_⟩
    simp only [emitsAll, Stmt.emits, append_nil, mem_singleton]
    rintro as rfl a ha
    exact (htyped a ha).2
  covered := by
    intro x hx
    rw [emitsAll_append]
    rcases h.covered x hx with hx | hx | ⟨as, ha, hx⟩
    · exact .inl hx
    · refine .inr (.inr ⟨attributes, mem_append_right _ ?_, hx⟩)
      simp [emitsAll, Stmt.emits]
    · exact .inr (.inr ⟨as, mem_append_left _ ha, hx⟩)

theorem condition (he : e.TypedIn s₁.scope.issued) (hbool : e.type = .bool)
    (h : Written pending s s₁ (c₁ ++ c₂)) : Written pending s s₁ [.condition e c₁ c₂] where
  mentions := by
    have hm := h.mentions
    simp only [mentionsAll_append, forall_mem_append] at hm
    simp only [mentionsAll, Stmt.mentions, append_nil, forall_mem_append]
    exact ⟨⟨he.2, hm.1⟩, hm.2⟩
  exprs := by
    have hexprs := h.exprs
    rw [exprsAll_append] at hexprs
    simp only [exprsAll, Stmt.exprs, append_nil, forall_mem_cons]
    exact ⟨he.1, hexprs⟩
  tests := by
    have htests := h.tests
    rw [testsAll_append] at htests
    simp only [testsAll, Stmt.tests, append_nil, forall_mem_cons]
    exact ⟨hbool, htests⟩
  emitted := by
    have hemitted := h.emitted
    rw [emitsAll_append] at hemitted
    simpa only [emitsAll, Stmt.emits, append_nil] using hemitted
  covered := by
    have hcovered := h.covered
    rw [emitsAll_append] at hcovered
    simpa only [emitsAll, Stmt.emits, append_nil] using hcovered

theorem loop {first last : Int} (hx : s₁.scope.issued.get? x = some .int)
    (h : Written pending s s₁ c) : Written pending s s₁ [.loop x first last c] where
  mentions := by
    simp only [mentionsAll, Stmt.mentions, append_nil, forall_mem_cons]
    exact ⟨hx, h.mentions⟩
  exprs := by simpa only [exprsAll, Stmt.exprs, append_nil] using h.exprs
  tests := by simpa only [testsAll, Stmt.tests, append_nil] using h.tests
  emitted := by simpa only [emitsAll, Stmt.emits, append_nil] using h.emitted
  covered := by simpa only [emitsAll, Stmt.emits, append_nil] using h.covered

end Written

/-- Steps inside a body that write well-typed code. -/
structure Compiles (s s' : Compiler) (code : List Stmt) : Prop where
  later : Later s s'
  written : Written [] s s' code

namespace Compiles

variable {s s₁ s₂ : Compiler} {c₁ c₂ : List Stmt}

theorem refl (s : Compiler) : Compiles s s [] := ⟨⟨[], .refl s⟩, .nil rfl⟩

theorem append (h₁ : Compiles s s₁ c₁) (h₂ : Compiles s₁ s₂ c₂) :
    Compiles s s₂ (c₁ ++ c₂) :=
  ⟨h₁.later.trans h₂.later, h₁.written.append h₂.later h₂.written⟩

theorem ready (h : Compiles s s₁ c₁) (hs : s.Ready) : s₁.Ready := h.later.ready hs

theorem pop (h : Compiles (s.push formals) s₁ c₁) : Compiles s s₁.pop c₁ := by
  obtain ⟨new, hstep⟩ := h.later
  exact ⟨⟨[], hstep.pop⟩, h.written.congr rfl rfl rfl⟩

end Compiles

theorem Ready.push (hs : s.Ready) (formals : Dictionary String) :
    Ready (s.push formals) where
  scope := hs.scope.push formals
  inner := cons_ne_nil _ _
  functions := hs.functions

end Compiler

/-! ## Calls -/

/-- An intrinsic of the catalog, or a well-formed function. -/
def Callee.WellFormed : Callee → Prop
  | intrinsic i => i ∈ Catalog.intrinsics
  | defined d => d.WellFormed

variable {name : String}

theorem Library.wellFormed_of_mem_functions {m : String} {f : Surface.Function}
    (h : f ∈ Library.functions m name) : Definition.WellFormed ⟨some m, f⟩ := by
  unfold Library.functions at h
  split at h
  · rename_i found hfound
    have hf : f ∈ found.functions := (mem_filter.mp h).1
    rw [Library.module?] at hfound
    exact wellFormed_of_mem (mem_of_find?_eq_some hfound) hf
  · cases h

variable {args : Arguments}

namespace Resolver

variable {r : Resolver} {name : String} {c : Callee}

theorem wellFormed_of_mem_candidates (hr : ∀ d ∈ r.functions, d.WellFormed)
    (h : c ∈ r.candidates name) : c.WellFormed := by
  have hmembers : ∀ m, ∀ c ∈ members name m, c.WellFormed := by
    intro m c hc
    unfold members at hc
    split at hc
    · cases hc
    · obtain ⟨f, hf, rfl⟩ := mem_map.mp hc
      exact Library.wellFormed_of_mem_functions hf
  have hshadowing : ∀ ms, ∀ c ∈ shadowing name ms, c.WellFormed := by
    intro ms
    induction ms with
    | nil =>
      intro c hc
      cases hc
    | cons m ms ih =>
      intro c hc
      unfold shadowing at hc
      split at hc
      · exact ih c hc
      · exact hmembers m c hc
  unfold candidates at h
  split at h
  · rcases mem_append.mp h with h | h
    · obtain ⟨i, hi, rfl⟩ := mem_map.mp h
      exact (mem_filter.mp hi).1
    · obtain ⟨d, hd, rfl⟩ := mem_map.mp h
      exact hr d (mem_filter.mp hd).1
  · exact hshadowing _ c h

/-- What conversions keep and what holds of arguments and defaults holds of the expressions that
parameters get. -/
theorem forall_of_resolve {P : Expr → Prop}
    (hcoerce : ∀ e e' t rank, e.coerce? t = some (e', rank) → P e → P e') {fit : Fit}
    (h : r.resolve name args = .ok (c, fit))
    (hdefaults : ∀ f ∈ c.formals, ∀ t, f.type = some t → ∀ v ∈ f.default, P (.const t v))
    (hpositional : ∀ e ∈ args.positional, P e) (hkeywords : ∀ k ∈ args.keywords, P k.2) :
    ∀ e ∈ fit.args, P e := by
  let R : Expr → Expr → Prop := fun e e' => e' = e ∧ P e
  have hR : Overload.Respects R := by
    constructor
    · rintro e e' ⟨rfl, -⟩
      rfl
    · rintro e e' t ⟨rfl, he⟩
      cases hcoerced : e'.coerce? t with
      | none => exact .none
      | some r => exact .some ⟨⟨rfl, hcoerce e' _ t _ hcoerced he⟩, rfl⟩
  have hargs : Overload.Related R args args := by
    refine ⟨forall₂_same.mpr fun e he => ⟨rfl, hpositional e he⟩, ?_⟩
    exact forall₂_same.mpr fun k hk => ⟨rfl, rfl, hkeywords k hk⟩
  have hrel := Overload.bind_related hR
    (fun f hf t ht v hv => ⟨rfl, hdefaults f hf t ht v hv⟩) hargs
  rw [(resolve_ok h).2] at hrel
  cases hrel with
  | some hfit => exact fun e he => (forall₂_same.mp hfit.args e he).2

/-- Resolution gives a well-formed callee and, for well-typed arguments, well-typed expressions for
its parameters. -/
theorem resolve_typedIn (hr : ∀ d ∈ r.functions, d.WellFormed) {issued : Dictionary ValueType}
    (hpositional : ∀ e ∈ args.positional, e.TypedIn issued)
    (hkeywords : ∀ k ∈ args.keywords, k.2.TypedIn issued) {fit : Fit}
    (h : r.resolve name args = .ok (c, fit)) : c.WellFormed ∧ ∀ e ∈ fit.args, e.TypedIn issued := by
  have hc := wellFormed_of_mem_candidates hr (resolve_ok h).1
  refine ⟨hc, forall_of_resolve (fun e e' t rank hcoerced he => he.coerce hcoerced) h ?_
    hpositional hkeywords⟩
  intro f hf t ht v hv
  refine Expr.typedIn_const ?_
  cases c with
  | intrinsic i =>
    obtain ⟨u, -, rfl⟩ := mem_map.mp hf
    cases hv
  | defined d =>
    obtain ⟨p, hp, rfl⟩ := mem_map.mp hf
    exact hc.2 p hp t ht v hv

end Resolver

namespace Compile

open Compiler (Ready Later Written Compiles)

/-- Calls are expanded to well-typed code and values. -/
structure Expander.Typed (expand : Expander) : Prop where
  advancing : expand.Advancing
  typed : ∀ {span d args s r s' code}, s.Ready → d.WellFormed →
    (∀ e ∈ args, e.TypedIn s.scope.issued) → Runs (expand span d args) s r s' code →
    Compiles s s' code ∧ ∀ e ∈ r, e.TypedIn s'.scope.issued

section Bodies

variable {expand : Expander} (hexpand : expand.Typed)
variable {span : Span} {s s' : Compiler} {code : List Stmt} {x : String}
include hexpand

theorem call_typed {r : Option Expr} (hs : s.Ready)
    (hpositional : ∀ e ∈ args.positional, e.TypedIn s.scope.issued)
    (hkeywords : ∀ k ∈ args.keywords, k.2.TypedIn s.scope.issued)
    (h : Runs (call expand span name args) s r s' code) :
    Compiles s s' code ∧ ∀ e ∈ r, e.TypedIn s'.scope.issued := by
  rcases runs_call h with ⟨i, fit, hresolve, rfl, rfl, rfl⟩ | ⟨d, fit, hresolve, hbody⟩
  · obtain ⟨hi, hargs⟩ :=
      Resolver.resolve_typedIn hs.functions hpositional hkeywords hresolve
    have hparams := Overload.types_of_bind_intrinsic (Resolver.resolve_ok hresolve).2
    refine ⟨.refl s', ?_⟩
    intro e he
    cases he
    exact Expr.typedIn_call hi hargs hparams
  · obtain ⟨hd, hargs⟩ :=
      Resolver.resolve_typedIn hs.functions hpositional hkeywords hresolve
    exact hexpand.typed hs hd hargs hbody

-- Some members only pass hypotheses on.
set_option linter.unusedSectionVars false in
mutual

/-- Expressions compile to well-typed code and well-typed expressions. -/
theorem expr_typed : ∀ {e : Surface.Expr} {s s' : Compiler} {r : Expr} {code : List Stmt},
    e.WellFormed → s.Ready → Runs (expr expand e) s r s' code →
    Compiles s s' code ∧ r.TypedIn s'.scope.issued
  | .literal span t v, s, s', r, code, he, _, h => by
    rw [expr] at h
    obtain ⟨rfl, rfl, rfl⟩ := runs_pure_iff.mp h
    exact ⟨.refl s', Expr.typedIn_const he⟩
  | .name span x, s, s', r, code, _, hs, h => by
    obtain ⟨rfl, rfl, ⟨c, hc, rfl⟩ | ⟨-, v, hv, rfl⟩⟩ := runs_expr_name h
    · have hconstants : ∀ c ∈ Catalog.constants, c.type.accepts c.value = true := by decide
      exact ⟨.refl s', Expr.typedIn_const (hconstants c (mem_of_find?_eq_some hc))⟩
    · exact ⟨.refl s', Expr.typedIn_var (hs.scope.get? hv)⟩
  | .field span base f, s, s', r, code, he, hs, h => by
    obtain ⟨b, t, hb, ht, rfl⟩ := runs_expr_field h
    obtain ⟨hcode, htyped⟩ := expr_typed (e := base) he hs hb
    refine ⟨hcode, ⟨htyped.1, ht⟩, ?_⟩
    rw [Expr.reads]
    exact htyped.2
  | .call span name args keywords, s, s', r, code, he, hs, h => by
    obtain ⟨es, s₁, c₁, ks, s₂, c₂, c₃, h₁, h₂, h₃, rfl⟩ := runs_expr_call h
    obtain ⟨hc₁, hes⟩ := exprs_typed he.1 hs h₁
    have hs₁ := hc₁.ready hs
    obtain ⟨hc₂, hks⟩ := keywordExprs_typed he.2 hs₁ h₂
    obtain ⟨hc₃, hr⟩ := call_typed hexpand (hc₂.ready hs₁)
      (fun e he => hc₂.later.typedIn (hes e he)) hks h₃
    exact ⟨hc₁.append (hc₂.append hc₃), hr r rfl⟩
  | .unary span op arg, s, s', r, code, he, hs, h => by
    obtain ⟨e, s₁, c₁, c₂, h₁, h₂, rfl⟩ := runs_expr_unary h
    obtain ⟨hc₁, hete⟩ := expr_typed (e := arg) he hs h₁
    obtain ⟨hc₂, hr⟩ := call_typed hexpand (hc₁.ready hs) (by simpa using hete) (by simp) h₂
    exact ⟨hc₁.append hc₂, hr r rfl⟩
  | .binary span op lhs rhs, s, s', r, code, he, hs, h => by
    obtain ⟨a, s₁, c₁, b, s₂, c₂, c₃, h₁, h₂, h₃, rfl⟩ := runs_expr_binary h
    obtain ⟨hc₁, ha⟩ := expr_typed (e := lhs) he.1 hs h₁
    have hs₁ := hc₁.ready hs
    obtain ⟨hc₂, hb⟩ := expr_typed (e := rhs) he.2 hs₁ h₂
    have hargs : ∀ e ∈ [a, b], e.TypedIn s₂.scope.issued := by
      simpa using ⟨hc₂.later.typedIn ha, hb⟩
    obtain ⟨hc₃, hr⟩ := call_typed hexpand (hc₂.ready hs₁) hargs (by simp) h₃
    exact ⟨hc₁.append (hc₂.append hc₃), hr r rfl⟩

theorem exprs_typed : ∀ {es : List Surface.Expr} {s s' : Compiler} {rs : List Expr}
    {code : List Stmt}, Surface.Expr.WellFormedAll es → s.Ready →
    Runs (exprs expand es) s rs s' code →
    Compiles s s' code ∧ ∀ r ∈ rs, r.TypedIn s'.scope.issued
  | [], s, s', rs, code, _, _, h => by
    rw [exprs] at h
    obtain ⟨rfl, rfl, rfl⟩ := runs_pure_iff.mp h
    exact ⟨.refl s', by simp⟩
  | e :: es, s, s', rs, code, he, hs, h => by
    obtain ⟨a, s₁, c₁, as, c₂, h₁, h₂, rfl, rfl⟩ := runs_exprs_cons h
    obtain ⟨hc₁, ha⟩ := expr_typed he.1 hs h₁
    obtain ⟨hc₂, has⟩ := exprs_typed he.2 (hc₁.ready hs) h₂
    exact ⟨hc₁.append hc₂, forall_mem_cons.mpr ⟨hc₂.later.typedIn ha, has⟩⟩

theorem keywordExprs_typed : ∀ {es : List (String × Surface.Expr)} {s s' : Compiler}
    {rs : List (String × Expr)} {code : List Stmt}, Surface.Expr.WellFormedKeywords es →
    s.Ready → Runs (keywordExprs expand es) s rs s' code →
    Compiles s s' code ∧ ∀ r ∈ rs, r.2.TypedIn s'.scope.issued
  | [], s, s', rs, code, _, _, h => by
    rw [keywordExprs] at h
    obtain ⟨rfl, rfl, rfl⟩ := runs_pure_iff.mp h
    exact ⟨.refl s', by simp⟩
  | (k, e) :: es, s, s', rs, code, he, hs, h => by
    obtain ⟨a, s₁, c₁, as, c₂, h₁, h₂, rfl, rfl⟩ := runs_keywordExprs_cons h
    obtain ⟨hc₁, ha⟩ := expr_typed he.1 hs h₁
    obtain ⟨hc₂, has⟩ := keywordExprs_typed he.2 (hc₁.ready hs) h₂
    exact ⟨hc₁.append hc₂, forall_mem_cons.mpr ⟨hc₂.later.typedIn ha, has⟩⟩

end

/-! ## Statements -/

/-- An attribute has the type noted for its output. -/
def AttributeTyped (s : Compiler) (a : String × Expr) : Prop :=
  a.2.TypedIn s.scope.issued ∧ (s.outputs.get? a.1).map Prod.fst = some a.2.type

omit hexpand in
theorem AttributeTyped.later {a : String × Expr} (h : AttributeTyped s a) (hl : Later s s') :
    AttributeTyped s' a :=
  ⟨hl.typedIn h.1, hl.output h.2⟩

omit hexpand in
theorem recordOutput_typed (hs : s.Ready) (h : Runs (recordOutput span x t) s () s' []) :
    Later s s' ∧ Written [x] s s' [] ∧ (s'.outputs.get? x).map Prod.fst = some t := by
  have hlater : Later s s' := ⟨[], advances_recordOutput span x t s () s' [] hs.inner h⟩
  obtain ⟨-, ⟨rfl, first, hfirst⟩ | ⟨hnone, rfl⟩⟩ := runs_recordOutput h
  · refine ⟨hlater, .nil rfl, ?_⟩
    rw [hfirst]
    rfl
  · have hnil : Written [x] { s with outputs := s.outputs.insert x (t, span) }
        { s with outputs := s.outputs.insert x (t, span) } [] := .nil rfl
    refine ⟨hlater, { hnil with covered := ?_ }, ?_⟩
    · intro y hy
      rw [keys_insert] at hy
      split at hy
      · exact .inl hy
      · rcases mem_append.mp hy with hy | hy
        · exact .inl hy
        · exact .inr (.inl hy)
    · rw [get?_insert_self]
      rfl

theorem attributes_typed {as : List Surface.Attribute} {done r : Dictionary Expr}
    (has : ∀ a ∈ as, a.value.WellFormed) (hs : s.Ready) (hdone : ∀ a ∈ done, AttributeTyped s a)
    (h : Runs (attributes expand as done) s r s' code) :
    Later s s' ∧ Written r.keys s s' code ∧ (∀ a ∈ r, AttributeTyped s' a) ∧
      done.keys ⊆ r.keys := by
  induction as generalizing done s code with
  | nil =>
    rw [attributes] at h
    obtain ⟨rfl, rfl, rfl⟩ := runs_pure_iff.mp h
    exact ⟨⟨[], .refl s'⟩, .nil rfl, hdone, fun _ hx => hx⟩
  | cons a as ih =>
    obtain ⟨e, s₁, c₁, s₂, c₂, h₁, h₂, h₃, rfl⟩ := runs_attributes_cons h
    obtain ⟨ha, has⟩ := forall_mem_cons.mp has
    obtain ⟨hc₁, he⟩ := expr_typed hexpand ha hs h₁
    have hs₁ := hc₁.ready hs
    obtain ⟨hl₂, hw₂, htype⟩ := recordOutput_typed hs₁ h₂
    have hdone₂ : ∀ b ∈ done.insert a.name e, AttributeTyped s₂ b := by
      intro b hb
      rcases eq_or_mem_of_mem_insert hb with rfl | hb
      · exact ⟨hl₂.typedIn he, htype⟩
      · exact (hdone b hb).later (hc₁.later.trans hl₂)
    obtain ⟨hl₃, hw₃, hr, hkeys⟩ := ih has (hl₂.ready hs₁) hdone₂ h₃
    have hname : a.name ∈ r.keys ∧ done.keys ⊆ r.keys := by
      constructor
      · refine hkeys ?_
        rw [mem_keys_iff, get?_insert_self]
        rfl
      · intro x hx
        refine hkeys ?_
        rw [keys_insert]
        split
        · exact hx
        · exact mem_append_left _ hx
    refine ⟨hc₁.later.trans (hl₂.trans hl₃), ?_, hr, hname.2⟩
    have hw₂' : Written r.keys s₁ s₂ [] := hw₂.mono (by simpa using hname.1)
    exact (hc₁.written.mono (nil_subset _)).append (hl₂.trans hl₃) (hw₂'.append hl₃ hw₃)

theorem vertices_typed {vs : List (List Surface.Attribute)}
    (hvs : ∀ as ∈ vs, ∀ a ∈ as, a.value.WellFormed) (hs : s.Ready)
    (h : Runs (vertices expand vs) s () s' code) : Compiles s s' code := by
  induction vs generalizing s code with
  | nil =>
    rw [vertices] at h
    obtain ⟨-, rfl, rfl⟩ := runs_pure_iff.mp h
    exact .refl s'
  | cons v vs ih =>
    obtain ⟨attrs, s₁, c₁, c₂, h₁, h₂, rfl⟩ := runs_vertices_cons h
    obtain ⟨hv, hvs⟩ := forall_mem_cons.mp hvs
    obtain ⟨hl₁, hw₁, hattrs, -⟩ := attributes_typed hexpand hv hs (by simp) h₁
    have hc₂ := ih hvs (hl₁.ready hs) h₂
    rw [append_cons]
    exact Compiles.append ⟨hl₁, hw₁.emit hattrs⟩ hc₂

omit hexpand in
theorem declare_typed {y : String} (hs : s.Ready) (h : Runs (declare span x t) s y s' []) :
    Compiles s s' [] ∧ s'.scope.issued.get? y = some t := by
  have hlater : Later s s' := ⟨[x], advances_declare span x t s y s' [] hs.inner h⟩
  obtain ⟨v, scope, hdeclare, rfl, rfl, -⟩ := runs_declare_iff.mp h
  obtain ⟨f, below, hf⟩ := exists_cons_of_ne_nil hs.inner
  obtain ⟨-, -, rfl, -, rfl⟩ := Scope.declare_ok hf hdeclare
  exact ⟨⟨hlater, .nil rfl⟩, get?_insert_self _ _ _⟩

theorem declaration_typed {type : Option Surface.TypeName} {init : Option Surface.Expr}
    (hinit : ∀ e ∈ init, e.WellFormed) (hs : s.Ready)
    (h : Runs (declaration expand span x type init) s () s' code) : Compiles s s' code := by
  obtain ⟨type', -, ⟨value, e, s₁, c₁, y, e', rank, rfl, h₁, h₂, hrank, rfl⟩ |
    ⟨t, y, -, -, h₁, rfl⟩⟩ := runs_declaration h
  · obtain ⟨hc₁, he⟩ := expr_typed hexpand (hinit value rfl) hs h₁
    obtain ⟨hc₂, hy⟩ := declare_typed (hc₁.ready hs) h₂
    have he' : e'.TypedIn s'.scope.issued := hc₂.later.typedIn (he.coerce hrank)
    have hy' : s'.scope.issued.get? y = some e'.type := by rw [hy, Expr.type_of_coerce? hrank]
    have hassign : Compiles s' s' [.assign y e'] := ⟨⟨[], .refl s'⟩, .assign he' hy'⟩
    exact hc₁.append (hc₂.append hassign)
  · exact (declare_typed hs h₁).1

theorem assignment_typed {value : Surface.Expr} (hvalue : value.WellFormed) (hs : s.Ready)
    (h : Runs (assignment expand span x value) s () s' code) : Compiles s s' code := by
  obtain ⟨e, c, v, e', rank, h₁, hv, hrank, rfl⟩ := runs_assignment h
  obtain ⟨hc₁, he⟩ := expr_typed hexpand hvalue hs h₁
  have hunique : s'.scope.issued.get? v.unique = some e'.type := by
    rw [(hc₁.ready hs).scope.get? hv, Expr.type_of_coerce? hrank]
  exact hc₁.append ⟨⟨[], .refl s'⟩, .assign (he.coerce hrank) hunique⟩

/-- Wherever it starts, a step of no value writes well-typed code. -/
def WritesTyped (x : Compile Unit) : Prop :=
  ∀ s s' code, s.Ready → Runs x s () s' code → Compiles s s' code

omit hexpand in
theorem WritesTyped.inBlock {x : Compile Unit} (hx : WritesTyped x) : WritesTyped (inBlock x) := by
  intro s s' code hs h
  obtain ⟨s₁, h₁, rfl⟩ := runs_inFrame_iff.mp h
  exact (hx _ s₁ code (hs.push []) h₁).pop

theorem condition_typed {test : Surface.Expr} {thenStep elseStep : Compile Unit}
    (htest : test.WellFormed) (hthen : WritesTyped thenStep) (helse : WritesTyped elseStep) :
    WritesTyped (condition expand test thenStep elseStep) := by
  intro s s' code hs h
  obtain ⟨e, s₁, c, e', rank, s₂, thenBody, elseBody, h₁, hrank, h₂, h₃, rfl⟩ :=
    runs_condition h
  obtain ⟨hc₁, he⟩ := expr_typed hexpand htest hs h₁
  have hs₁ := hc₁.ready hs
  have hc₂ := hthen s₁ s₂ thenBody hs₁ h₂
  have hc₃ := helse s₂ s' elseBody (hc₂.ready hs₁) h₃
  have hbodies := hc₂.append hc₃
  have he' : e'.TypedIn s'.scope.issued := hbodies.later.typedIn (he.coerce hrank)
  have hcondition : Written [] s₁ s' [.condition e' thenBody elseBody] :=
    .condition he' (Expr.type_of_coerce? hrank) hbodies.written
  exact hc₁.append ⟨hbodies.later, hcondition⟩

theorem stmt_call_typed {args : List Surface.Expr} {keywords : List (String × Surface.Expr)}
    (he : (Surface.Expr.call span name args keywords).WellFormed) :
    WritesTyped (stmt expand (.expr (.call span name args keywords))) := by
  intro s s' code hs h
  obtain ⟨es, s₁, c₁, ks, s₂, c₂, r, c₃, h₁, h₂, h₃, rfl⟩ := runs_stmt_call h
  obtain ⟨hc₁, hes⟩ := exprs_typed hexpand he.1 hs h₁
  have hs₁ := hc₁.ready hs
  obtain ⟨hc₂, hks⟩ := keywordExprs_typed hexpand he.2 hs₁ h₂
  obtain ⟨hc₃, -⟩ := call_typed hexpand (hc₂.ready hs₁)
    (fun e he => hc₂.later.typedIn (hes e he)) hks h₃
  exact hc₁.append (hc₂.append hc₃)

-- Some members only pass hypotheses on.
set_option linter.unusedSectionVars false in
mutual

theorem stmt_typed : ∀ {st : Surface.Stmt}, st.WellFormed → WritesTyped (stmt expand st)
  | .expr e, he => by
    by_cases hcall : ∃ span name args keywords, e = .call span name args keywords
    · obtain ⟨span, name, args, keywords, rfl⟩ := hcall
      exact stmt_call_typed hexpand he
    · intro s s' code hs h
      obtain ⟨r, hr⟩ := runs_stmt_expr
        (fun span name args keywords heq => hcall ⟨span, name, args, keywords, heq⟩) h
      exact (expr_typed hexpand he hs hr).1
  | .declare span x type init, hst => by
    intro s s' code hs h
    rw [stmt] at h
    exact declaration_typed hexpand hst hs h
  | .assign span x value, hst => by
    intro s s' code hs h
    rw [stmt] at h
    exact assignment_typed hexpand hst hs h
  | .return_ span value, _ => by
    intro s s' code hs h
    rw [stmt] at h
    exact absurd h not_runs_fail
  | .discard _, _ => by
    intro s s' code hs h
    rw [stmt] at h
    obtain ⟨rfl, rfl⟩ := runs_write_iff.mp h
    exact ⟨⟨[], .refl s'⟩, .discard⟩
  | .emit _ vs, hst => by
    intro s s' code hs h
    rw [stmt] at h
    exact vertices_typed hexpand hst hs h
  | .loop span x first last body, hst => by
    intro s s' code hs h
    obtain ⟨y, s₁, s₂, written, h₁, h₂, rfl, rfl⟩ := runs_loop h
    have hpush := hs.push []
    obtain ⟨hc₁, hy⟩ := declare_typed hpush h₁
    have hwf : body.WellFormed := hst
    have hc₂ := stmt_typed hwf s₁ s₂ written (hc₁.ready hpush) h₂
    have hbody : Compiles (s.push []) s₂ written :=
      hc₁.append hc₂
    obtain ⟨new, hstep⟩ := hc₂.later
    have hloop : Written [] (s.push []) s₂ [.loop y first last written] :=
      hbody.written.loop (hstep.issued _ _ hy)
    exact Compiles.pop ⟨hbody.later, hloop⟩
  | .branch _ test body rest, hst => by
    rw [stmt]
    exact condition_typed hexpand hst.1 (stmt_typed hst.2.1).inBlock (alternatives_typed hst.2.2)
  | .block _ body, hst => by
    rw [stmt]
    exact (stmts_typed hst).inBlock

theorem alternatives_typed : ∀ {rest : Surface.Alternatives}, rest.WellFormed →
    WritesTyped (alternatives expand rest)
  | .none, _ => by
    intro s s' code hs h
    rw [alternatives] at h
    obtain ⟨-, rfl, rfl⟩ := runs_pure_iff.mp h
    exact .refl s'
  | .otherwise body, hrest => by
    rw [alternatives]
    exact (stmt_typed hrest).inBlock
  | .elseIf test body rest, hrest => by
    rw [alternatives]
    exact condition_typed hexpand hrest.1 (stmt_typed hrest.2.1).inBlock
      (alternatives_typed hrest.2.2)

theorem stmts_typed : ∀ {ss : List Surface.Stmt}, Surface.Stmt.WellFormedAll ss →
    WritesTyped (stmts expand ss)
  | [], _ => by
    intro s s' code hs h
    rw [stmts] at h
    obtain ⟨-, rfl, rfl⟩ := runs_pure_iff.mp h
    exact .refl s'
  | st :: ss, hss => by
    intro s s' code hs h
    obtain ⟨s₁, c₁, c₂, h₁, h₂, rfl⟩ := runs_stmts_cons h
    have hc₁ := stmt_typed hss.1 s s₁ c₁ hs h₁
    exact hc₁.append (stmts_typed hss.2 s₁ s' c₂ (hc₁.ready hs) h₂)

end

theorem body_typed {ss : List Surface.Stmt} {r : Option Expr} (hss : Surface.Stmt.WellFormedAll ss)
    (hs : s.Ready) (h : Runs (body expand ss) s r s' code) :
    Compiles s s' code ∧ ∀ e ∈ r, e.TypedIn s'.scope.issued := by
  induction ss generalizing s code with
  | nil =>
    rw [body] at h
    obtain ⟨rfl, rfl, rfl⟩ := runs_pure_iff.mp h
    exact ⟨.refl s', by simp⟩
  | cons st ss ih =>
    rcases runs_body_cons h with ⟨span, e, a, rfl, he, rfl⟩ | ⟨-, s₁, c₁, c₂, h₁, h₂, rfl⟩
    · obtain ⟨hc, ha⟩ := expr_typed hexpand hss.1 hs he
      exact ⟨hc, by simpa using ha⟩
    · have hc₁ := stmt_typed hexpand hss.1 s s₁ c₁ hs h₁
      obtain ⟨hc₂, hr⟩ := ih hss.2 (hc₁.ready hs) h₂
      exact ⟨hc₁.append hc₂, hr⟩

end Bodies

/-! ## Expanded calls -/

theorem temporaries_typed {bound : List (Surface.Param × Expr)} {done : Dictionary String}
    {s s' : Compiler} {code : List Stmt} (hs : s.Ready)
    (hbound : ∀ b ∈ bound, b.2.TypedIn s.scope.issued)
    (h : Runs (temporaries bound done) s formals s' code) : Compiles s s' code := by
  induction bound generalizing done s code with
  | nil =>
    rw [temporaries] at h
    obtain ⟨-, rfl, rfl⟩ := runs_pure_iff.mp h
    exact .refl s'
  | cons b bound ih =>
    obtain ⟨p, e⟩ := b
    obtain ⟨he, hbound⟩ := forall_mem_cons.mp hbound
    obtain ⟨v, s₁, c, h₁, h₂, rfl⟩ := runs_temporaries_cons h
    have hlater : Later s s₁ := ⟨[], advances_temporary e.type s v s₁ [] hs.inner h₁⟩
    have hv : s₁.scope.issued.get? v.unique = some e.type := by
      obtain ⟨rfl, rfl, -⟩ := runs_temporary_iff.mp h₁
      exact get?_insert_self _ _ _
    have houtputs : s₁.outputs = s.outputs := by
      obtain ⟨-, rfl, -⟩ := runs_temporary_iff.mp h₁
      rfl
    have hassign : Written [] s₁ s₁ [.assign v.unique e] := .assign (hlater.typedIn he) hv
    have hfirst : Compiles s s₁ [.assign v.unique e] :=
      ⟨hlater, hassign.congr houtputs.symm rfl rfl⟩
    have hrest := ih (hlater.ready hs) (fun b hb => hlater.typedIn (hbound b hb)) h₂
    exact hfirst.append hrest

theorem typed_expandWith {expand : Expander} (hexpand : expand.Typed) :
    (expandWith expand).Typed where
  advancing := advancing_expandWith hexpand.advancing
  typed := by
    intro span d args s r s' code hs hd hargs h
    obtain ⟨returns, formals, s₁, c₁, value, c₂, -, h₁, h₂, rfl, hr⟩ := runs_expandWith h
    have hbound : ∀ b ∈ d.function.params.zip args, b.2.TypedIn s.scope.issued :=
      fun b hb => hargs b.2 (of_mem_zip hb).2
    have hc₁ := temporaries_typed hs hbound h₁
    have hs₁ := hc₁.ready hs
    obtain ⟨s₂, hbody, rfl⟩ := runs_inBody_iff.mp h₂
    have hs₂ : Ready (s₁.enter d formals) :=
      ⟨hs₁.scope.push formals, cons_ne_nil _ _, hs₁.functions⟩
    obtain ⟨hc₂, hvalue⟩ := body_typed hexpand hd.1 hs₂ hbody
    have hlater : Later s₁ s₂.leave :=
      ⟨[], (advances_body hexpand.advancing d.function.body).inBody s₁ value _ c₂ hs₁.inner h₂⟩
    refine ⟨hc₁.append ⟨hlater, hc₂.written.congr rfl rfl rfl⟩, ?_⟩
    intro e he
    rcases hr with ⟨a, t, a', rank, rfl, -, hrank, rfl⟩ | ⟨-, rfl⟩
    · cases he
      exact (hvalue a rfl).coerce hrank
    · exact hvalue e he

theorem typed_expander (depth : Nat) : (expander depth).Typed := by
  induction depth with
  | zero =>
    refine ⟨advancing_expander 0, ?_⟩
    intro span d args s r s' code _ _ _ h
    exact absurd h not_runs_fail
  | succ depth ih =>
    refine ⟨advancing_expander (depth + 1), ?_⟩
    intro span d args s r s' code hs hd hargs h
    exact (typed_expandWith ih).typed hs hd hargs (runs_expander_succ h).2

end Compile

end DataMarks
