/-
  What overload resolution gives.

  The function that a call means is one of the candidates, and its parameters get
  expressions of their types (`Resolver.resolve_ok`, `Overload.types_of_bindFormals`). Resolution
  looks at the types of arguments only: for arguments that are related and have the same
  types it chooses the same function, and the expressions for its parameters are related
  again (`Resolver.resolve_related`).
-/
import DataMarks.Overload
import DataMarks.Proofs.Typing
import Mathlib.Data.List.Forall2

namespace DataMarks

open List

/-! ## Conversions -/

namespace Catalog

/-- The internal name of an intrinsic tells it from all others. -/
theorem find?_internalName : ∀ i ∈ intrinsics, find? i.internalName = some i := by
  decide +kernel

theorem find?_conversion {source target : ValueType} {c : Conversion}
    (h : conversion? source target = some c) :
    find? c.internalName = some c.intrinsic ∧ c.source = source ∧ c.target = target := by
  have hmem : c ∈ conversions := mem_of_find?_eq_some h
  have hintrinsic : c.intrinsic ∈ intrinsics := mem_append_right _ (mem_map_of_mem hmem)
  have htypes := find?_some h
  rw [decide_eq_true_eq] at htypes
  exact ⟨find?_internalName _ hintrinsic, htypes⟩

end Catalog

namespace Expr

variable {e e' : Expr} {t : ValueType} {rank : Nat}

/-- An expression is of the type already, or a conversion is called for it. -/
theorem coerce?_cases (h : e.coerce? t = some (e', rank)) : e.type = t ∧ e' = e ∨
    ∃ c, Catalog.conversion? e.type t = some c ∧ e' = .call t c.internalName [e] := by
  unfold coerce? at h
  split at h
  · rename_i ht
    cases h
    exact .inl ⟨ht, rfl⟩
  · obtain ⟨c, hc, heq⟩ := Option.map_eq_some_iff.mp h
    cases heq
    exact .inr ⟨c, hc, rfl⟩

theorem type_of_coerce? (h : e.coerce? t = some (e', rank)) : e'.type = t := by
  obtain ⟨ht, rfl⟩ | ⟨c, -, rfl⟩ := coerce?_cases h
  · exact ht
  · rfl

theorem wellTyped_of_coerce? (h : e.coerce? t = some (e', rank)) (he : e.WellTyped) :
    e'.WellTyped := by
  obtain ⟨-, rfl⟩ | ⟨c, hc, rfl⟩ := coerce?_cases h
  · exact he
  · obtain ⟨hfind, hsource, htarget⟩ := Catalog.find?_conversion hc
    refine ⟨⟨he, True.intro⟩, c.intrinsic, hfind, ?_, htarget⟩
    rw [map_singleton, ← hsource]
    rfl

theorem mem_readsAll_iff {es : List Expr} {m : String × ValueType} :
    m ∈ readsAll es ↔ ∃ e ∈ es, m ∈ e.reads := by
  induction es with
  | nil => simp [readsAll]
  | cons e es ih => simp [readsAll, ih]

theorem reads_of_coerce? (h : e.coerce? t = some (e', rank)) : e'.reads = e.reads := by
  obtain ⟨-, rfl⟩ | ⟨c, -, rfl⟩ := coerce?_cases h
  · rfl
  · rw [reads, readsAll, readsAll, append_nil]

end Expr

namespace Overload

/-! ## Binding of parameters -/

/-- The argument that a parameter of a type gets, before conversion, and whether it comes by
keyword. -/
def argument? (keywords : List (String × Expr)) (f : Formal) (t : ValueType)
    (positional : List Expr) : Option (Expr × Nat) :=
  match positional.head?, keyword? keywords f with
  | some e, _ => some (e, 0)
  | none, some e => some (e, 1)
  | none, none => f.default.map fun v => (.const t v, 0)

theorem bindFormals_cons (keywords : List (String × Expr)) (f : Formal) (fs : List Formal)
    (positional : List Expr) :
    bindFormals keywords (f :: fs) positional =
      f.type.bind fun t => (argument? keywords f t positional).bind fun a =>
        (a.1.coerce? t).bind fun c => (bindFormals keywords fs positional.tail).bind fun rest =>
          some {
            args := c.1 :: rest.args
            rank := c.2 + rest.rank
            conversions := (if a.1.type = t then 0 else 1) + rest.conversions
            byKeyword := a.2 + rest.byKeyword } := by
  rw [bindFormals]
  refine Option.bind_congr fun t _ => ?_
  unfold argument?
  cases positional.head? with
  | some e => rfl
  | none => cases keyword? keywords f <;> rfl

variable {fit : Fit} {args : Arguments}

theorem types_of_bindFormals {keywords : List (String × Expr)} {fs : List Formal}
    {positional : List Expr} (h : bindFormals keywords fs positional = some fit) :
    fs.map Formal.type = fit.args.map fun e => some e.type := by
  induction fs generalizing positional fit with
  | nil =>
    cases h
    rfl
  | cons f fs ih =>
    rw [bindFormals_cons] at h
    obtain ⟨t, ht, h⟩ := Option.bind_eq_some_iff.mp h
    obtain ⟨arg, -, h⟩ := Option.bind_eq_some_iff.mp h
    obtain ⟨coerced, hcoerced, h⟩ := Option.bind_eq_some_iff.mp h
    obtain ⟨rest, hrest, h⟩ := Option.bind_eq_some_iff.mp h
    cases h
    rw [map_cons, map_cons, ih hrest, ht, Expr.type_of_coerce? hcoerced]

theorem bind_eq_some_iff {c : Callee} :
    bind c args = some fit ↔ bindFormals args.keywords c.formals args.positional = some fit ∧
      args.positional.length ≤ c.formals.length ∧ args.keywords.length ≤ fit.byKeyword := by
  unfold bind
  simp only [Option.bind_eq_bind, Option.bind_eq_some_iff]
  constructor
  · rintro ⟨b, hb, hif⟩
    split at hif
    · rename_i hused
      cases hif
      exact ⟨hb, hused⟩
    · cases hif
  · rintro ⟨hb, hused⟩
    exact ⟨fit, hb, if_pos hused⟩

/-- The parameters of an intrinsic get arguments of exactly its types. -/
theorem types_of_bind_intrinsic {i : Intrinsic} (h : bind (.intrinsic i) args = some fit) :
    i.params = fit.args.map Expr.type := by
  have htypes := types_of_bindFormals (bind_eq_some_iff.mp h).1
  have hformals : (Callee.formals (.intrinsic i)).map Formal.type = i.params.map some := by
    rw [Callee.formals, map_map]
    rfl
  rw [hformals, ← Function.comp_def, ← map_map] at htypes
  exact List.map_inj_right (fun _ _ => Option.some.inj) |>.mp htypes

/-! ## Related arguments -/

section Related

variable {α β : Type} {keywords keywords' : List (String × Expr)}
  {positional positional' : List Expr}

theorem rel_bind {γ δ : Type} {r : α → β → Prop} {q : γ → δ → Prop} {a : Option α} {b : Option β}
    {f : α → Option γ} {g : β → Option δ} (h : Option.Rel r a b)
    (hf : ∀ x y, r x y → Option.Rel q (f x) (g y)) : Option.Rel q (a.bind f) (b.bind g) := by
  cases h with
  | none => exact .none
  | some hxy => exact hf _ _ hxy

theorem lookup_related {R : α → β → Prop} {as : List (String × α)} {bs : List (String × β)}
    (h : Forall₂ (fun a b => a.1 = b.1 ∧ R a.2 b.2) as bs) (k : String) :
    Option.Rel R (as.lookup k) (bs.lookup k) := by
  induction h with
  | nil => exact .none
  | @cons a b _ _ hab _ ih =>
    rw [lookup_cons, lookup_cons, ← hab.1]
    cases k == a.1 with
    | true => exact .some hab.2
    | false => exact ih

variable {R : Expr → Expr → Prop}

/-- What related arguments have in common, as far as resolution looks at them: types are the same,
and conversions keep arguments related. -/
structure Respects (R : Expr → Expr → Prop) : Prop where
  type : ∀ {e e'}, R e e' → e.type = e'.type
  coerce : ∀ {e e'} t, R e e' →
    Option.Rel (fun a b => R a.1 b.1 ∧ a.2 = b.2) (e.coerce? t) (e'.coerce? t)

/-- Arguments that are related one by one; those by keyword have the same keywords. -/
structure Related (R : Expr → Expr → Prop) (args args' : Arguments) : Prop where
  positional : Forall₂ R args.positional args'.positional
  keywords : Forall₂ (fun a b => a.1 = b.1 ∧ R a.2 b.2) args.keywords args'.keywords

/-- Fits that cost the same, with related arguments. -/
structure Fit.Related (R : Expr → Expr → Prop) (a b : Fit) : Prop where
  args : Forall₂ R a.args b.args
  rank : a.rank = b.rank
  conversions : a.conversions = b.conversions
  byKeyword : a.byKeyword = b.byKeyword

theorem Fit.Related.better_iff {a a' b b' : Fit} (h : Fit.Related R a a')
    (h' : Fit.Related R b b') : Better a b ↔ Better a' b' := by
  unfold Better
  rw [h.rank, h.conversions, h'.rank, h'.conversions]

/-- The defaults of parameters are related to themselves. -/
def DefaultsRelated (R : Expr → Expr → Prop) (fs : List Formal) : Prop :=
  ∀ f ∈ fs, ∀ t ∈ f.type, ∀ v ∈ f.default, R (.const t v) (.const t v)

/-- The argument of a parameter comes from the same place on both sides. -/
theorem argument?_related
    (hkeywords : Forall₂ (fun a b => a.1 = b.1 ∧ R a.2 b.2) keywords keywords') {f : Formal}
    {t : ValueType} (hdefault : ∀ v ∈ f.default, R (.const t v) (.const t v))
    (hpositional : Forall₂ R positional positional') :
    Option.Rel (fun a b => R a.1 b.1 ∧ a.2 = b.2) (argument? keywords f t positional)
      (argument? keywords' f t positional') := by
  unfold argument?
  cases hpositional with
  | cons hp _ => exact .some ⟨hp, rfl⟩
  | nil =>
    have hkeyword : Option.Rel R (keyword? keywords f) (keyword? keywords' f) := by
      unfold keyword?
      cases f.name with
      | none => exact .none
      | some n => exact lookup_related hkeywords n
    generalize keyword? keywords f = k at hkeyword ⊢
    generalize keyword? keywords' f = k' at hkeyword ⊢
    cases hkeyword with
    | some hr => exact .some ⟨hr, rfl⟩
    | none =>
      cases hv : f.default with
      | none => exact .none
      | some v => exact .some ⟨hdefault v hv, rfl⟩

theorem bindFormals_related (hR : Respects R)
    (hkeywords : Forall₂ (fun a b => a.1 = b.1 ∧ R a.2 b.2) keywords keywords')
    {fs : List Formal} (hdefaults : DefaultsRelated R fs)
    (hpositional : Forall₂ R positional positional') :
    Option.Rel (Fit.Related R) (bindFormals keywords fs positional)
      (bindFormals keywords' fs positional') := by
  induction fs generalizing positional positional' with
  | nil => exact .some ⟨.nil, rfl, rfl, rfl⟩
  | cons f fs ih =>
    have htail : Forall₂ R positional.tail positional'.tail := by
      cases hpositional with
      | nil => exact .nil
      | cons _ hps => exact hps
    rw [bindFormals_cons, bindFormals_cons]
    cases ht : f.type with
    | none => exact .none
    | some t =>
      rw [Option.bind_some, Option.bind_some]
      refine rel_bind (argument?_related hkeywords (hdefaults f mem_cons_self t ht) hpositional) ?_
      rintro arg arg' ⟨harg, hbyKeyword⟩
      refine rel_bind (hR.coerce t harg) ?_
      rintro coerced coerced' ⟨hcoerced, hrank⟩
      refine rel_bind (ih (fun g hg => hdefaults g (mem_cons_of_mem _ hg)) htail) ?_
      intro rest rest' hrest
      exact .some {
        args := .cons hcoerced hrest.args
        rank := by rw [hrank, hrest.rank]
        conversions := by rw [hR.type harg, hrest.conversions]
        byKeyword := by rw [hbyKeyword, hrest.byKeyword] }

theorem bind_related (hR : Respects R) {c : Callee} (hdefaults : DefaultsRelated R c.formals)
    {args args' : Arguments} (hargs : Related R args args') :
    Option.Rel (Fit.Related R) (bind c args) (bind c args') := by
  unfold bind
  refine rel_bind (bindFormals_related hR hargs.keywords hdefaults hargs.positional) ?_
  intro fit fit' hfit
  rw [hargs.positional.length_eq, hargs.keywords.length_eq, hfit.byKeyword]
  split
  · exact .some hfit
  · exact .none

end Related

/-! ## The choice -/

/-- What is chosen was the best before, or it is one of the callees and it binds. -/
theorem choose_some {best : Option (Callee × Fit)} {cs : List Callee} {c : Callee}
    (h : choose args best cs = some (c, fit)) :
    best = some (c, fit) ∨ c ∈ cs ∧ bind c args = some fit := by
  induction cs generalizing best with
  | nil => exact .inl h
  | cons d cs ih =>
    have hlater : ∀ {best'}, choose args best' cs = some (c, fit) →
        best' = some (c, fit) ∨ c ∈ d :: cs ∧ bind c args = some fit := by
      intro best' hbest
      rcases ih hbest with h | ⟨hmem, hbind⟩
      · exact .inl h
      · exact .inr ⟨mem_cons_of_mem _ hmem, hbind⟩
    unfold choose at h
    split at h
    · exact hlater h
    · rename_i b hb
      rcases hlater h with heq | h
      · cases heq
        exact .inr ⟨mem_cons_self, hb⟩
      · exact .inr h
    · rename_i b c' b' hb
      rcases hlater h with heq | h
      · split at heq
        · cases heq
          exact .inr ⟨mem_cons_self, hb⟩
        · exact .inl heq
      · exact .inr h

/-- Of the same callees, the same one is chosen for related arguments. -/
theorem choose_related {R : Expr → Expr → Prop} (hR : Respects R) {args' : Arguments}
    (hargs : Related R args args') {cs : List Callee}
    (hdefaults : ∀ c ∈ cs, DefaultsRelated R c.formals) {best best' : Option (Callee × Fit)}
    (hbest : Option.Rel (fun a b => a.1 = b.1 ∧ Fit.Related R a.2 b.2) best best') :
    Option.Rel (fun a b => a.1 = b.1 ∧ Fit.Related R a.2 b.2) (choose args best cs)
      (choose args' best' cs) := by
  induction cs generalizing best best' with
  | nil => exact hbest
  | cons c cs ih =>
    have hlater := fun {b b'} => @ih (fun d hd => hdefaults d (mem_cons_of_mem _ hd)) b b'
    have hbind := bind_related hR (hdefaults c mem_cons_self) hargs
    unfold choose
    generalize bind c args = b at hbind ⊢
    generalize bind c args' = b' at hbind ⊢
    cases hbind with
    | none => exact hlater hbest
    | some hfit =>
      cases hbest with
      | none => exact hlater (.some ⟨rfl, hfit⟩)
      | some hold =>
        refine hlater ?_
        simp only [hfit.better_iff hold.2]
        split
        · exact .some ⟨rfl, hfit⟩
        · exact .some hold

end Overload

namespace Resolver

theorem resolve_ok {r : Resolver} {name : String} {args : Arguments} {c : Callee} {fit : Fit}
    (h : r.resolve name args = .ok (c, fit)) :
    c ∈ r.candidates name ∧ Overload.bind c args = some fit := by
  unfold resolve at h
  split at h
  · cases h
  · split at h
    · cases h
    · rename_i best hbest
      cases h
      rcases Overload.choose_some hbest with heq | hc
      · cases heq
      · exact hc

/-- A call means the same function for related arguments. -/
theorem resolve_related {R : Expr → Expr → Prop} (hR : Overload.Respects R) {r : Resolver}
    {name : String} (hdefaults : ∀ c ∈ r.candidates name, Overload.DefaultsRelated R c.formals)
    {args args' : Arguments} (hargs : Overload.Related R args args') {c : Callee} {fit : Fit}
    (h : r.resolve name args = .ok (c, fit)) :
    ∃ fit', r.resolve name args' = .ok (c, fit') ∧ Overload.Fit.Related R fit fit' := by
  have hchoice := Overload.choose_related hR hargs hdefaults .none
  unfold resolve at h ⊢
  split at h
  · cases h
  · rename_i cs hcs
    generalize Overload.choose args none (r.candidates name) = best at h hchoice
    generalize Overload.choose args' none (r.candidates name) = best' at hchoice ⊢
    cases hchoice with
    | none => cases h
    | some hbest =>
      cases h
      obtain ⟨rfl, hfit⟩ := hbest
      exact ⟨_, rfl, hfit⟩

end Resolver

end DataMarks
