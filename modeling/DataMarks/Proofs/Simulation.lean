/-
  Compiled expressions do what a direct run of the source does.

  `Simulates` compares the outcome of code with the result of a direct run: they emit the
  same vertices and discard alike, and what holds at the end is said by a condition on the
  value, the store and the environment. The value of a compiled expression is told by
  `Denotes`; code that is written for an expression changes no variable that was there
  before (`Reached`), so that values found earlier stay what they are.
-/
import DataMarks.Proofs.Layout
import DataMarks.Proofs.Overloads
import DataMarks.Proofs.Run

namespace DataMarks

open List DataMarks.Expr

/-! ## Conversions -/

namespace Expr

theorem operation?_conversion {source target : ValueType} {c : Conversion}
    (h : Catalog.conversion? source target = some c) :
    operation? c.internalName = some .convert := by
  rw [operation?, (Catalog.find?_conversion h).1]
  rfl

/-- Conversions keep the value. -/
theorem eval_of_coerce? {e e' : Expr} {t : ValueType} {rank : Nat}
    (h : e.coerce? t = some (e', rank)) {env : Env} {v : Value} (he : e.eval env = .ok v) :
    e'.eval env = .ok v := by
  obtain ⟨-, rfl⟩ | ⟨c, hc, rfl⟩ := coerce?_cases h
  · exact he
  · rw [eval, operation?_conversion hc]
    show (evalAll env [e] >>= fun vs => _) = _
    rw [evalAll_cons he (by rw [evalAll])]
    rfl

/-- Whether and at what rank an expression is converted is a matter of its type. -/
theorem rank_coerce? {e e' : Expr} (h : e.type = e'.type) (t : ValueType) :
    (e.coerce? t).map Prod.snd = (e'.coerce? t).map Prod.snd := by
  unfold coerce?
  rw [h]
  split
  · rfl
  · cases Catalog.conversion? e'.type t <;> rfl

end Expr

namespace Direct

open Run

/-! ## Simulation -/

section Rules

variable {α β : Type} {P : Definition → Prop} {o : Except EvalError Outcome}
  {post : β → Store Cell → Env → Prop}

theorem vertices_append (t₁ t₂ : List Event) :
    vertices (t₁ ++ t₂) = vertices t₁ ++ vertices t₂ :=
  filterMap_append

theorem calls_append (t₁ t₂ : List Event) : calls (t₁ ++ t₂) = calls t₁ ++ calls t₂ :=
  filterMap_append

/-- Code ends as a direct run does, if the functions that are called are as asked for. -/
def Simulates (P : Definition → Prop) (o : Except EvalError Outcome)
    (post : α → Store Cell → Env → Prop) : Result α → Prop
  | .done a s trace => (∀ d ∈ calls trace, P d) →
    ∃ env, o = .ok (.finished env (vertices trace)) ∧ post a s env
  | .discarded trace => (∀ d ∈ calls trace, P d) → o = .ok .discarded
  | .stuck => True

namespace Simulates

theorem mono {post' : β → Store Cell → Env → Prop} {r : Result β} (h : Simulates P o post r)
    (hpost : ∀ b s env, post b s env → post' b s env) : Simulates P o post' r := by
  cases r with
  | done b s trace =>
    intro hcalls
    obtain ⟨env, ho, hp⟩ := h hcalls
    exact ⟨env, ho, hpost b s env hp⟩
  | discarded trace => exact h
  | stuck => exact h

variable {x : Run α} {f : α → Run β} {s : Store Cell} {mid : α → Store Cell → Env → Prop}

/-- Code behind other code does what is run next. -/
theorem bind {next : Env → Except EvalError Outcome} (hx : Simulates P o mid (x s))
    (hf : ∀ a s₁ env₁, mid a s₁ env₁ → Simulates P (next env₁) post (f a s₁)) :
    Simulates P (o >>= fun o => o.andThen next) post ((x >>= f) s) := by
  cases hxs : x s with
  | stuck =>
    rw [bind_of_stuck hxs]
    exact True.intro
  | discarded trace =>
    rw [hxs] at hx
    rw [bind_of_discarded hxs]
    intro hcalls
    rw [hx hcalls]
    rfl
  | done a s₁ trace =>
    rw [hxs] at hx
    rw [bind_of_done hxs]
    -- The calls of the first part are among all calls, so its end is known once they are.
    have hfirst : (∀ d ∈ calls trace, P d) → ∃ env₁,
        o = .ok (.finished env₁ (vertices trace)) ∧ Simulates P (next env₁) post (f a s₁) := by
      intro hcalls
      obtain ⟨env₁, ho, hmid⟩ := hx hcalls
      exact ⟨env₁, ho, hf a s₁ env₁ hmid⟩
    generalize f a s₁ = r at hfirst
    cases r with
    | stuck => exact True.intro
    | discarded rest =>
      intro hcalls
      rw [calls_append, forall_mem_append] at hcalls
      obtain ⟨env₁, rfl, hr⟩ := hfirst hcalls.1
      show Outcome.andThen (.finished env₁ (vertices trace)) next = _
      rw [Outcome.andThen, hr hcalls.2]
      rfl
    | done b s₂ rest =>
      intro hcalls
      rw [calls_append, forall_mem_append] at hcalls
      obtain ⟨env₁, rfl, hr⟩ := hfirst hcalls.1
      obtain ⟨env₂, hnext, hpost⟩ := hr hcalls.2
      refine ⟨env₂, ?_, hpost⟩
      rw [vertices_append]
      exact Outcome.andThen_finished hnext

theorem append {env : Env} {c₁ c₂ : List Stmt} (hx : Simulates P (Stmt.runAll c₁ env) mid (x s))
    (hf : ∀ a s₁ env₁, mid a s₁ env₁ → Simulates P (Stmt.runAll c₂ env₁) post (f a s₁)) :
    Simulates P (Stmt.runAll (c₁ ++ c₂) env) post ((x >>= f) s) := by
  rw [Stmt.runAll_append]
  exact hx.bind hf

/-- No code belongs to what is run last. -/
theorem last (hx : Simulates P o mid (x s)) (hf : ∀ a s₁ env₁, mid a s₁ env₁ →
      Simulates P (.ok (.finished env₁ [])) post (f a s₁)) : Simulates P o post ((x >>= f) s) := by
  have hsame : (o >>= fun o => o.andThen fun env => .ok (.finished env [])) = o := by
    cases o with
    | error e => rfl
    | ok o => exact o.andThen_end
  rw [← hsame]
  exact hx.bind hf

theorem finished {b : β} {env : Env} (h : post b s env) :
    Simulates P (.ok (.finished env [])) post (.done b s []) :=
  fun _ => ⟨env, rfl, h⟩

/-- Nothing is written for a direct step that leaves no trace. -/
theorem bind_done {s₁ : Store Cell} {a : α} (hx : x s = .done a s₁ [])
    (hf : Simulates P o post (f a s₁)) : Simulates P o post ((x >>= f) s) := by
  rw [bind_of_done hx]
  generalize f a s₁ = r at hf
  cases r <;> exact hf

theorem bind_stuck (hx : x s = .stuck) : Simulates P o post ((x >>= f) s) := by
  rw [bind_of_stuck hx]
  exact True.intro

theorem inFrame {x : Run β} (h : Simulates P o (fun b s' => post b s'.pop) (x s.push)) :
    Simulates P o post (inFrame x s) := by
  unfold Run.inFrame
  refine bind_done rfl (h.last ?_)
  intro b s' env hpost
  exact bind_done rfl (finished hpost)

/-- Behind the note of a call, the function is known to be as asked for. -/
theorem bind_call {d : Definition} {f : Unit → Run β} (hf : P d → Simulates P o post (f () s)) :
    Simulates P o post ((note (.call d) >>= f) s) := by
  show Simulates P o post ((f () s).after [.call d])
  generalize f () s = r at hf
  cases r with
  | stuck => exact True.intro
  | discarded rest =>
    intro hcalls
    obtain ⟨hd, hrest⟩ := forall_mem_cons.mp hcalls
    exact hf hd hrest
  | done b s₁ rest =>
    intro hcalls
    obtain ⟨hd, hrest⟩ := forall_mem_cons.mp hcalls
    exact hf hd hrest

end Simulates

end Rules

/-! ## What is kept -/

/-- Some variables have the same values in two environments. -/
def Kept (names : List String) (env env' : Env) : Prop :=
  ∀ x ∈ names, env'.get? x = env.get? x

namespace Kept

variable {names names' : List String} {env env₁ env₂ : Env}

theorem refl (names : List String) (env : Env) : Kept names env env := fun _ _ => rfl

theorem trans (h₁ : Kept names env env₁) (h₂ : Kept names env₁ env₂) : Kept names env env₂ :=
  fun x hx => (h₂ x hx).trans (h₁ x hx)

theorem mono (h : Kept names env env₁) (hsub : names' ⊆ names) : Kept names' env env₁ :=
  fun x hx => h x (hsub hx)

theorem insert {x : String} {v : Value} (h : x ∉ names) : Kept names env (env.insert x v) := by
  intro y hy
  refine Dictionary.get?_insert_of_ne ?_ v env
  rintro rfl
  exact h hy

end Kept

/-- An expression has a value in an environment, and goes on having it while the given variables
keep theirs. -/
structure Denotes (names : List String) (env : Env) (e : Expr) (v : Typed) : Prop where
  type : e.type = v.type
  eval : e.eval env = .ok v.value
  reads : ∀ x ∈ e.reads, x.1 ∈ names

namespace Denotes

variable {names names' : List String} {env env' : Env} {e : Expr} {v : Typed}

theorem const (t : ValueType) (v : Value) : Denotes names env (.const t v) ⟨t, v⟩ where
  type := rfl
  eval := by rw [Expr.eval]
  reads := by simp [Expr.reads]

theorem kept (h : Denotes names env e v) (hkept : Kept names env env') (hsub : names ⊆ names') :
    Denotes names' env' e v where
  type := h.type
  eval := by
    rw [eval_congr fun x hx => hkept x.1 (h.reads x hx)]
    exact h.eval
  reads := fun x hx => hsub (h.reads x hx)

variable {t : ValueType} {e' : Expr} {rank : Nat} {es : List Expr} {vs : List Typed}

theorem coerce (h : Denotes names env e v) (hcoerce : e.coerce? t = some (e', rank)) :
    Denotes names env e' ⟨t, v.value⟩ where
  type := type_of_coerce? hcoerce
  eval := eval_of_coerce? hcoerce h.eval
  reads := by
    rw [reads_of_coerce? hcoerce]
    exact h.reads

/-- What an expression converts to, its value converts to. -/
theorem convert (h : Denotes names env e v) (hcoerce : e.coerce? t = some (e', rank))
    (s : Store Cell) :
    convert v t s = .done ⟨t, v.value⟩ s [] := by
  have htype : e.type = v.const.type := h.type
  have hrank : (v.const.coerce? t).map Prod.snd = some rank := by
    rw [← rank_coerce? htype, hcoerce]
    rfl
  obtain ⟨⟨c, rank'⟩, hc, -⟩ := Option.map_eq_some_iff.mp hrank
  have hconst : v.const.eval [] = .ok v.value := by rw [Typed.const, Expr.eval]
  unfold Direct.convert evaluate
  rw [hc]
  dsimp only
  rw [eval_of_coerce? hc hconst, type_of_coerce? hc]
  rfl

theorem evalAll (h : Forall₂ (Denotes names env) es vs) :
    Expr.evalAll env es = .ok (vs.map Typed.value) := by
  induction h with
  | nil => rw [Expr.evalAll, map_nil]
  | cons hv _ ih => exact Expr.evalAll_cons hv.eval ih

theorem readsAll (h : Forall₂ (Denotes names env) es vs) :
    ∀ x ∈ Expr.readsAll es, x.1 ∈ names := by
  induction h with
  | nil => simp [Expr.readsAll]
  | cons hv _ ih =>
    rw [Expr.readsAll]
    exact forall_mem_append.mpr ⟨hv.reads, ih⟩

end Denotes

/-! ## Where code stands -/

section Places

variable (r : Resolver) (globals : Dictionary Variable) (fs : List (Dictionary Variable))

/-- A compilation and a direct run at the same place: the same functions can be called, and a
layout with the given globals and frames links the scope, the environment and the store. -/
structure Linked (s : Compiler) (env : Env) (store : Store Cell) : Prop where
  resolver : s.resolver = r
  inner : s.scope.inner ≠ []
  fits : Layout.Fits ⟨globals, fs⟩ s.scope
  holds : Layout.Holds ⟨globals, fs⟩ env store

/-- A place that is reached by code that keeps all variables given out before it. -/
structure Reached (s : Compiler) (env : Env) (s' : Compiler) (store' : Store Cell) (env' : Env) :
    Prop where
  grows : s.scope.issued.keys ⊆ s'.scope.issued.keys
  kept : Kept s.scope.issued.keys env env'
  linked : Linked r globals fs s' env' store'

/-- A function that leaves the globals alone. -/
def Spares (d : Definition) : Prop := d.function.Avoids globals.keys

/-- Code gives what a direct run gives, as told by a relation of the value to the variables given
out and the environment; functions that are called leave the globals alone. -/
def Evaluates {α : Type} (s : Compiler) (env : Env) (s' : Compiler) (code : List Stmt)
    (rel : List String → Env → α → Prop) : Result α → Prop :=
  Simulates (Spares globals) (Stmt.runAll code env)
    fun a store' env' => Reached r globals fs s env s' store' env' ∧
      rel s'.scope.issued.keys env' a

variable {r globals fs} {s s₁ s₂ s' : Compiler} {env env₁ env₂ : Env}
  {store store₁ store₂ : Store Cell}

theorem Linked.reached (h : Linked r globals fs s env store) :
    Reached r globals fs s env s store env :=
  ⟨fun _ hx => hx, .refl _ _, h⟩

theorem Reached.trans (h₁ : Reached r globals fs s env s₁ store₁ env₁)
    (h₂ : Reached r globals fs s₁ env₁ s₂ store₂ env₂) :
    Reached r globals fs s env s₂ store₂ env₂ where
  grows := fun _ hx => h₂.grows (h₁.grows hx)
  kept := h₁.kept.trans (h₂.kept.mono h₁.grows)
  linked := h₂.linked

theorem Reached.denotes (h : Reached r globals fs s env s₁ store₁ env₁) {e : Expr} {v : Typed}
    (hv : Denotes s.scope.issued.keys env e v) : Denotes s₁.scope.issued.keys env₁ e v :=
  hv.kept h.kept h.grows

/-- What a name means in the scope is in its cell, if it has one. -/
theorem Linked.cell (h : Linked r globals fs s env store) {x : String} {v : Variable}
    (hv : s.scope.get? x = some v) :
    store.find? x = none ∨ ∃ cell, store.find? x = some cell ∧
      Store.find? (⟨globals, fs⟩ : Layout) x = some v ∧ CellHolds env v cell := by
  have hfind := h.holds.find? x
  cases hL : Store.find? (⟨globals, fs⟩ : Layout) x with
  | none =>
    rw [hL] at hfind
    generalize store.find? x = c at hfind
    cases hfind
    exact .inl rfl
  | some w =>
    obtain rfl : w = v := Option.some.inj ((h.fits.find? hL).symm.trans hv)
    rw [hL] at hfind
    generalize store.find? x = c at hfind
    cases hfind with
    | some hcell => exact .inr ⟨_, rfl, rfl, hcell⟩

namespace Evaluates

variable {α β : Type} {rel : List String → Env → β → Prop} {x : Run α} {f : α → Run β}
  {c : List Stmt}

theorem done {b : β} (h : Linked r globals fs s env store) (hb : rel s.scope.issued.keys env b) :
    Evaluates r globals fs s env s [] rel (.done b store []) := by
  unfold Evaluates
  rw [Stmt.runAll]
  exact .finished ⟨h.reached, hb⟩

theorem append {c₁ c₂ : List Stmt} {rel₁ : List String → Env → α → Prop}
    (hx : Evaluates r globals fs s env s₁ c₁ rel₁ (x store))
    (hf : ∀ a store₁ env₁, Reached r globals fs s env s₁ store₁ env₁ →
      rel₁ s₁.scope.issued.keys env₁ a →
      Evaluates r globals fs s₁ env₁ s' c₂ rel (f a store₁)) :
    Evaluates r globals fs s env s' (c₁ ++ c₂) rel ((x >>= f) store) := by
  refine Simulates.append hx ?_
  rintro a store₁ env₁ ⟨hreached, ha⟩
  refine (hf a store₁ env₁ hreached ha).mono ?_
  rintro b store₂ env₂ ⟨hreached₂, hb⟩
  exact ⟨hreached.trans hreached₂, hb⟩

theorem bind_done {a : α} {store₁ : Store Cell} (hx : x store = .done a store₁ [])
    (hf : Evaluates r globals fs s env s' c rel (f a store₁)) :
    Evaluates r globals fs s env s' c rel ((x >>= f) store) :=
  Simulates.bind_done hx hf

theorem bind_stuck (hx : x store = .stuck) :
    Evaluates r globals fs s env s' c rel ((x >>= f) store) :=
  Simulates.bind_stuck hx

theorem bind_call {d : Definition} {f : Unit → Run β}
    (hf : Spares globals d → Evaluates r globals fs s env s' c rel (f () store)) :
    Evaluates r globals fs s env s' c rel ((note (.call d) >>= f) store) :=
  Simulates.bind_call hf

theorem last {rel₁ : List String → Env → α → Prop}
    (hx : Evaluates r globals fs s env s' c rel₁ (x store))
    (hf : ∀ a store₁ env₁, Reached r globals fs s env s' store₁ env₁ →
      rel₁ s'.scope.issued.keys env₁ a →
      Evaluates r globals fs s' env₁ s' [] rel (f a store₁)) :
    Evaluates r globals fs s env s' c rel ((x >>= f) store) := by
  rw [← append_nil c]
  exact hx.append hf

end Evaluates

end Places

/-! ## Calls -/

/-- Expanding a call does what calling the function does. -/
structure Follows (expand : Compile.Expander) (invoke : Invoker) : Prop where
  advancing : expand.Advancing
  evaluates : ∀ {r globals fs s env store span d es vs res s' code},
    Linked r globals fs s env store → Forall₂ (Denotes s.scope.issued.keys env) es vs →
    Compile.Runs (expand span d es) s res s' code →
    Evaluates r globals fs s env s' code (fun names env' => Option.Rel (Denotes names env') res)
      (invoke r d vs store)

/-- A compiled argument and the constant that a direct run has for it. -/
def Argument (names : List String) (env : Env) (e e' : Expr) : Prop :=
  ∃ v : Typed, Denotes names env e v ∧ e'.type = v.type ∧ e'.eval [] = .ok v.value

section Arguments

variable {names : List String} {env : Env}

theorem Denotes.argument {e : Expr} {v : Typed} (h : Denotes names env e v) :
    Argument names env e v.const :=
  ⟨v, h, rfl, by rw [Typed.const, Expr.eval]⟩

theorem respects_argument : Overload.Respects (Argument names env) where
  type := by
    rintro e e' ⟨v, hv, htype, -⟩
    exact hv.type.trans htype.symm
  coerce := by
    rintro e e' t ⟨v, hv, htype, heval⟩
    have hrank := rank_coerce? (hv.type.trans htype.symm) t
    cases hc : e.coerce? t with
    | none =>
      rw [hc] at hrank
      rw [Option.map_eq_none_iff.mp hrank.symm]
      exact .none
    | some c =>
      rw [hc] at hrank
      obtain ⟨c', hc', hrank'⟩ := Option.map_eq_some_iff.mp hrank.symm
      rw [hc']
      refine .some ⟨⟨⟨t, v.value⟩, hv.coerce hc, ?_, ?_⟩, hrank'.symm⟩
      · exact type_of_coerce? hc'
      · exact eval_of_coerce? hc' heval

/-- Resolution chooses the same function for compiled arguments and for their values. -/
theorem resolve_arguments {r : Resolver} {name : String} {es : List Expr} {vs : List Typed}
    {ks : List (String × Expr)} {ws : List (String × Typed)}
    (hpositional : Forall₂ (Denotes names env) es vs)
    (hkeywords : Forall₂ (fun a b => a.1 = b.1 ∧ Denotes names env a.2 b.2) ks ws)
    {c : Callee} {fit : Fit} (h : r.resolve name ⟨es, ks⟩ = .ok (c, fit)) :
    ∃ fit', r.resolve name ⟨vs.map Typed.const, ws.map fun k => (k.1, k.2.const)⟩ = .ok (c, fit') ∧
      Forall₂ (Argument names env) fit.args fit'.args := by
  have hdefaults : ∀ c ∈ r.candidates name, Overload.DefaultsRelated (Argument names env) c.formals :=
    fun c _ f _ t _ v _ => (Denotes.const t v).argument
  have hargs : Overload.Related (Argument names env) ⟨es, ks⟩
      ⟨vs.map Typed.const, ws.map fun k => (k.1, k.2.const)⟩ := by
    constructor
    · rw [forall₂_map_right_iff]
      exact hpositional.imp fun e v hv => hv.argument
    · rw [forall₂_map_right_iff]
      exact hkeywords.imp fun k w hw => ⟨hw.1, hw.2.argument⟩
  obtain ⟨fit', hfit', hrel⟩ := Resolver.resolve_related respects_argument hdefaults hargs h
  exact ⟨fit', hfit', hrel.args⟩

theorem evaluateAll_arguments {es es' : List Expr}
    (h : Forall₂ (Argument names env) es es') (s : Store Cell) :
    ∃ vs, evaluateAll es' s = .done vs s [] ∧ Forall₂ (Denotes names env) es vs ∧
      evalAll [] es' = .ok (vs.map Typed.value) := by
  induction h with
  | nil => exact ⟨[], rfl, .nil, by rw [evalAll, map_nil]⟩
  | @cons e e' es es' he _ ih =>
    obtain ⟨v, hv, htype, heval⟩ := he
    obtain ⟨vs, hvs, hdenotes, hall⟩ := ih
    refine ⟨v :: vs, ?_, .cons hv hdenotes, evalAll_cons heval hall⟩
    have hfirst : evaluate e' s = .done v s [] := by
      unfold evaluate
      rw [heval, htype]
      rfl
    rw [evaluateAll, bind_of_done hfirst, bind_of_done hvs]
    rfl

end Arguments

section Expressions

variable {expand : Compile.Expander} {invoke : Invoker} {r : Resolver}
  {globals : Dictionary Variable} {fs : List (Dictionary Variable)}

section Call

variable {s s' : Compiler} {env : Env} {store : Store Cell} {span : Span} {code : List Stmt}
  {name : String} {es : List Expr} {vs : List Typed} {ks : List (String × Expr)}
  {ws : List (String × Typed)} (hfollows : Follows expand invoke)
  (h : Linked r globals fs s env store)
  (hpositional : Forall₂ (Denotes s.scope.issued.keys env) es vs)
  (hkeywords : Forall₂ (fun a b => a.1 = b.1 ∧ Denotes s.scope.issued.keys env a.2 b.2) ks ws)
include hfollows h hpositional hkeywords

theorem call_evaluates {res : Option Expr}
    (hrun : Compile.Runs (Compile.call expand span name ⟨es, ks⟩) s res s' code) :
    Evaluates r globals fs s env s' code (fun names env' => Option.Rel (Denotes names env') res)
      (call invoke r name vs ws store) := by
  unfold call
  rcases Compile.runs_call hrun with ⟨i, fit, hresolve, rfl, rfl, rfl⟩ | ⟨d, fit, hresolve, hexpand⟩
  · rw [h.resolver] at hresolve
    obtain ⟨fit', hresolve', hfit⟩ := resolve_arguments hpositional hkeywords hresolve
    obtain ⟨us, -, hdenotes, hall⟩ := evaluateAll_arguments hfit store
    have heval : (Expr.call i.returns i.internalName fit'.args).eval [] =
        (Expr.call i.returns i.internalName fit.args).eval env := by
      rw [Expr.eval, Expr.eval, hall, Denotes.evalAll hdenotes]
    rw [hresolve']
    dsimp only
    cases hv : (Expr.call i.returns i.internalName fit'.args).eval [] with
    | error e =>
      refine .bind_stuck ?_
      rw [evaluate, hv]
      rfl
    | ok v =>
      have hdone : evaluate (.call i.returns i.internalName fit'.args) store =
          .done ⟨i.returns, v⟩ store [] := by
        rw [evaluate, hv]
        rfl
      refine .bind_done hdone (.done h (.some ⟨rfl, ?_, ?_⟩))
      · rw [← heval, hv]
      · rw [Expr.reads]
        exact Denotes.readsAll hdenotes
  · rw [h.resolver] at hresolve
    obtain ⟨fit', hresolve', hfit⟩ := resolve_arguments hpositional hkeywords hresolve
    obtain ⟨us, hus, hdenotes, -⟩ := evaluateAll_arguments hfit store
    rw [hresolve']
    exact .bind_done hus (hfollows.evaluates h hdenotes hexpand)

theorem callValue_evaluates {e : Expr}
    (hrun : Compile.Runs (Compile.call expand span name ⟨es, ks⟩) s (some e) s' code) :
    Evaluates r globals fs s env s' code (fun names env' => Denotes names env' e)
      (callValue invoke r name vs ws store) := by
  unfold callValue
  refine (call_evaluates hfollows h hpositional hkeywords hrun).last ?_
  intro v store' env' hreached hv
  cases hv with
  | some hv => exact .done hreached.linked hv

end Call

section Values

variable {s : Compiler} {env : Env} {store : Store Cell} (h : Linked r globals fs s env store)
include h

/-- A variable has the value of the cell that its name means. -/
theorem read_evaluates {x : String} {v : Variable} (hv : s.scope.get? x = some v) :
    Evaluates r globals fs s env s [] (fun names env' => Denotes names env' (.var v.type v.unique))
      (read x store) := by
  refine .bind_done rfl ?_
  obtain hfind | ⟨cell, hfind, hL, hcell⟩ := h.cell hv
  · rw [hfind]
    exact .bind_stuck rfl
  · rw [hfind]
    refine .bind_done rfl ?_
    cases hvalue : cell.value with
    | none => exact .bind_stuck rfl
    | some a =>
      refine .bind_done rfl (.done h ⟨hcell.1, ?_, ?_⟩)
      · rw [eval, hcell.2 a hvalue]
      · rw [reads, forall_mem_singleton]
        exact h.fits.issued v (Store.has_of_findIn hL)

theorem field_evaluates {e : Expr} {v : Typed} (hv : Denotes s.scope.issued.keys env e v)
    {f : String} {t : ValueType} (ht : Catalog.fieldType? e.type f = some t) :
    Evaluates r globals fs s env s [] (fun names env' => Denotes names env' (.field t e f))
      (field v f store) := by
  unfold field
  rw [← hv.type, ht]
  refine .bind_done rfl ?_
  cases hx : v.value.field? f with
  | none => exact .bind_stuck rfl
  | some x =>
    refine .bind_done rfl (.done h ⟨rfl, ?_, ?_⟩)
    · rw [eval, hv.eval]
      simp only [Bind.bind, Except.bind, hx]
      rfl
    · rw [reads]
      exact hv.reads

end Values

variable (hfollows : Follows expand invoke)

include hfollows

-- Some members only pass hypotheses on.
set_option linter.unusedSectionVars false in
mutual

theorem expr_evaluates : ∀ (x : Surface.Expr) {s s' : Compiler} {env : Env} {store : Store Cell}
    {code : List Stmt} {e : Expr}, Linked r globals fs s env store →
    Compile.Runs (Compile.expr expand x) s e s' code →
    Evaluates r globals fs s env s' code (fun names env' => Denotes names env' e)
      (expr invoke r x store)
  | .literal span t v, s, s', env, store, code, e, h, hrun => by
    rw [Compile.expr] at hrun
    obtain ⟨rfl, rfl, rfl⟩ := Compile.runs_pure_iff.mp hrun
    rw [expr]
    exact .done h (.const t v)
  | .name span x, s, s', env, store, code, e, h, hrun => by
    rw [expr]
    obtain ⟨rfl, rfl, ⟨c, hc, rfl⟩ | ⟨hc, v, hv, rfl⟩⟩ := Compile.runs_expr_name hrun
    · rw [hc]
      exact .done h (.const c.type c.value)
    · rw [hc]
      exact read_evaluates h hv
  | .field span base f, s, s', env, store, code, e, h, hrun => by
    obtain ⟨b, t, hbase, ht, rfl⟩ := Compile.runs_expr_field hrun
    rw [expr]
    refine (expr_evaluates base h hbase).last ?_
    intro v store₁ env₁ hreached hv
    exact field_evaluates hreached.linked hv ht
  | .call span name args keywords, s, s', env, store, code, e, h, hrun => by
    obtain ⟨es, s₁, c₁, ks, s₂, c₂, c₃, hargs, hkeywords, hcall, rfl⟩ :=
      Compile.runs_expr_call hrun
    rw [expr]
    refine (exprs_evaluates args h hargs).append ?_
    intro vs store₁ env₁ hreached₁ hvs
    refine (keywordExprs_evaluates keywords hreached₁.linked hkeywords).append ?_
    intro ws store₂ env₂ hreached₂ hws
    refine callValue_evaluates hfollows hreached₂.linked ?_ hws hcall
    exact hvs.imp fun _ _ hv => hreached₂.denotes hv
  | .unary span op arg, s, s', env, store, code, e, h, hrun => by
    obtain ⟨a, s₁, c₁, c₂, harg, hcall, rfl⟩ := Compile.runs_expr_unary hrun
    rw [expr]
    refine (expr_evaluates arg h harg).append ?_
    intro v store₁ env₁ hreached hv
    exact callValue_evaluates hfollows hreached.linked (.cons hv .nil) .nil hcall
  | .binary span op lhs rhs, s, s', env, store, code, e, h, hrun => by
    obtain ⟨a, s₁, c₁, b, s₂, c₂, c₃, hlhs, hrhs, hcall, rfl⟩ := Compile.runs_expr_binary hrun
    rw [expr]
    refine (expr_evaluates lhs h hlhs).append ?_
    intro v store₁ env₁ hreached₁ hv
    refine (expr_evaluates rhs hreached₁.linked hrhs).append ?_
    intro w store₂ env₂ hreached₂ hw
    refine callValue_evaluates hfollows hreached₂.linked ?_ .nil hcall
    exact .cons (hreached₂.denotes hv) (.cons hw .nil)

theorem exprs_evaluates : ∀ (xs : List Surface.Expr) {s s' : Compiler} {env : Env}
    {store : Store Cell} {code : List Stmt} {es : List Expr}, Linked r globals fs s env store →
    Compile.Runs (Compile.exprs expand xs) s es s' code →
    Evaluates r globals fs s env s' code (fun names env' => Forall₂ (Denotes names env') es)
      (exprs invoke r xs store)
  | [], s, s', env, store, code, es, h, hrun => by
    rw [Compile.exprs] at hrun
    obtain ⟨rfl, rfl, rfl⟩ := Compile.runs_pure_iff.mp hrun
    rw [exprs]
    exact .done h .nil
  | x :: xs, s, s', env, store, code, es, h, hrun => by
    obtain ⟨a, s₁, c₁, as, c₂, hfirst, hrest, rfl, rfl⟩ := Compile.runs_exprs_cons hrun
    rw [exprs]
    refine (expr_evaluates x h hfirst).append ?_
    intro v store₁ env₁ hreached₁ hv
    refine (exprs_evaluates xs hreached₁.linked hrest).last ?_
    intro vs store₂ env₂ hreached₂ hvs
    exact .done hreached₂.linked (.cons (hreached₂.denotes hv) hvs)

theorem keywordExprs_evaluates : ∀ (xs : List (String × Surface.Expr)) {s s' : Compiler}
    {env : Env} {store : Store Cell} {code : List Stmt} {es : List (String × Expr)},
    Linked r globals fs s env store →
    Compile.Runs (Compile.keywordExprs expand xs) s es s' code →
    Evaluates r globals fs s env s' code
      (fun names env' => Forall₂ (fun a b => a.1 = b.1 ∧ Denotes names env' a.2 b.2) es)
      (keywordExprs invoke r xs store)
  | [], s, s', env, store, code, es, h, hrun => by
    rw [Compile.keywordExprs] at hrun
    obtain ⟨rfl, rfl, rfl⟩ := Compile.runs_pure_iff.mp hrun
    rw [keywordExprs]
    exact .done h .nil
  | (k, x) :: xs, s, s', env, store, code, es, h, hrun => by
    obtain ⟨a, s₁, c₁, as, c₂, hfirst, hrest, rfl, rfl⟩ := Compile.runs_keywordExprs_cons hrun
    rw [keywordExprs]
    refine (expr_evaluates x h hfirst).append ?_
    intro v store₁ env₁ hreached₁ hv
    refine (keywordExprs_evaluates xs hreached₁.linked hrest).last ?_
    intro vs store₂ env₂ hreached₂ hvs
    exact .done hreached₂.linked (.cons ⟨rfl, hreached₂.denotes hv⟩ hvs)

end

end Expressions

end Direct

end DataMarks
