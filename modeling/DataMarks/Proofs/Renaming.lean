/-
  Code with its variables under other names.

  `Expr.Renamed σ hidden e e'` says that `e'` is `e` with its variables renamed by `σ`, and
  that `e` reads no hidden variable; `Stmt.Renamed` says this of code. Renamed code does the
  same as the code it comes from, wherever all but the hidden variables have their values
  under their new names (`Stmt.runAll_rename`). The errors may differ, as they name variables.
-/
import DataMarks.Proofs.CompiledTypes
import DataMarks.Proofs.Run

namespace DataMarks

open Dictionary List

variable {α β : Type} {σ : String → String} {hidden : List String} {env env' : Env}

theorem toOption_bind {ε : Type} (x : Except ε α) (f : α → Except ε β) :
    (x >>= f).toOption = x.toOption.bind fun a => (f a).toOption := by
  cases x <;> rfl

theorem Dictionary.map_insert (f : α → β) (k : String) (v : α) (d : Dictionary α) :
    (insert k v d).map (fun e => (e.1, f e.2)) = insert k (f v) (d.map fun e => (e.1, f e.2)) := by
  induction d with
  | nil => rfl
  | cons e d ih =>
    rw [map_cons, insert, insert]
    split
    · rfl
    · rw [map_cons, ih]

/-! ## Expressions -/

namespace Expr

mutual

/-- The expression with its variables under other names. -/
def rename (σ : String → String) : Expr → Expr
  | const t v => const t v
  | var t x => var t (σ x)
  | field t base f => field t (base.rename σ) f
  | call t f args => call t f (renameAll σ args)

def renameAll (σ : String → String) : List Expr → List Expr
  | [] => []
  | e :: es => e.rename σ :: renameAll σ es

end

variable {σ : String → String} {hidden : List String}

theorem type_rename (e : Expr) : (e.rename σ).type = e.type := by
  cases e <;> rw [rename] <;> rfl

theorem renameAll_eq_map (es : List Expr) : renameAll σ es = es.map (rename σ) := by
  induction es with
  | nil => rw [renameAll, map_nil]
  | cons e es ih => rw [renameAll, map_cons, ih]

/-- `e'` is `e` with its variables renamed, and `e` reads none of the hidden ones. -/
structure Renamed (σ : String → String) (hidden : List String) (e e' : Expr) : Prop where
  eq : e' = e.rename σ
  reads : ∀ r ∈ e.reads, r.1 ∉ hidden

namespace Renamed

theorem const (t : ValueType) (v : Value) : Renamed σ hidden (.const t v) (.const t v) where
  eq := by rw [rename]
  reads := by
    rw [Expr.reads]
    exact forall_mem_nil _

theorem var (t : ValueType) {x : String} (hx : x ∉ hidden) :
    Renamed σ hidden (.var t x) (.var t (σ x)) where
  eq := by rw [rename]
  reads := by
    rw [Expr.reads]
    exact forall_mem_singleton.mpr hx

theorem type {e e' : Expr} (h : Renamed σ hidden e e') : e'.type = e.type := by
  rw [h.eq, type_rename]

theorem field {e e' : Expr} (h : Renamed σ hidden e e') (t : ValueType) (f : String) :
    Renamed σ hidden (.field t e f) (.field t e' f) where
  eq := by rw [rename, h.eq]
  reads := by
    rw [Expr.reads]
    exact h.reads

theorem call {es es' : List Expr} (h : Forall₂ (Renamed σ hidden) es es') (t : ValueType)
    (f : String) : Renamed σ hidden (.call t f es) (.call t f es') where
  eq := by
    rw [rename, renameAll_eq_map]
    congr 1
    induction h with
    | nil => rfl
    | cons he _ ih => rw [map_cons, ← ih, he.eq]
  reads := by
    rw [Expr.reads]
    induction h with
    | nil =>
      rw [readsAll]
      exact forall_mem_nil _
    | cons he _ ih =>
      rw [readsAll]
      exact forall_mem_append.mpr ⟨he.reads, ih⟩

end Renamed

/-- Resolution sees no difference between an expression and a renamed one. -/
theorem respects_renamed : Overload.Respects (Renamed σ hidden) where
  type := fun h => h.type.symm
  coerce := by
    intro e e' t h
    unfold coerce?
    rw [h.type]
    split
    · exact .some ⟨h, rfl⟩
    · cases Catalog.conversion? e.type t with
      | none => exact .none
      | some c => exact .some ⟨.call (.cons h .nil) _ _, rfl⟩

end Expr

/-- Environments that hold the same values, but for hidden variables, under old and new names. -/
def Env.Follows (σ : String → String) (hidden : List String) (env env' : Env) : Prop :=
  ∀ x, x ∉ hidden → env'.get? (σ x) = env.get? x

theorem Env.Follows.insert (h : env.Follows σ hidden env') (hσ : Function.Injective σ) (x : String)
    (v : Value) :
    Env.Follows σ hidden (Dictionary.insert x v env) (Dictionary.insert (σ x) v env') := by
  intro y hy
  rw [get?_insert, get?_insert, h y hy]
  simp only [hσ.eq_iff]

namespace Expr

variable {σ : String → String} {hidden : List String} {env env' : Env}

mutual

theorem eval_rename : ∀ {e : Expr}, (∀ r ∈ e.reads, r.1 ∉ hidden) → env.Follows σ hidden env' →
    ((e.rename σ).eval env').toOption = (e.eval env).toOption
  | const _ _, _, _ => by
    rw [rename, eval, eval]
  | var t x, hreads, h => by
    rw [reads] at hreads
    rw [rename, eval, eval, h x (hreads (x, t) (mem_singleton.mpr rfl))]
    cases env.get? x <;> rfl
  | field _ base f, hreads, h => by
    rw [reads] at hreads
    rw [rename, eval, eval, toOption_bind, toOption_bind, eval_rename hreads h]
  | call _ f args, hreads, h => by
    rw [reads] at hreads
    rw [rename, eval, eval]
    cases operation? f with
    | none => rfl
    | some o =>
      dsimp only
      rw [toOption_bind, toOption_bind, evalAll_rename hreads h]

theorem evalAll_rename : ∀ {es : List Expr}, (∀ r ∈ readsAll es, r.1 ∉ hidden) →
    env.Follows σ hidden env' →
    (evalAll env' (renameAll σ es)).toOption = (evalAll env es).toOption
  | [], _, _ => by
    rw [renameAll, evalAll, evalAll]
  | e :: es, hreads, h => by
    rw [readsAll, forall_mem_append] at hreads
    rw [renameAll, evalAll, evalAll, toOption_bind, toOption_bind, eval_rename hreads.1 h]
    simp only [toOption_bind, evalAll_rename hreads.2 h]

end

end Expr

/-- The attributes of a vertex with their variables under other names. -/
def renameAttributes (σ : String → String) (attributes : Dictionary Expr) : Dictionary Expr :=
  attributes.map fun a => (a.1, a.2.rename σ)

theorem emitVertex_rename (h : env.Follows σ hidden env') {attributes : Dictionary Expr}
    (hreads : ∀ a ∈ attributes, ∀ r ∈ a.2.reads, r.1 ∉ hidden) :
    (emitVertex env' (renameAttributes σ attributes)).toOption =
      (emitVertex env attributes).toOption := by
  induction attributes with
  | nil => rfl
  | cons a attributes ih =>
    obtain ⟨name, e⟩ := a
    rw [forall_mem_cons] at hreads
    show (emitVertex env' ((name, e.rename σ) :: renameAttributes σ attributes)).toOption = _
    rw [emitVertex_cons, emitVertex_cons, toOption_bind, toOption_bind,
      Expr.eval_rename hreads.1 h]
    simp only [toOption_bind, ih hreads.2]

/-! ## Statements -/

namespace Stmt

mutual

/-- The statement with its variables under other names. -/
def rename (σ : String → String) : Stmt → Stmt
  | assign x e => assign (σ x) (e.rename σ)
  | emit attributes => emit (renameAttributes σ attributes)
  | condition test thenBody elseBody =>
    condition (test.rename σ) (renameAll σ thenBody) (renameAll σ elseBody)
  | loop x first last body => loop (σ x) first last (renameAll σ body)
  | discard => discard

def renameAll (σ : String → String) : List Stmt → List Stmt
  | [] => []
  | s :: ss => s.rename σ :: renameAll σ ss

end

theorem renameAll_append (σ : String → String) (ss ts : List Stmt) :
    renameAll σ (ss ++ ts) = renameAll σ ss ++ renameAll σ ts := by
  induction ss with
  | nil => rw [renameAll, nil_append, nil_append]
  | cons s ss ih => rw [cons_append, renameAll, renameAll, ih, cons_append]

/-- `code'` is `code` with its variables renamed, and `code` reads none of the hidden ones. -/
structure Renamed (σ : String → String) (hidden : List String) (code code' : List Stmt) :
    Prop where
  eq : code' = renameAll σ code
  reads : ∀ e ∈ exprsAll code, ∀ r ∈ e.reads, r.1 ∉ hidden

namespace Renamed

variable {σ : String → String} {hidden : List String} {c₁ c₁' c₂ c₂' : List Stmt}

theorem nil : Renamed σ hidden [] [] where
  eq := by rw [renameAll]
  reads := by
    rw [exprsAll]
    exact forall_mem_nil _

theorem append (h₁ : Renamed σ hidden c₁ c₁') (h₂ : Renamed σ hidden c₂ c₂') :
    Renamed σ hidden (c₁ ++ c₂) (c₁' ++ c₂') where
  eq := by rw [renameAll_append, h₁.eq, h₂.eq]
  reads := by
    rw [exprsAll_append]
    exact forall_mem_append.mpr ⟨h₁.reads, h₂.reads⟩

/-- A single statement. -/
theorem single {s s' : Stmt} (heq : s' = s.rename σ)
    (hreads : ∀ e ∈ s.exprs, ∀ r ∈ e.reads, r.1 ∉ hidden) : Renamed σ hidden [s] [s'] where
  eq := by rw [renameAll, renameAll, heq]
  reads := by
    rw [exprsAll, exprsAll, append_nil]
    exact hreads

theorem assign (x : String) {e e' : Expr} (h : e.Renamed σ hidden e') :
    Renamed σ hidden [.assign x e] [.assign (σ x) e'] := by
  refine single (by rw [rename, h.eq]) ?_
  rw [exprs]
  exact forall_mem_singleton.mpr h.reads

theorem discard : Renamed σ hidden [.discard] [.discard] := by
  refine single (by rw [rename]) ?_
  rw [exprs]
  exact forall_mem_nil _

theorem condition {e e' : Expr} (h : e.Renamed σ hidden e') (h₁ : Renamed σ hidden c₁ c₁')
    (h₂ : Renamed σ hidden c₂ c₂') :
    Renamed σ hidden [.condition e c₁ c₂] [.condition e' c₁' c₂'] := by
  refine single (by rw [rename, h.eq, h₁.eq, h₂.eq]) ?_
  rw [exprs, forall_mem_cons, forall_mem_append]
  exact ⟨h.reads, h₁.reads, h₂.reads⟩

theorem loop (x : String) (first last : Int) (h : Renamed σ hidden c₁ c₁') :
    Renamed σ hidden [.loop x first last c₁] [.loop (σ x) first last c₁'] := by
  refine single (by rw [rename, h.eq]) ?_
  rw [exprs]
  exact h.reads

end Renamed

end Stmt

/-- `attributes'` are `attributes` with their variables renamed, none of which is hidden. -/
structure AttributesRenamed (σ : String → String) (hidden : List String)
    (attributes attributes' : Dictionary Expr) : Prop where
  eq : attributes' = renameAttributes σ attributes
  reads : ∀ a ∈ attributes, ∀ r ∈ a.2.reads, r.1 ∉ hidden

namespace AttributesRenamed

variable {σ : String → String} {hidden : List String} {attributes attributes' : Dictionary Expr}

theorem nil : AttributesRenamed σ hidden [] [] := ⟨rfl, forall_mem_nil _⟩

theorem insert (h : AttributesRenamed σ hidden attributes attributes') (name : String)
    {e e' : Expr} (he : e.Renamed σ hidden e') :
    AttributesRenamed σ hidden (attributes.insert name e) (attributes'.insert name e') where
  eq := by
    rw [renameAttributes, map_insert, h.eq, he.eq]
    rfl
  reads := by
    intro a ha
    rcases eq_or_mem_of_mem_insert ha with rfl | ha
    · exact he.reads
    · exact h.reads a ha

theorem emit (h : AttributesRenamed σ hidden attributes attributes') :
    Stmt.Renamed σ hidden [.emit attributes] [.emit attributes'] := by
  refine .single (by rw [Stmt.rename, h.eq]) ?_
  rw [Stmt.exprs]
  intro e he
  obtain ⟨a, ha, rfl⟩ := mem_map.mp he
  exact h.reads a ha

end AttributesRenamed

/-! ## Runs -/

section Runs

variable {σ : String → String} {hidden : List String}

/-- Both runs fail, or they end alike and in environments where one follows the other. -/
abbrev EndFollows (σ : String → String) (hidden : List String) :
    Except EvalError Outcome → Except EvalError Outcome → Prop :=
  BothEnd (fun _ _ => True) (Outcome.Related (Env.Follows σ hidden))

theorem EndFollows.of_toOption {x x' : Except EvalError α}
    {f f' : α → Except EvalError Outcome} (h : x'.toOption = x.toOption)
    (hf : ∀ a, EndFollows σ hidden (f a) (f' a)) :
    EndFollows σ hidden (x >>= f) (x' >>= f') := by
  cases x <;> cases x' <;> cases h
  · exact .error trivial
  · exact hf _

namespace Stmt

mutual

theorem run_rename (hσ : Function.Injective σ) : ∀ {s : Stmt} {env env' : Env},
    (∀ e ∈ s.exprs, ∀ r ∈ e.reads, r.1 ∉ hidden) → env.Follows σ hidden env' →
    EndFollows σ hidden (s.run env) ((s.rename σ).run env')
  | assign x e, env, env', hreads, h => by
    rw [exprs, forall_mem_singleton] at hreads
    rw [rename, run, run]
    exact .of_toOption (Expr.eval_rename hreads h) fun v => .ok (.finished (h.insert hσ x v) [])
  | emit attributes, env, env', hreads, h => by
    rw [exprs] at hreads
    have hattributes : ∀ a ∈ attributes, ∀ r ∈ a.2.reads, r.1 ∉ hidden :=
      fun a ha => hreads a.2 (mem_map_of_mem ha)
    rw [rename, run, run]
    exact .of_toOption (emitVertex_rename h hattributes) fun v => .ok (.finished h [v])
  | condition test thenBody elseBody, env, env', hreads, h => by
    rw [exprs, forall_mem_cons, forall_mem_append] at hreads
    rw [rename, run, run]
    refine .of_toOption (Expr.eval_rename hreads.1 h) fun v => ?_
    split
    · exact runAll_rename hσ hreads.2.1 h
    · exact runAll_rename hσ hreads.2.2 h
  | loop x first last body, env, env', hreads, h => by
    rw [exprs] at hreads
    rw [rename, run, run]
    refine iterate_bothEnd (fun i env env' h => ?_) h
    exact runAll_rename hσ hreads (h.insert hσ x (.scalar (Float.ofInt i)))
  | discard, env, env', _, _ => by
    rw [rename, run, run]
    exact .ok .discarded

/-- Renamed code does what the code does that it comes from. -/
theorem runAll_rename (hσ : Function.Injective σ) : ∀ {ss : List Stmt} {env env' : Env},
    (∀ e ∈ exprsAll ss, ∀ r ∈ e.reads, r.1 ∉ hidden) → env.Follows σ hidden env' →
    EndFollows σ hidden (runAll ss env) (runAll (renameAll σ ss) env')
  | [], env, env', _, h => by
    rw [renameAll, runAll, runAll]
    exact .ok (.finished h [])
  | s :: ss, env, env', hreads, h => by
    rw [exprsAll, forall_mem_append] at hreads
    rw [renameAll, runAll, runAll]
    exact (run_rename hσ hreads.1 h).bind fun o o' ho =>
      ho.andThen fun env env' h => runAll_rename hσ hreads.2 h

end

end Stmt

end Runs

end DataMarks
