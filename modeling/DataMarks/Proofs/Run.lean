/-
  How runs of statements split, what they read and what they change.

  An expression depends on the variables it reads alone (`Expr.eval_congr`), a run
  that ends changes the variables it assigns alone (`Stmt.get?_runAll`), and a run of
  statements one behind the other is a run of the first and then of the rest.
-/
import DataMarks.Evaluation

namespace DataMarks

open Dictionary List

variable {ε α : Type} {env env' : Env} {attributes : Dictionary Expr}
variable {x : Except ε α}

theorem bind_ok {β : Type} {f : α → Except ε β} {b : β} :
    x >>= f = .ok b ↔ ∃ a, x = .ok a ∧ f a = .ok b := by
  cases x with
  | error e => simp [bind, Except.bind]
  | ok a => simp [bind, Except.bind]

theorem pure_ok {a b : α} : (pure a : Except ε α) = .ok b ↔ a = b := by
  simp [pure, Except.pure]

theorem toOption_eq_some_iff {a : α} : x.toOption = some a ↔ x = .ok a := by
  cases x with
  | error e => simp [Except.toOption]
  | ok b => simp [Except.toOption]

/-! ## Expressions -/

namespace Expr

theorem evalAll_cons {env : Env} {e : Expr} {es : List Expr} {v : Value} {vs : List Value}
    (he : e.eval env = .ok v) (hs : evalAll env es = .ok vs) :
    evalAll env (e :: es) = .ok (v :: vs) := by
  rw [evalAll, he]
  show (evalAll env es >>= fun vs => pure (v :: vs)) = _
  rw [hs]
  rfl

mutual

/-- An expression has the same value wherever the variables it reads have the same values. -/
theorem eval_congr {env env' : Env} :
    ∀ {e : Expr}, (∀ x ∈ e.reads, env'.get? x.1 = env.get? x.1) → e.eval env' = e.eval env
  | const _ _, _ => by rw [eval, eval]
  | var t x, h => by
    rw [eval, eval, h (x, t) (by rw [reads]; exact mem_singleton.mpr rfl)]
  | field _ base _, h => by
    rw [eval, eval, eval_congr (e := base) (by rwa [reads] at h)]
  | call _ _ args, h => by
    have hargs : ∀ x ∈ readsAll args, env'.get? x.1 = env.get? x.1 := by rwa [reads] at h
    rw [eval, eval, evalAll_congr hargs]

theorem evalAll_congr {env env' : Env} :
    ∀ {es : List Expr}, (∀ x ∈ readsAll es, env'.get? x.1 = env.get? x.1) →
      evalAll env' es = evalAll env es
  | [], _ => by rw [evalAll, evalAll]
  | e :: es, h => by
    rw [readsAll] at h
    have hes : ∀ x ∈ readsAll es, env'.get? x.1 = env.get? x.1 :=
      fun x hx => h x (mem_append_right _ hx)
    rw [evalAll, evalAll, eval_congr (e := e) fun x hx => h x (mem_append_left _ hx),
      evalAll_congr hes]

end

end Expr

theorem emitVertex_cons {name : String} {e : Expr} :
    emitVertex env ((name, e) :: attributes) =
      (e.eval env >>= fun v => emitVertex env attributes >>= fun w => pure ((name, v) :: w)) := by
  unfold emitVertex
  rw [mapM_cons]
  show ((e.eval env >>= fun v => pure (name, v)) >>= fun a => _) = _
  cases e.eval env <;> rfl

theorem emitVertex_congr (h : ∀ a ∈ attributes, ∀ x ∈ a.2.reads, env'.get? x.1 = env.get? x.1) :
    emitVertex env' attributes = emitVertex env attributes := by
  induction attributes with
  | nil => rfl
  | cons a rest ih =>
    obtain ⟨name, e⟩ := a
    rw [emitVertex_cons, emitVertex_cons, Expr.eval_congr (h (name, e) mem_cons_self),
      ih fun a ha => h a (mem_cons_of_mem _ ha)]

/-! ## Runs that end -/

namespace Outcome

variable {next : Env → Except EvalError Outcome} {env' : Env} {vs : List Vertex}

theorem andThen_finished_iff {o : Outcome} :
    o.andThen next = .ok (.finished env' vs) ↔
      ∃ env₁ vs₁ vs₂, o = .finished env₁ vs₁ ∧ next env₁ = .ok (.finished env' vs₂) ∧
        vs = vs₁ ++ vs₂ := by
  cases o with
  | discarded =>
    constructor
    · intro h
      cases h
    · rintro ⟨_, _, _, h, _⟩
      cases h
  | finished env₁ vs₁ =>
    simp only [andThen]
    rw [bind_ok]
    constructor
    · rintro ⟨o, ho, h⟩
      cases o with
      | discarded => cases h
      | finished env₂ vs₂ =>
        rw [pure_ok] at h
        cases h
        exact ⟨_, _, _, rfl, ho, rfl⟩
    · rintro ⟨_, _, vs₂, h, hnext, rfl⟩
      cases h
      exact ⟨_, hnext, rfl⟩

theorem bind_andThen_finished_iff {x : Except EvalError Outcome} :
    (x >>= fun o => o.andThen next) = .ok (.finished env' vs) ↔
      ∃ env₁ vs₁ vs₂, x = .ok (.finished env₁ vs₁) ∧ next env₁ = .ok (.finished env' vs₂) ∧
        vs = vs₁ ++ vs₂ := by
  rw [bind_ok]
  constructor
  · rintro ⟨o, ho, h⟩
    obtain ⟨env₁, vs₁, vs₂, rfl, h₂, hvs⟩ := andThen_finished_iff.mp h
    exact ⟨env₁, vs₁, vs₂, ho, h₂, hvs⟩
  · rintro ⟨env₁, vs₁, vs₂, h₁, h₂, hvs⟩
    exact ⟨_, h₁, andThen_finished_iff.mpr ⟨_, _, _, rfl, h₂, hvs⟩⟩

theorem andThen_nil (env : Env) (next : Env → Except EvalError Outcome) :
    (finished env []).andThen next = next env := by
  rw [andThen]
  cases next env with
  | error e => rfl
  | ok o => cases o <;> rfl

theorem andThen_end (o : Outcome) : o.andThen (fun env => .ok (.finished env [])) = .ok o := by
  cases o with
  | discarded => rfl
  | finished env vs => exact congrArg (fun vs => Except.ok (finished env vs)) (append_nil vs)

theorem andThen_andThen (o : Outcome) (f g : Env → Except EvalError Outcome) :
    (o.andThen f >>= fun o => o.andThen g) =
      o.andThen fun env => f env >>= fun o => o.andThen g := by
  cases o with
  | discarded => rfl
  | finished env vs =>
    rw [andThen, andThen]
    cases f env with
    | error e => rfl
    | ok o =>
      cases o with
      | discarded => rfl
      | finished env₁ ws =>
        show (finished env₁ (vs ++ ws)).andThen g = ((finished env₁ ws).andThen g >>= _)
        rw [andThen, andThen]
        cases g env₁ with
        | error e => rfl
        | ok o =>
          cases o with
          | discarded => rfl
          | finished env₂ us =>
            exact congrArg (fun vs => Except.ok (finished env₂ vs)) (append_assoc vs ws us)

theorem andThen_finished {env : Env} {ws : List Vertex} (h : next env = .ok (.finished env' ws)) :
    (finished env vs).andThen next = .ok (.finished env' (vs ++ ws)) :=
  andThen_finished_iff.mpr ⟨_, _, _, rfl, h, rfl⟩

end Outcome

variable {body : Int → Env → Except EvalError Outcome}

theorem iterate_succ_finished_iff {n : Nat} {i : Int} {vs : List Vertex} :
    iterate body (n + 1) i env = .ok (.finished env' vs) ↔
      ∃ env₁ vs₁ vs₂, body i env = .ok (.finished env₁ vs₁) ∧
        iterate body n (i + 1) env₁ = .ok (.finished env' vs₂) ∧ vs = vs₁ ++ vs₂ := by
  rw [iterate]
  exact Outcome.bind_andThen_finished_iff

/-! ## Two runs side by side -/

/-- Both fail with errors in the one relation, or both give results in the other. -/
inductive BothEnd {α : Type} (E : EvalError → EvalError → Prop) (R : α → α → Prop) :
    Except EvalError α → Except EvalError α → Prop
  | ok {a a' : α} (h : R a a') : BothEnd E R (.ok a) (.ok a')
  | error {e e' : EvalError} (h : E e e') : BothEnd E R (.error e) (.error e')

/-- Both runs were discarded, or both left the same vertices and environments in the relation. -/
inductive Outcome.Related (R : Env → Env → Prop) : Outcome → Outcome → Prop
  | finished {env env' : Env} (h : R env env') (vs : List Vertex) :
    Related R (.finished env vs) (.finished env' vs)
  | discarded : Related R .discarded .discarded

section BothEnd

variable {β : Type} {E : EvalError → EvalError → Prop} {R : Env → Env → Prop} {o o' : Outcome}

theorem BothEnd.bind {Q : α → α → Prop} {S : β → β → Prop} {x x' : Except EvalError α}
    {f f' : α → Except EvalError β} (h : BothEnd E Q x x')
    (hf : ∀ a a', Q a a' → BothEnd E S (f a) (f' a')) : BothEnd E S (x >>= f) (x' >>= f') := by
  cases h with
  | ok h => exact hf _ _ h
  | error h => exact .error h

theorem Outcome.Related.vertices (h : o.Related R o') : o'.vertices = o.vertices := by
  cases h <;> rfl

theorem Outcome.Related.andThen {next next' : Env → Except EvalError Outcome}
    (h : o.Related R o')
    (hnext : ∀ env env', R env env' → BothEnd E (Related R) (next env) (next' env')) :
    BothEnd E (Related R) (o.andThen next) (o'.andThen next') := by
  cases h with
  | discarded => exact .ok .discarded
  | finished h vs =>
    refine (hnext _ _ h).bind fun o o' ho => .ok ?_
    cases ho with
    | discarded => exact .discarded
    | finished h ws => exact .finished h (vs ++ ws)

/-- Rounds that end in relation make loops that end in relation. -/
theorem iterate_bothEnd {body' : Int → Env → Except EvalError Outcome}
    (hbody : ∀ i env env', R env env' → BothEnd E (Outcome.Related R) (body i env) (body' i env'))
    {n : Nat} {i : Int} (h : R env env') :
    BothEnd E (Outcome.Related R) (iterate body n i env) (iterate body' n i env') := by
  induction n generalizing i env env' with
  | zero =>
    rw [iterate, iterate]
    exact .ok (.finished h [])
  | succ n ih =>
    rw [iterate, iterate]
    exact (hbody i env env' h).bind fun o o' ho => ho.andThen fun env env' h => ih h

end BothEnd

namespace Stmt

/-- Induction on code: over the statements in a row, and over those within each of them. -/
theorem induct {P : List Stmt → Prop} (nil : P [])
    (cons : ∀ s ss, P [s] → P ss → P (s :: ss)) (assign : ∀ x e, P [assign x e])
    (emit : ∀ attributes, P [emit attributes]) (discard : P [discard])
    (condition : ∀ test thenBody elseBody, P thenBody → P elseBody →
      P [condition test thenBody elseBody])
    (loop : ∀ x first last body, P body → P [loop x first last body]) (ss : List Stmt) : P ss :=
  @Stmt.rec_1 (fun s => P [s]) P assign emit condition loop discard nil cons ss

variable {ss : List Stmt} {env env' : Env} {vs : List Vertex} {x : String}

theorem runAll_cons_finished_iff {s : Stmt} :
    runAll (s :: ss) env = .ok (.finished env' vs) ↔
      ∃ env₁ vs₁ vs₂, s.run env = .ok (.finished env₁ vs₁) ∧
        runAll ss env₁ = .ok (.finished env' vs₂) ∧ vs = vs₁ ++ vs₂ := by
  rw [runAll]
  exact Outcome.bind_andThen_finished_iff

theorem runAll_singleton (s : Stmt) (env : Env) : runAll [s] env = s.run env := by
  rw [runAll]
  cases s.run env with
  | error e => rfl
  | ok o =>
    have hnil : runAll [] = fun env => .ok (.finished env []) := by
      funext env
      rw [runAll]
    show o.andThen (runAll []) = .ok o
    rw [hnil]
    exact o.andThen_end

theorem runAll_append (ss ts : List Stmt) (env : Env) :
    runAll (ss ++ ts) env = (runAll ss env >>= fun o => o.andThen (runAll ts)) := by
  induction ss generalizing env with
  | nil =>
    rw [nil_append, runAll]
    exact (Outcome.andThen_nil env (runAll ts)).symm
  | cons s ss ih =>
    rw [cons_append, runAll, runAll]
    cases s.run env with
    | error e => rfl
    | ok o =>
      have hnext : runAll (ss ++ ts) = fun env => runAll ss env >>= fun o => o.andThen (runAll ts) :=
        funext ih
      show o.andThen (runAll (ss ++ ts)) = (o.andThen (runAll ss) >>= fun o => o.andThen (runAll ts))
      rw [Outcome.andThen_andThen, hnext]

theorem runAll_append_finished_iff {ts : List Stmt} :
    runAll (ss ++ ts) env = .ok (.finished env' vs) ↔
      ∃ env₁ vs₁ vs₂, runAll ss env = .ok (.finished env₁ vs₁) ∧
        runAll ts env₁ = .ok (.finished env' vs₂) ∧ vs = vs₁ ++ vs₂ := by
  rw [runAll_append]
  exact Outcome.bind_andThen_finished_iff

variable {e test : Expr} {thenBody elseBody : List Stmt} {v : Value}

theorem run_assign_finished_iff :
    (assign x e).run env = .ok (.finished env' vs) ↔
      ∃ v, e.eval env = .ok v ∧ env' = env.insert x v ∧ vs = [] := by
  rw [run, bind_ok]
  constructor
  · rintro ⟨v, hv, h⟩
    rw [pure_ok] at h
    cases h
    exact ⟨v, hv, rfl, rfl⟩
  · rintro ⟨v, hv, rfl, rfl⟩
    exact ⟨v, hv, rfl⟩

theorem run_emit_finished_iff {attributes : Dictionary Expr} :
    (emit attributes).run env = .ok (.finished env' vs) ↔
      ∃ v, emitVertex env attributes = .ok v ∧ env' = env ∧ vs = [v] := by
  rw [run, bind_ok]
  constructor
  · rintro ⟨v, hv, h⟩
    rw [pure_ok] at h
    cases h
    exact ⟨v, hv, rfl, rfl⟩
  · rintro ⟨v, hv, rfl, rfl⟩
    exact ⟨v, hv, rfl⟩

theorem run_condition_ok_iff {o : Outcome} :
    (condition test thenBody elseBody).run env = .ok o ↔
      ∃ v, test.eval env = .ok v ∧
        runAll (if v.truthy then thenBody else elseBody) env = .ok o := by
  rw [run, bind_ok]
  refine exists_congr fun v => and_congr_right fun _ => ?_
  cases v.truthy <;> rfl

/-- Statements behind an assignment run in the environment that it leaves. -/
theorem runAll_cons_assign (h : e.eval env = .ok v) :
    runAll (assign x e :: ss) env = runAll ss (env.insert x v) := by
  rw [runAll, run, h]
  exact Outcome.andThen_nil _ _

/-- Statements behind a condition run behind the branch that is taken. -/
theorem runAll_cons_condition (h : test.eval env = .ok v) :
    runAll (condition test thenBody elseBody :: ss) env =
      runAll ((if v.truthy then thenBody else elseBody) ++ ss) env := by
  rw [runAll_append, runAll, run, h]
  cases hv : v.truthy <;> simp only [bind, Except.bind, hv] <;> rfl

theorem run_discard (env : Env) : discard.run env = .ok .discarded := by rw [run]

/-! ## What a run changes -/

mutual

/-- The variables that a statement assigns. -/
def assigns : Stmt → List String
  | assign x _ => [x]
  | emit _ | discard => []
  | condition _ thenBody elseBody => assignsAll thenBody ++ assignsAll elseBody
  | loop x _ _ body => x :: assignsAll body

def assignsAll : List Stmt → List String
  | [] => []
  | s :: ss => s.assigns ++ assignsAll ss

end

theorem assignsAll_append (ss ts : List Stmt) :
    assignsAll (ss ++ ts) = assignsAll ss ++ assignsAll ts := by
  induction ss with
  | nil => rw [assignsAll]; rfl
  | cons s ss ih => rw [cons_append, assignsAll, assignsAll, ih, append_assoc]

/-- What every round keeps, all rounds keep. -/
theorem get?_iterate
    (hbody : ∀ i env env' vs, body i env = .ok (.finished env' vs) → env'.get? x = env.get? x)
    {n : Nat} {i : Int} (h : iterate body n i env = .ok (.finished env' vs)) :
    env'.get? x = env.get? x := by
  induction n generalizing i env vs with
  | zero =>
    rw [iterate] at h
    cases h
    rfl
  | succ n ih =>
    obtain ⟨env₁, vs₁, vs₂, h₁, h₂, -⟩ := iterate_succ_finished_iff.mp h
    rw [ih h₂, hbody i env env₁ vs₁ h₁]

mutual

theorem get?_run {x : String} : ∀ {s : Stmt} {env env' : Env} {vs : List Vertex}, x ∉ s.assigns →
    s.run env = .ok (.finished env' vs) → env'.get? x = env.get? x
  | assign y e, env, env', vs, hx, h => by
    obtain ⟨v, -, rfl, -⟩ := run_assign_finished_iff.mp h
    rw [assigns, mem_singleton] at hx
    exact get?_insert_of_ne hx v env
  | emit _, env, env', vs, _, h => by
    obtain ⟨v, -, rfl, -⟩ := run_emit_finished_iff.mp h
    rfl
  | condition test thenBody elseBody, env, env', vs, hx, h => by
    rw [assigns, mem_append, not_or] at hx
    obtain ⟨v, -, hrun⟩ := run_condition_ok_iff.mp h
    split at hrun
    · exact get?_runAll hx.1 hrun
    · exact get?_runAll hx.2 hrun
  | loop y first last body, env, env', vs, hx, h => by
    rw [assigns, mem_cons, not_or] at hx
    rw [run] at h
    refine get?_iterate ?_ h
    intro i env env' vs hround
    rw [get?_runAll hx.2 hround]
    exact get?_insert_of_ne hx.1 _ env
  | discard, env, env', vs, _, h => by
    rw [run_discard] at h
    cases h

/-- A run that ends leaves the variables that it does not assign. -/
theorem get?_runAll {x : String} : ∀ {ss : List Stmt} {env env' : Env} {vs : List Vertex},
    x ∉ assignsAll ss → runAll ss env = .ok (.finished env' vs) → env'.get? x = env.get? x
  | [], env, env', vs, _, h => by
    rw [runAll] at h
    cases h
    rfl
  | s :: ss, env, env', vs, hx, h => by
    rw [assignsAll, mem_append, not_or] at hx
    obtain ⟨env₁, vs₁, vs₂, h₁, h₂, -⟩ := runAll_cons_finished_iff.mp h
    rw [get?_runAll hx.2 h₂, get?_run hx.1 h₁]

end

end Stmt

/-! ## Specifications -/

namespace Specification

variable {s : Specification}

theorem declaredType?_of_undeclared_nil (h : s.undeclared = []) :
    ∀ m ∈ Stmt.mentionsAll s.statements, s.declaredType? m.1 = some m.2 := by
  intro m hm
  refine Decidable.byContradiction fun hne => ?_
  have hwrong : m.1 ∈ s.undeclared := by
    unfold undeclared
    simp only [mem_eraseDups, mem_map, mem_filter]
    exact ⟨m, ⟨hm, bne_iff_ne.mpr hne⟩, rfl⟩
  rw [h] at hwrong
  cases hwrong

theorem mem_declared_of_declaredType? {x : String} {t : ValueType} (h : s.declaredType? x = some t) :
    x ∈ s.declared := by
  unfold declared
  rw [mem_append]
  cases hi : s.inputs.get? x with
  | some input => exact .inl (mem_keys_of_get? hi)
  | none =>
    unfold declaredType? at h
    rw [hi] at h
    exact .inr (mem_keys_of_get? h)

theorem keys_of_bindInputs {given : Dictionary Value} {inputs : Dictionary Input} {env : Env}
    (h : bindInputs given inputs = .ok env) : env.keys = inputs.keys := by
  induction inputs generalizing env with
  | nil =>
    rw [bindInputs] at h
    cases h
    rfl
  | cons entry inputs ih =>
    obtain ⟨x, input⟩ := entry
    rw [bindInputs] at h
    split at h
    · cases h
    · obtain ⟨rest, hrest, henv⟩ := bind_ok.mp h
      cases henv
      exact congrArg (x :: ·) (ih hrest)

end Specification

end DataMarks
