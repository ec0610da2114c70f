/-
  Steps of a compilation that succeed, taken apart.

  `Runs x s a s' code` says that a step gives `a`, leaves `s'` and writes `code`. There is
  one lemma for each way to build a step, and one for each of the small steps, so that
  proofs about compiled code never open the steps themselves.
-/
import DataMarks.Compilation

namespace DataMarks

namespace Compiler

/-- At the start of a mark. -/
abbrev start (s : Compiler) (f : Surface.Function) : Compiler :=
  { s with scope := {}, outputs := [], callStack := [(none, f.name)] }

/-- At the start of a frame. -/
abbrev push (s : Compiler) (formals : Dictionary String) : Compiler :=
  { s with scope := s.scope.push formals }

/-- Behind a frame. -/
abbrev pop (s : Compiler) : Compiler := { s with scope := s.scope.pop }

/-- At the start of the body of a function that is expanded. -/
abbrev enter (s : Compiler) (d : Definition) (formals : Dictionary String) : Compiler :=
  { s.push formals with resolver := s.resolver.enter d.module, callStack := d.key :: s.callStack }

/-- Behind the body of a function that is expanded. -/
abbrev leave (s : Compiler) : Compiler :=
  { s.pop with resolver := s.resolver.exit, callStack := s.callStack.tail }

end Compiler

namespace Compile

open List

variable {formals : Dictionary String} {u : Unit}

section Rules

variable {α β : Type} {s s' : Compiler} {code : List Stmt}
variable {x : Compile α} {a : α} {b : β} {f : α → Compile β}

/-- A step succeeds with a result, a state and the statements it writes. -/
def Runs (x : Compile α) (s : Compiler) (a : α) (s' : Compiler) (code : List Stmt) : Prop :=
  x s = ⟨.ok a, s', code⟩

theorem runs_of_result (h : (x s).result = .ok a) : ∃ s' code, Runs x s a s' code :=
  ⟨(x s).state, (x s).code, by rw [Runs, ← h]⟩

theorem compiled_eq_iff {r r' : Except CompileError α} {c : List Stmt} :
    (⟨r, s, c⟩ : Compiled α) = ⟨r', s', code⟩ ↔ r' = r ∧ s' = s ∧ code = c := by
  rw [eq_comm, Compiled.mk.injEq]

theorem runs_pure_iff {b : α} : Runs (pure a) s b s' code ↔ b = a ∧ s' = s ∧ code = [] :=
  compiled_eq_iff.trans (by rw [Except.ok.injEq])

theorem bind_of_ok (h : x s = ⟨.ok a, s', code⟩) :
    (x >>= f) s = { f a s' with code := code ++ (f a s').code } := by
  simp only [Bind.bind, h]

variable {e : CompileError}

theorem bind_of_error (h : x s = ⟨.error e, s', code⟩) : (x >>= f) s = ⟨.error e, s', code⟩ := by
  simp only [Bind.bind, h]

theorem runs_bind_iff :
    Runs (x >>= f) s b s' code ↔
      ∃ a s₁ c₁ c₂, Runs x s a s₁ c₁ ∧ Runs (f a) s₁ b s' c₂ ∧ code = c₁ ++ c₂ := by
  unfold Runs
  cases hx : x s with
  | mk result s₁ c₁ =>
    cases result with
    | error e =>
      rw [bind_of_error hx]
      constructor
      · intro h
        cases h
      · rintro ⟨a, _, _, _, h, -⟩
        cases h
    | ok a =>
      rw [bind_of_ok hx]
      constructor
      · intro h
        cases hf : f a s₁ with
        | mk result state c₂ =>
          rw [hf] at h
          cases h
          exact ⟨a, s₁, c₁, c₂, rfl, hf, rfl⟩
      · rintro ⟨_, _, _, c₂, h, hf, rfl⟩
        cases h
        rw [hf]

theorem not_runs_fail : ¬ Runs (fail e) s a s' code := by
  intro h
  cases h

theorem runs_lift_iff {x : Except CompileError α} :
    Runs (lift x) s a s' code ↔ x = .ok a ∧ s' = s ∧ code = [] :=
  compiled_eq_iff.trans (by rw [eq_comm])

theorem runs_state_iff {a : Compiler} :
    Runs state s a s' code ↔ a = s ∧ s' = s ∧ code = [] :=
  compiled_eq_iff.trans (by rw [Except.ok.injEq])

theorem runs_update_iff {f : Compiler → Compiler} :
    Runs (update f) s u s' code ↔ s' = f s ∧ code = [] :=
  compiled_eq_iff.trans (and_iff_right rfl)

theorem runs_write_iff {stmt : Stmt} : Runs (write stmt) s u s' code ↔ s' = s ∧ code = [stmt] :=
  compiled_eq_iff.trans (and_iff_right rfl)

/-- What follows may look at the state. -/
theorem runs_state_bind_iff {f : Compiler → Compile β} :
    Runs (state >>= f) s b s' code ↔ Runs (f s) s b s' code :=
  Iff.rfl

theorem runs_update_bind_iff {g : Compiler → Compiler} {f : Unit → Compile β} :
    Runs (update g >>= f) s b s' code ↔ Runs (f ()) (g s) b s' code :=
  Iff.rfl

theorem runs_bind_pure_iff {f : α → β} :
    Runs (x >>= fun a => pure (f a)) s b s' code ↔ ∃ a, Runs x s a s' code ∧ b = f a := by
  rw [runs_bind_iff]
  constructor
  · rintro ⟨a, s₁, c₁, c₂, hx, hf, rfl⟩
    obtain ⟨rfl, rfl, rfl⟩ := runs_pure_iff.mp hf
    exact ⟨a, by rwa [append_nil], rfl⟩
  · rintro ⟨a, hx, rfl⟩
    exact ⟨a, s', code, [], hx, runs_pure_iff.mpr ⟨rfl, rfl, rfl⟩, by rw [append_nil]⟩

theorem runs_capture_iff {x : Compile Unit} {body : List Stmt} :
    Runs (capture x) s body s' code ↔ Runs x s () s' body ∧ code = [] := by
  unfold Runs capture
  cases x s with
  | mk result state written =>
    cases result with
    | error e =>
      constructor
      · intro h
        cases h
      · rintro ⟨h, -⟩
        cases h
    | ok u =>
      constructor
      · intro h
        cases h
        exact ⟨rfl, rfl⟩
      · rintro ⟨h, rfl⟩
        cases h
        rfl

theorem runs_finally_iff {leave : Compiler → Compiler} :
    Runs (finally_ x leave) s a s' code ↔ ∃ s₁, Runs x s a s₁ code ∧ s' = leave s₁ := by
  unfold Runs finally_
  cases x s with
  | mk result state written =>
    constructor
    · intro h
      cases h
      exact ⟨state, rfl, rfl⟩
    · rintro ⟨s₁, h, rfl⟩
      cases h
      rfl

theorem runs_inFrame_iff :
    Runs (inFrame formals x) s a s' code ↔
      ∃ s₁, Runs x (s.push formals) a s₁ code ∧ s' = s₁.pop := by
  unfold inFrame
  rw [runs_update_bind_iff, runs_finally_iff]

theorem runs_inBody_iff {d : Definition} :
    Runs (inBody d formals x) s a s' code ↔
      ∃ s₁, Runs x (s.enter d formals) a s₁ code ∧ s' = s₁.leave := by
  unfold inBody
  rw [runs_update_bind_iff, runs_finally_iff]
  constructor
  · rintro ⟨s₂, hframe, rfl⟩
    obtain ⟨s₁, hx, rfl⟩ := runs_inFrame_iff.mp hframe
    exact ⟨s₁, hx, rfl⟩
  · rintro ⟨s₁, hx, rfl⟩
    exact ⟨_, runs_inFrame_iff.mpr ⟨s₁, hx, rfl⟩, rfl⟩

end Rules

/-! ## Names and types -/

section Names

variable {s s' : Compiler} {code : List Stmt} {span : Span} {x : String} {t : ValueType}

theorem runs_valueType_iff {n : Surface.TypeName} :
    Runs (valueType n) s t s' code ↔ ValueType.ofName? n.name = some t ∧ s' = s ∧ code = [] := by
  unfold valueType
  cases ValueType.ofName? n.name with
  | none =>
    refine ⟨fun h => absurd h not_runs_fail, fun h => by cases h.1⟩
  | some u =>
    rw [runs_pure_iff, Option.some.injEq, eq_comm (a := u)]

theorem runs_valueType?_iff {n : Option Surface.TypeName} {t : Option ValueType} :
    Runs (valueType? n) s t s' code ↔
      n.mapM (fun n => ValueType.ofName? n.name) = some t ∧ s' = s ∧ code = [] := by
  unfold valueType?
  cases n with
  | none =>
    rw [runs_pure_iff]
    refine and_congr ?_ Iff.rfl
    exact ⟨fun h => h ▸ rfl, fun h => (Option.some.inj h).symm⟩
  | some n =>
    show Runs (valueType n >>= fun u => pure (some u)) s t s' code ↔ _
    rw [runs_bind_pure_iff]
    constructor
    · rintro ⟨u, h, rfl⟩
      obtain ⟨hu, rfl, rfl⟩ := runs_valueType_iff.mp h
      exact ⟨by simp [hu], rfl, rfl⟩
    · rintro ⟨h, rfl, rfl⟩
      cases hu : ValueType.ofName? n.name with
      | none => simp [hu] at h
      | some u =>
        obtain rfl : some u = t := by simpa [hu] using h
        exact ⟨u, runs_valueType_iff.mpr ⟨hu, rfl, rfl⟩, rfl⟩

theorem runs_defaultValue {v w : Option Value} (h : Runs (defaultValue span t v) s w s' code) :
    s' = s ∧ code = [] ∧ (∀ u ∈ w, t.accepts u = true) ∧
      w = (v <|> t.defaultValue?) := by
  unfold defaultValue at h
  cases v with
  | none =>
    obtain ⟨rfl, rfl, rfl⟩ := runs_pure_iff.mp h
    exact ⟨rfl, rfl, fun u hu => ValueType.accepts_defaultValue? hu, rfl⟩
  | some v =>
    dsimp only at h
    split at h
    · rename_i hv
      obtain ⟨rfl, rfl, rfl⟩ := runs_pure_iff.mp h
      refine ⟨rfl, rfl, ?_, rfl⟩
      intro u hu
      cases hu
      exact hv
    · exact absurd h not_runs_fail

theorem runs_declare_iff {y : String} :
    Runs (declare span x t) s y s' code ↔
      ∃ v scope, s.scope.declare x t = .ok (v, scope) ∧ y = v.unique ∧
        s' = { s with scope } ∧ code = [] := by
  unfold declare
  rw [runs_state_bind_iff]
  constructor
  · intro h
    split at h
    · rename_i v scope hdeclare
      rw [runs_update_bind_iff] at h
      obtain ⟨rfl, rfl, rfl⟩ := runs_pure_iff.mp h
      exact ⟨v, scope, hdeclare, rfl, rfl, rfl⟩
    · exact absurd h not_runs_fail
  · rintro ⟨v, scope, hdeclare, rfl, rfl, rfl⟩
    rw [hdeclare]
    exact runs_update_bind_iff.mpr (runs_pure_iff.mpr ⟨rfl, rfl, rfl⟩)

theorem runs_declareGlobal (h : Runs (declareGlobal span x t) s u s' code) :
    ∃ v scope, s.scope.declareGlobal x t = .ok (v, scope) ∧ s' = { s with scope } ∧ code = [] := by
  unfold declareGlobal at h
  rw [runs_state_bind_iff] at h
  split at h
  · rename_i v scope hdeclare
    obtain ⟨rfl, rfl⟩ := runs_update_iff.mp h
    exact ⟨v, scope, hdeclare, rfl, rfl⟩
  · exact absurd h not_runs_fail

theorem runs_temporary_iff {v : Variable} :
    Runs (temporary t) s v s' code ↔
      v = (s.scope.temporary t).1 ∧ s' = { s with scope := (s.scope.temporary t).2 } ∧
        code = [] := by
  unfold temporary
  rw [runs_state_bind_iff]
  dsimp only
  rw [runs_update_bind_iff, runs_pure_iff]

theorem runs_variable_iff {v : Variable} :
    Runs (variable_ span x) s v s' code ↔ s.scope.get? x = some v ∧ s' = s ∧ code = [] := by
  unfold variable_
  rw [runs_state_bind_iff]
  dsimp only
  cases s.scope.get? x with
  | none => exact ⟨fun h => absurd h not_runs_fail, fun h => by cases h.1⟩
  | some w => rw [runs_pure_iff, Option.some.injEq, eq_comm (a := w)]

theorem runs_coerce_iff {e e' : Expr} :
    Runs (coerce span e t) s e' s' code ↔
      (∃ rank, e.coerce? t = some (e', rank)) ∧ s' = s ∧ code = [] := by
  unfold coerce
  cases e.coerce? t with
  | none =>
    refine ⟨fun h => absurd h not_runs_fail, fun h => ?_⟩
    obtain ⟨⟨rank, hrank⟩, -⟩ := h
    cases hrank
  | some r =>
    obtain ⟨e₁, rank⟩ := r
    rw [runs_pure_iff]
    refine and_congr ⟨?_, ?_⟩ Iff.rfl
    · rintro rfl
      exact ⟨rank, rfl⟩
    · rintro ⟨rank', hrank⟩
      cases hrank
      rfl

theorem runs_recordOutput (h : Runs (recordOutput span x t) s u s' code) :
    code = [] ∧
      (s' = s ∧ (∃ first, s.outputs.get? x = some (t, first)) ∨
        s.outputs.get? x = none ∧ s' = { s with outputs := s.outputs.insert x (t, span) }) := by
  unfold recordOutput at h
  rw [runs_state_bind_iff] at h
  split at h
  · rename_i hget
    obtain ⟨rfl, rfl⟩ := runs_update_iff.mp h
    exact ⟨rfl, .inr ⟨hget, rfl⟩⟩
  · rename_i first firstSpan hget
    split at h
    · rename_i ht
      obtain ⟨-, rfl, rfl⟩ := runs_pure_iff.mp h
      exact ⟨rfl, .inl ⟨rfl, firstSpan, ht ▸ hget⟩⟩
    · exact absurd h not_runs_fail

end Names

/-! ## Calls -/

section Calls

variable {expand : Expander} {s s' : Compiler} {code : List Stmt} {span : Span} {name : String}
  {args : Arguments}

variable {d : Definition} {r : Option Expr} {e : Expr} {es : List Expr}

theorem call_of_defined {fit : Fit} (h : s.resolver.resolve name args = .ok (.defined d, fit))
    (span : Span) :
    call expand span name args s = expand span d fit.args s := by
  have hstate : state s = ⟨.ok s, s, []⟩ := rfl
  rw [call, bind_of_ok hstate]
  dsimp only
  rw [h]
  rfl

/-- A call is one of an intrinsic, or it is expanded. -/
theorem runs_call (h : Runs (call expand span name args) s r s' code) :
    (∃ i fit, s.resolver.resolve name args = .ok (.intrinsic i, fit) ∧
      r = some (.call i.returns i.internalName fit.args) ∧ s' = s ∧ code = []) ∨
    ∃ d fit, s.resolver.resolve name args = .ok (.defined d, fit) ∧
      Runs (expand span d fit.args) s r s' code := by
  unfold call at h
  rw [runs_state_bind_iff] at h
  dsimp only at h
  split at h
  · exact absurd h not_runs_fail
  · rename_i i fit hresolve
    obtain ⟨rfl, rfl, rfl⟩ := runs_pure_iff.mp h
    exact .inl ⟨i, fit, hresolve, rfl, rfl, rfl⟩
  · rename_i d fit hresolve
    exact .inr ⟨d, fit, hresolve, h⟩

theorem runs_callValue (h : Runs (callValue expand span name args) s e s' code) :
    Runs (call expand span name args) s (some e) s' code := by
  unfold callValue at h
  obtain ⟨r, s₁, c₁, c₂, h₁, h₂, rfl⟩ := runs_bind_iff.mp h
  split at h₂
  · obtain ⟨rfl, rfl, rfl⟩ := runs_pure_iff.mp h₂
    rwa [append_nil]
  · exact absurd h₂ not_runs_fail

/-- A call is expanded only outside of its own expansion. -/
theorem runs_expander_succ {n : Nat} (h : Runs (expander (n + 1) span d es) s r s' code) :
    d.key ∉ s.callStack ∧ Runs (expandWith (expander n) span d es) s r s' code := by
  rw [expander, runs_state_bind_iff] at h
  split at h
  · exact absurd h not_runs_fail
  · rename_i hkey
    exact ⟨hkey, h⟩

/-- Arguments go to temporaries, the body follows, and what it returns is converted. -/
theorem runs_expandWith {inner : Expander} (h : Runs (expandWith inner span d es) s r s' code) :
    ∃ returns formals s₁ c₁ value c₂,
      d.function.returns.mapM (fun n => ValueType.ofName? n.name) = some returns ∧
      Runs (temporaries (d.function.params.zip es) []) s formals s₁ c₁ ∧
      Runs (inBody d formals (body inner d.function.body)) s₁ value s' c₂ ∧
      code = c₁ ++ c₂ ∧
      ((∃ e t e' rank, value = some e ∧ returns = some t ∧ e.coerce? t = some (e', rank) ∧
        r = some e') ∨ (value = none ∨ returns = none) ∧ r = value) := by
  unfold expandWith at h
  obtain ⟨returns, _, _, c, h₁, h₂, rfl⟩ := runs_bind_iff.mp h
  obtain ⟨hreturns, rfl, rfl⟩ := runs_valueType?_iff.mp h₁
  obtain ⟨formals, s₁, c₁, c, hformals, h₃, rfl⟩ := runs_bind_iff.mp h₂
  obtain ⟨value, s₂, c₂, c, hvalue, h₄, rfl⟩ := runs_bind_iff.mp h₃
  refine ⟨returns, formals, s₁, c₁, value, c₂, hreturns, hformals, ?_⟩
  split at h₄
  · rename_i e t
    obtain ⟨e', h₅, rfl⟩ := runs_bind_pure_iff.mp h₄
    obtain ⟨⟨rank, hrank⟩, rfl, rfl⟩ := runs_coerce_iff.mp h₅
    refine ⟨hvalue, by simp, .inl ⟨e, t, e', rank, rfl, rfl, hrank, rfl⟩⟩
  · rename_i hother
    obtain ⟨rfl, rfl, rfl⟩ := runs_pure_iff.mp h₄
    refine ⟨hvalue, by simp, .inr ⟨?_, rfl⟩⟩
    cases r with
    | none => exact .inl rfl
    | some e =>
      cases returns with
      | none => exact .inr rfl
      | some t => exact (hother e t rfl rfl).elim

theorem runs_temporaries_cons {p : Surface.Param} {bound : List (Surface.Param × Expr)}
    {done : Dictionary String} (h : Runs (temporaries ((p, e) :: bound) done) s formals s' code) :
    ∃ v s₁ c, Runs (temporary e.type) s v s₁ [] ∧
      Runs (temporaries bound (done.insert p.name v.name)) s₁ formals s' c ∧
      code = .assign v.unique e :: c := by
  rw [temporaries] at h
  obtain ⟨v, s₁, _, c, h₁, h₂, rfl⟩ := runs_bind_iff.mp h
  obtain ⟨-, -, rfl⟩ := runs_temporary_iff.mp h₁
  obtain ⟨_, _, _, c, h₃, h₄, rfl⟩ := runs_bind_iff.mp h₂
  obtain ⟨rfl, rfl⟩ := runs_write_iff.mp h₃
  exact ⟨v, _, c, h₁, h₄, rfl⟩

end Calls

/-! ## Expressions -/

variable {keywords : List (String × Surface.Expr)} {e : Surface.Expr} {args : List Surface.Expr}

section Expressions

variable {expand : Expander} {s s' : Compiler} {code : List Stmt} {span : Span} {r : Expr}

/-- A name means a constant or, if there is none, a variable. -/
theorem runs_expr_name {x : String} (h : Runs (expr expand (.name span x)) s r s' code) :
    s' = s ∧ code = [] ∧
      ((∃ c, Catalog.constant? x = some c ∧ r = .const c.type c.value) ∨
        Catalog.constant? x = none ∧ ∃ v, s.scope.get? x = some v ∧ r = .var v.type v.unique) := by
  rw [expr] at h
  split at h
  · rename_i c hc
    obtain ⟨rfl, rfl, rfl⟩ := runs_pure_iff.mp h
    exact ⟨rfl, rfl, .inl ⟨c, hc, rfl⟩⟩
  · rename_i hc
    obtain ⟨v, h₁, rfl⟩ := runs_bind_pure_iff.mp h
    obtain ⟨hv, rfl, rfl⟩ := runs_variable_iff.mp h₁
    exact ⟨rfl, rfl, .inr ⟨hc, v, hv, rfl⟩⟩

theorem runs_access {e : Expr} {f : String} (h : Runs (lift (e.access span f)) s r s' code) :
    (∃ t, Catalog.fieldType? e.type f = some t ∧ r = .field t e f) ∧ s' = s ∧ code = [] := by
  obtain ⟨haccess, rfl, rfl⟩ := runs_lift_iff.mp h
  unfold Expr.access at haccess
  split at haccess
  · rename_i t ht
    cases haccess
    exact ⟨⟨t, ht, rfl⟩, rfl, rfl⟩
  · cases haccess

theorem runs_expr_field {base : Surface.Expr} {f : String}
    (h : Runs (expr expand (.field span base f)) s r s' code) :
    ∃ b t, Runs (expr expand base) s b s' code ∧ Catalog.fieldType? b.type f = some t ∧
      r = .field t b f := by
  rw [expr] at h
  obtain ⟨b, s₁, c₁, c₂, h₁, h₂, rfl⟩ := runs_bind_iff.mp h
  obtain ⟨⟨t, ht, rfl⟩, rfl, rfl⟩ := runs_access h₂
  exact ⟨b, t, by rwa [append_nil], ht, rfl⟩

theorem runs_expr_call {name : String}
    (h : Runs (expr expand (.call span name args keywords)) s r s' code) :
    ∃ es s₁ c₁ ks s₂ c₂ c₃, Runs (exprs expand args) s es s₁ c₁ ∧
      Runs (keywordExprs expand keywords) s₁ ks s₂ c₂ ∧
      Runs (call expand span name ⟨es, ks⟩) s₂ (some r) s' c₃ ∧ code = c₁ ++ (c₂ ++ c₃) := by
  rw [expr] at h
  obtain ⟨es, s₁, c₁, _, h₁, k₂, rfl⟩ := runs_bind_iff.mp h
  obtain ⟨ks, s₂, c₂, c₃, h₂, k₃, rfl⟩ := runs_bind_iff.mp k₂
  exact ⟨es, s₁, c₁, ks, s₂, c₂, c₃, h₁, h₂, runs_callValue k₃, rfl⟩

theorem runs_expr_unary {op : Surface.UnaryOp} {arg : Surface.Expr}
    (h : Runs (expr expand (.unary span op arg)) s r s' code) :
    ∃ e s₁ c₁ c₂, Runs (expr expand arg) s e s₁ c₁ ∧
      Runs (call expand span (Intrinsic.operatorName op.text) ⟨[e], []⟩) s₁ (some r) s' c₂ ∧
      code = c₁ ++ c₂ := by
  rw [expr] at h
  obtain ⟨e, s₁, c₁, c₂, h₁, k₂, rfl⟩ := runs_bind_iff.mp h
  exact ⟨e, s₁, c₁, c₂, h₁, runs_callValue k₂, rfl⟩

theorem runs_expr_binary {op : Surface.BinaryOp} {lhs rhs : Surface.Expr}
    (h : Runs (expr expand (.binary span op lhs rhs)) s r s' code) :
    ∃ a s₁ c₁ b s₂ c₂ c₃, Runs (expr expand lhs) s a s₁ c₁ ∧ Runs (expr expand rhs) s₁ b s₂ c₂ ∧
      Runs (call expand span (Intrinsic.operatorName op.text) ⟨[a, b], []⟩) s₂ (some r) s' c₃ ∧
      code = c₁ ++ (c₂ ++ c₃) := by
  rw [expr] at h
  obtain ⟨a, s₁, c₁, _, h₁, k₂, rfl⟩ := runs_bind_iff.mp h
  obtain ⟨b, s₂, c₂, c₃, h₂, k₃, rfl⟩ := runs_bind_iff.mp k₂
  exact ⟨a, s₁, c₁, b, s₂, c₂, c₃, h₁, h₂, runs_callValue k₃, rfl⟩

theorem runs_exprs_cons {es : List Surface.Expr} {rs : List Expr}
    (h : Runs (exprs expand (e :: es)) s rs s' code) :
    ∃ a s₁ c₁ as c₂, Runs (expr expand e) s a s₁ c₁ ∧ Runs (exprs expand es) s₁ as s' c₂ ∧
      rs = a :: as ∧ code = c₁ ++ c₂ := by
  rw [exprs] at h
  obtain ⟨a, s₁, c₁, _, h₁, k₂, rfl⟩ := runs_bind_iff.mp h
  obtain ⟨as, h₂, rfl⟩ := runs_bind_pure_iff.mp k₂
  exact ⟨a, s₁, c₁, as, _, h₁, h₂, rfl, rfl⟩

theorem runs_keywordExprs_cons {k : String} {es : List (String × Surface.Expr)}
    {rs : List (String × Expr)} (h : Runs (keywordExprs expand ((k, e) :: es)) s rs s' code) :
    ∃ a s₁ c₁ as c₂, Runs (expr expand e) s a s₁ c₁ ∧
      Runs (keywordExprs expand es) s₁ as s' c₂ ∧ rs = (k, a) :: as ∧ code = c₁ ++ c₂ := by
  rw [keywordExprs] at h
  obtain ⟨a, s₁, c₁, _, h₁, k₂, rfl⟩ := runs_bind_iff.mp h
  obtain ⟨as, h₂, rfl⟩ := runs_bind_pure_iff.mp k₂
  exact ⟨a, s₁, c₁, as, _, h₁, h₂, rfl, rfl⟩

end Expressions

/-! ## Statements -/

section Statements

variable {expand : Expander} {s s' : Compiler} {code : List Stmt} {span : Span} {u : Unit}

theorem runs_attributes_cons {a : Surface.Attribute} {as : List Surface.Attribute}
    {done r : Dictionary Expr} (h : Runs (attributes expand (a :: as) done) s r s' code) :
    ∃ e s₁ c₁ s₂ c₂, Runs (expr expand a.value) s e s₁ c₁ ∧
      Runs (recordOutput a.span a.name e.type) s₁ () s₂ [] ∧
      Runs (attributes expand as (done.insert a.name e)) s₂ r s' c₂ ∧ code = c₁ ++ c₂ := by
  rw [attributes] at h
  obtain ⟨e, s₁, c₁, _, h₁, k₂, rfl⟩ := runs_bind_iff.mp h
  obtain ⟨_, s₂, _, c₂, h₂, k₃, rfl⟩ := runs_bind_iff.mp k₂
  obtain ⟨rfl, -⟩ := runs_recordOutput h₂
  exact ⟨e, s₁, c₁, s₂, c₂, h₁, h₂, k₃, rfl⟩

theorem runs_vertices_cons {v : List Surface.Attribute} {vs : List (List Surface.Attribute)}
    (h : Runs (vertices expand (v :: vs)) s u s' code) :
    ∃ attrs s₁ c₁ c₂, Runs (attributes expand v []) s attrs s₁ c₁ ∧
      Runs (vertices expand vs) s₁ () s' c₂ ∧ code = c₁ ++ .emit attrs :: c₂ := by
  rw [vertices] at h
  obtain ⟨attrs, s₁, c₁, _, h₁, k₂, rfl⟩ := runs_bind_iff.mp h
  obtain ⟨_, _, _, c₂, h₂, k₃, rfl⟩ := runs_bind_iff.mp k₂
  obtain ⟨rfl, rfl⟩ := runs_write_iff.mp h₂
  exact ⟨attrs, _, c₁, c₂, h₁, k₃, rfl⟩

variable {x : String} {st : Surface.Stmt} {ss : List Surface.Stmt}

/-- A declaration has a value to start with, or at least a type. -/
theorem runs_declaration {type : Option Surface.TypeName} {init : Option Surface.Expr}
    (h : Runs (declaration expand span x type init) s u s' code) :
    ∃ type', type.mapM (fun n => ValueType.ofName? n.name) = some type' ∧
      ((∃ value e s₁ c₁ y e' rank, init = some value ∧ Runs (expr expand value) s e s₁ c₁ ∧
        Runs (declare span x (type'.getD e.type)) s₁ y s' [] ∧
        e.coerce? (type'.getD e.type) = some (e', rank) ∧ code = c₁ ++ [.assign y e']) ∨
      ∃ t y, init = none ∧ type' = some t ∧ Runs (declare span x t) s y s' [] ∧ code = []) := by
  unfold declaration at h
  obtain ⟨type', _, _, _, h₁, k₂, rfl⟩ := runs_bind_iff.mp h
  obtain ⟨htype, rfl, rfl⟩ := runs_valueType?_iff.mp h₁
  refine ⟨type', htype, ?_⟩
  split at k₂
  · rename_i value
    obtain ⟨e, s₁, c₁, _, h₂, k₃, rfl⟩ := runs_bind_iff.mp k₂
    obtain ⟨y, s₂, _, _, h₃, k₄, rfl⟩ := runs_bind_iff.mp k₃
    obtain ⟨e', _, _, _, h₄, k₅, rfl⟩ := runs_bind_iff.mp k₄
    obtain ⟨⟨rank, hrank⟩, rfl, rfl⟩ := runs_coerce_iff.mp h₄
    obtain ⟨rfl, rfl⟩ := runs_write_iff.mp k₅
    obtain ⟨_, _, _, _, _, rfl⟩ := runs_declare_iff.mp h₃
    exact .inl ⟨value, e, s₁, c₁, y, e', rank, rfl, h₂, h₃, hrank, rfl⟩
  · rename_i t
    obtain ⟨y, h₂, -⟩ := runs_bind_pure_iff.mp k₂
    obtain ⟨_, _, _, _, _, rfl⟩ := runs_declare_iff.mp h₂
    exact .inr ⟨t, y, rfl, rfl, h₂, rfl⟩
  · exact absurd k₂ not_runs_fail

theorem runs_assignment {value : Surface.Expr}
    (h : Runs (assignment expand span x value) s u s' code) :
    ∃ e c v e' rank, Runs (expr expand value) s e s' c ∧ s'.scope.get? x = some v ∧
      e.coerce? v.type = some (e', rank) ∧ code = c ++ [.assign v.unique e'] := by
  unfold assignment at h
  obtain ⟨e, s₁, c, _, h₁, k₂, rfl⟩ := runs_bind_iff.mp h
  obtain ⟨v, _, _, _, h₂, k₃, rfl⟩ := runs_bind_iff.mp k₂
  obtain ⟨hv, rfl, rfl⟩ := runs_variable_iff.mp h₂
  obtain ⟨e', _, _, _, h₃, k₄, rfl⟩ := runs_bind_iff.mp k₃
  obtain ⟨⟨rank, hrank⟩, rfl, rfl⟩ := runs_coerce_iff.mp h₃
  obtain ⟨rfl, rfl⟩ := runs_write_iff.mp k₄
  exact ⟨e, c, v, e', rank, h₁, hv, hrank, rfl⟩

theorem runs_condition {test : Surface.Expr} {thenStep elseStep : Compile Unit}
    (h : Runs (condition expand test thenStep elseStep) s u s' code) :
    ∃ e s₁ c e' rank s₂ thenBody elseBody, Runs (expr expand test) s e s₁ c ∧
      e.coerce? .bool = some (e', rank) ∧ Runs thenStep s₁ () s₂ thenBody ∧
      Runs elseStep s₂ () s' elseBody ∧ code = c ++ [.condition e' thenBody elseBody] := by
  unfold condition at h
  obtain ⟨e, s₁, c, _, h₁, k₂, rfl⟩ := runs_bind_iff.mp h
  obtain ⟨e', _, _, _, h₂, k₃, rfl⟩ := runs_bind_iff.mp k₂
  obtain ⟨⟨rank, hrank⟩, rfl, rfl⟩ := runs_coerce_iff.mp h₂
  obtain ⟨thenBody, s₂, _, _, h₃, k₄, rfl⟩ := runs_bind_iff.mp k₃
  obtain ⟨hthen, rfl⟩ := runs_capture_iff.mp h₃
  obtain ⟨elseBody, s₃, _, _, h₄, k₅, rfl⟩ := runs_bind_iff.mp k₄
  obtain ⟨helse, rfl⟩ := runs_capture_iff.mp h₄
  obtain ⟨rfl, rfl⟩ := runs_write_iff.mp k₅
  exact ⟨e, _, c, e', rank, s₂, thenBody, elseBody, h₁, hrank, hthen, helse, rfl⟩

/-- The variable and the body of a loop are in a frame of their own. -/
theorem runs_loop {first last : Int} {body : Surface.Stmt}
    (h : Runs (stmt expand (.loop span x first last body)) s u s' code) :
    ∃ y s₁ s₂ written,
      Runs (declare span x .int) (s.push []) y s₁ [] ∧
      Runs (stmt expand body) s₁ () s₂ written ∧ s' = s₂.pop ∧
      code = [.loop y first last written] := by
  rw [stmt] at h
  obtain ⟨loop, s₂, _, _, h₁, k₂, rfl⟩ := runs_bind_iff.mp h
  obtain ⟨rfl, rfl⟩ := runs_write_iff.mp k₂
  obtain ⟨s₂, k₃, rfl⟩ := runs_inFrame_iff.mp h₁
  obtain ⟨y, s₁, _, _, h₃, k₄, rfl⟩ := runs_bind_iff.mp k₃
  obtain ⟨written, h₄, rfl⟩ := runs_bind_pure_iff.mp k₄
  obtain ⟨hbody, rfl⟩ := runs_capture_iff.mp h₄
  obtain ⟨_, _, _, _, _, rfl⟩ := runs_declare_iff.mp h₃
  exact ⟨y, s₁, _, written, h₃, hbody, rfl, rfl⟩

/-- A call whose value is not used, if it has one. -/
theorem runs_stmt_call {name : String}
    (h : Runs (stmt expand (.expr (.call span name args keywords))) s u s' code) :
    ∃ es s₁ c₁ ks s₂ c₂ r c₃, Runs (exprs expand args) s es s₁ c₁ ∧
      Runs (keywordExprs expand keywords) s₁ ks s₂ c₂ ∧
      Runs (call expand span name ⟨es, ks⟩) s₂ r s' c₃ ∧ code = c₁ ++ (c₂ ++ c₃) := by
  rw [stmt] at h
  obtain ⟨es, s₁, c₁, _, h₁, k₂, rfl⟩ := runs_bind_iff.mp h
  obtain ⟨ks, s₂, c₂, _, h₂, k₃, rfl⟩ := runs_bind_iff.mp k₂
  obtain ⟨r, h₃, -⟩ := runs_bind_pure_iff.mp k₃
  exact ⟨es, s₁, c₁, ks, s₂, c₂, r, _, h₁, h₂, h₃, rfl⟩

/-- The value of an expression that is no call is not used. -/
theorem runs_stmt_expr (he : ∀ span name args keywords, e ≠ .call span name args keywords)
    (h : Runs (stmt expand (.expr e)) s u s' code) : ∃ r, Runs (expr expand e) s r s' code := by
  rw [stmt] at h
  · obtain ⟨r, h₁, -⟩ := runs_bind_pure_iff.mp h
    exact ⟨r, h₁⟩
  · exact he

theorem runs_stmts_cons (h : Runs (stmts expand (st :: ss)) s u s' code) :
    ∃ s₁ c₁ c₂, Runs (stmt expand st) s () s₁ c₁ ∧ Runs (stmts expand ss) s₁ () s' c₂ ∧
      code = c₁ ++ c₂ := by
  rw [stmts] at h
  obtain ⟨_, s₁, c₁, c₂, h₁, k₂, rfl⟩ := runs_bind_iff.mp h
  exact ⟨s₁, c₁, c₂, h₁, k₂, rfl⟩

/-- A body ends at a `return`, and goes on behind any other statement. -/
theorem runs_body_cons {r : Option Expr} (h : Runs (body expand (st :: ss)) s r s' code) :
    (∃ span e a, st = .return_ span e ∧ Runs (expr expand e) s a s' code ∧ r = some a) ∨
    (∀ span e, st ≠ .return_ span e) ∧
      ∃ s₁ c₁ c₂, Runs (stmt expand st) s () s₁ c₁ ∧ Runs (body expand ss) s₁ r s' c₂ ∧
        code = c₁ ++ c₂ := by
  unfold body at h
  split at h
  · rename_i heq
    cases heq
  · rename_i span e rest heq
    cases heq
    obtain ⟨a, h₁, rfl⟩ := runs_bind_pure_iff.mp h
    exact .inl ⟨span, e, a, rfl, h₁, rfl⟩
  · rename_i st' ss' hreturn heq
    cases heq
    obtain ⟨_, s₁, c₁, c₂, h₁, k₂, rfl⟩ := runs_bind_iff.mp h
    exact .inr ⟨fun span e hst => hreturn span e hst, s₁, c₁, c₂, h₁, k₂, rfl⟩

end Statements

end Compile

end DataMarks
