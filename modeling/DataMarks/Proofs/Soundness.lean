/-
  Evaluation of well-typed specifications: it ends with vertices whose attributes have the
  types of the outputs, or fails in one of the ways that types do not rule out.

  Values in the environment have the shapes of the declared types (`EnvTyped`); an
  expression keeps within that (`Expr.eval_safe`), and so do a statement and a loop
  (`Stmt.runAll_safe`).
-/
import DataMarks.Proofs.Run
import DataMarks.Proofs.Typing

namespace DataMarks

open Dictionary List

/-- The failures of a well-typed specification: an input that is not given, a variable that is read
before it is assigned, an intrinsic of the drawing platform, a quotient or remainder of integers by
zero. -/
def EvalError.Expected (s : Specification) (given : Dictionary Value) : EvalError → Prop
  | missingInput x => ∃ input, (x, input) ∈ s.inputs ∧ input.default = none ∧ given.get? x = none
  | undefinedVariable x => x ∈ s.locals.keys ∧ x ∉ s.inputs.keys
  | unsupported f => ∃ i, Catalog.find? f = some i ∧ i.operation = none
  | outsideDomain f => f ∈ Catalog.partialNames
  | undefinedField .. => False

section Safe

variable {s : Specification} {given : Dictionary Value}

/-- An evaluation that gives what is wanted or fails in an expected way. -/
def Safe (s : Specification) (given : Dictionary Value) {α : Type} (wanted : α → Prop) :
    Except EvalError α → Prop
  | .ok a => wanted a
  | .error e => e.Expected s given

theorem Safe.bind {α β : Type} {P : α → Prop} {Q : β → Prop} {x : Except EvalError α}
    {f : α → Except EvalError β} (hx : Safe s given P x) (hf : ∀ a, P a → Safe s given Q (f a)) :
    Safe s given Q (x >>= f) := by
  cases x with
  | error e => exact hx
  | ok a => exact hf a hx

/-- All inputs have a value, and every value has the shape of the declared type. -/
structure EnvTyped (s : Specification) (env : Env) : Prop where
  inputs : ∀ x ∈ s.inputs.keys, (env.get? x).isSome
  typed : ∀ x v, env.get? x = some v → ∃ t, s.declaredType? x = some t ∧ t.accepts v = true

variable {env : Env} {x : String} {t : ValueType} {vs : List Value}

theorem EnvTyped.insert (h : EnvTyped s env) {v : Value} (hx : s.declaredType? x = some t)
    (hv : t.accepts v = true) : EnvTyped s (env.insert x v) := by
  refine ⟨fun y hy => ?_, fun y w hw => ?_⟩
  · rw [get?_insert]
    split
    · rfl
    · exact h.inputs y hy
  · rcases get?_insert_cases hw with ⟨rfl, rfl⟩ | hw
    · exact ⟨t, hx, hv⟩
    · exact h.typed y w hw

/-! ## Expressions -/

/-- A declared variable without a value is not an input. -/
theorem EnvTyped.mem_locals (h : EnvTyped s env) (hx : s.declaredType? x = some t)
    (hnone : env.get? x = none) :
    x ∈ s.locals.keys ∧ x ∉ s.inputs.keys := by
  have hinput : x ∉ s.inputs.keys := by
    intro hmem
    have hsome := h.inputs x hmem
    rw [hnone] at hsome
    cases hsome
  refine ⟨?_, hinput⟩
  rw [mem_keys_iff] at hinput ⊢
  unfold Specification.declaredType? at hx
  rw [Option.not_isSome_iff_eq_none.mp hinput] at hx
  exact Option.isSome_of_mem hx

theorem mapM_shape?_of_accepts {ts : List ValueType}
    (h : Forall₂ (fun t v => t.accepts v = true) ts vs) :
    ts.mapM ValueType.shape? = some (vs.map Value.shape) := by
  induction h with
  | nil => rfl
  | cons hv _ ih =>
    rw [mapM_cons, ValueType.accepts_iff.mp hv, ih]
    rfl

/-- An intrinsic run on values of its parameters' types. -/
theorem operation_safe {f : String} {i : Intrinsic} {o : Operation} (hf : Catalog.find? f = some i)
    (ho : i.operation = some o) (hvs : Forall₂ (fun t v => t.accepts v = true) i.params vs) :
    (∃ v, o.run vs = some v ∧ i.returns.accepts v = true) ∨
      o.run vs = none ∧ f ∈ Catalog.partialNames := by
  obtain ⟨hmem, rfl⟩ := Catalog.mem_of_find? hf
  obtain ⟨hshape, hsome⟩ :=
    Catalog.wellShaped_of_mem i hmem o ho _ (mapM_shape?_of_accepts hvs)
  obtain ⟨shape, hreturns⟩ := Option.isSome_iff_exists.mp hsome
  rw [hreturns] at hshape
  obtain ⟨v, hv, rfl⟩ | ⟨hpartial, hnone⟩ := Operation.run_of_shape? hshape
  · exact .inl ⟨v, hv, ValueType.accepts_iff.mpr hreturns⟩
  · exact .inr ⟨hnone, Catalog.mem_partialNames i hmem o ho hpartial⟩

mutual

/-- A well-typed expression has a value of its type, or fails in an expected way. -/
theorem Expr.eval_safe {env : Env} (henv : EnvTyped s env) : ∀ {e : Expr}, e.WellTyped →
    (∀ r ∈ e.reads, s.declaredType? r.1 = some r.2) →
    Safe s given (fun v => e.type.accepts v = true) (e.eval env)
  | .const t v, hw, _ => by
    rw [WellTyped] at hw
    rw [eval]
    exact hw
  | .var t x, _, hr => by
    rw [reads] at hr
    have hx : s.declaredType? x = some t := hr (x, t) mem_cons_self
    rw [eval]
    split
    · rename_i v hv
      obtain ⟨t', ht', hv⟩ := henv.typed x v hv
      rw [hx] at ht'
      cases ht'
      exact hv
    · rename_i hnone
      exact henv.mem_locals hx hnone
  | .field t base f, hw, hr => by
    rw [WellTyped] at hw
    rw [reads] at hr
    rw [eval]
    refine (eval_safe henv hw.1 hr).bind fun v hv => ?_
    obtain ⟨x, hx, hxt⟩ := Catalog.field?_of_accepts hw.2 hv
    rw [hx]
    exact hxt
  | .call t f args, hw, hr => by
    rw [WellTyped] at hw
    rw [reads] at hr
    obtain ⟨hargs, i, hf, hparams, rfl⟩ := hw
    have hop : operation? f = i.operation := by
      unfold operation?
      rw [hf]
      rfl
    rw [eval, hop]
    split
    · rename_i hnone
      exact ⟨i, hf, hnone⟩
    · rename_i o ho
      refine (evalAll_safe henv hargs hr).bind fun vs hvs => ?_
      rw [← hparams] at hvs
      obtain ⟨v, hv, hacc⟩ | ⟨hnone, hname⟩ := operation_safe hf ho hvs
      · rw [hv]
        exact hacc
      · rw [hnone]
        exact hname

theorem Expr.evalAll_safe {env : Env} (henv : EnvTyped s env) : ∀ {es : List Expr},
    WellTypedAll es → (∀ r ∈ readsAll es, s.declaredType? r.1 = some r.2) →
    Safe s given (fun vs => Forall₂ (fun t v => t.accepts v = true) (es.map type) vs)
      (evalAll env es)
  | [], _, _ => by
    rw [evalAll]
    exact .nil
  | e :: es, hw, hr => by
    rw [WellTypedAll] at hw
    rw [readsAll] at hr
    rw [evalAll]
    refine (eval_safe henv hw.1 fun r h => hr r (mem_append_left _ h)).bind fun v hv => ?_
    refine (evalAll_safe henv hw.2 fun r h => hr r (mem_append_right _ h)).bind fun vs hvs => ?_
    exact .cons hv hvs

end

/-! ## Statements -/

/-- Every attribute has the type of its output. -/
def VertexTyped (s : Specification) (vertex : Vertex) : Prop :=
  ∀ a ∈ vertex, ∃ t, s.outputs.get? a.1 = some t ∧ t.accepts a.2 = true

def Outcome.Typed (s : Specification) : Outcome → Prop
  | finished env vs => EnvTyped s env ∧ ∀ v ∈ vs, VertexTyped s v
  | discarded => True

theorem emitVertex_safe (henv : EnvTyped s env) {attributes : Dictionary Expr}
    (hw : ∀ a ∈ attributes, a.2.WellTyped)
    (hr : ∀ a ∈ attributes, ∀ r ∈ a.2.reads, s.declaredType? r.1 = some r.2)
    (ho : ∀ a ∈ attributes, s.outputs.get? a.1 = some a.2.type) :
    Safe s given (VertexTyped s) (emitVertex env attributes) := by
  induction attributes with
  | nil =>
    intro a ha
    cases ha
  | cons a rest ih =>
    obtain ⟨name, e⟩ := a
    rw [emitVertex_cons]
    have hfirst : (name, e) ∈ (name, e) :: rest := mem_cons_self
    refine (Expr.eval_safe henv (hw _ hfirst) (hr _ hfirst)).bind fun v hv => ?_
    refine (ih (fun a ha => hw a (mem_cons_of_mem _ ha))
      (fun a ha => hr a (mem_cons_of_mem _ ha))
      (fun a ha => ho a (mem_cons_of_mem _ ha))).bind fun vertex hvertex => ?_
    intro b hb
    obtain rfl | hb := mem_cons.mp hb
    · exact ⟨e.type, ho _ hfirst, hv⟩
    · exact hvertex b hb

theorem andThen_safe {o : Outcome} {next : Env → Except EvalError Outcome} (ho : o.Typed s)
    (hnext : ∀ env, EnvTyped s env → Safe s given (Outcome.Typed s) (next env)) :
    Safe s given (Outcome.Typed s) (o.andThen next) := by
  cases o with
  | discarded => trivial
  | finished env vs =>
    refine (hnext env ho.1).bind fun o' ho' => ?_
    cases o' with
    | discarded => trivial
    | finished env' ws =>
      refine ⟨ho'.1, fun v hv => ?_⟩
      obtain hv | hv := mem_append.mp hv
      · exact ho.2 v hv
      · exact ho'.2 v hv

theorem iterate_safe {body : Int → Env → Except EvalError Outcome}
    (hbody : ∀ i env, EnvTyped s env → Safe s given (Outcome.Typed s) (body i env)) (n : Nat)
    (i : Int) (henv : EnvTyped s env) :
    Safe s given (Outcome.Typed s) (iterate body n i env) := by
  induction n generalizing i env with
  | zero =>
    rw [iterate]
    exact ⟨henv, fun v hv => by cases hv⟩
  | succ n ih =>
    rw [iterate]
    exact (hbody i env henv).bind fun o ho => andThen_safe ho fun env henv => ih (i + 1) henv

/-- Code that can be run: its expressions are well typed, its variables are declared, and it emits
what the outputs say. -/
structure Stmt.Fits (s : Specification) (exprs : List Expr) (mentions : List (String × ValueType))
    (emits : List (Dictionary Expr)) : Prop where
  exprs : ∀ e ∈ exprs, e.WellTyped
  mentions : ∀ m ∈ mentions, s.declaredType? m.1 = some m.2
  emits : ∀ attributes ∈ emits, ∀ a ∈ attributes, s.outputs.get? a.1 = some a.2.type

theorem Stmt.Fits.mono {es es' : List Expr} {ms ms' : List (String × ValueType)}
    {vs vs' : List (Dictionary Expr)} (h : Fits s es ms vs) (he : es' ⊆ es) (hm : ms' ⊆ ms)
    (hv : vs' ⊆ vs) : Fits s es' ms' vs' :=
  ⟨fun e h' => h.exprs e (he h'), fun m h' => h.mentions m (hm h'), fun v h' => h.emits v (hv h')⟩

mutual

theorem Stmt.run_safe : ∀ {c : Stmt} {env : Env}, Fits s c.exprs c.mentions c.emits →
    EnvTyped s env → Safe s given (Outcome.Typed s) (c.run env)
  | .assign x e, env, h, henv => by
    rw [exprs, mentions] at h
    rw [run]
    refine (Expr.eval_safe henv (h.exprs e mem_cons_self)
      fun r hr => h.mentions r (mem_cons_of_mem _ hr)).bind fun v hv => ?_
    exact ⟨henv.insert (h.mentions _ mem_cons_self) hv, fun v hv => by cases hv⟩
  | .emit attributes, env, h, henv => by
    rw [exprs, mentions, emits] at h
    rw [run]
    refine (emitVertex_safe henv (fun a ha => h.exprs _ (mem_map_of_mem ha))
      (fun a ha r hr => h.mentions r (mem_flatMap.mpr ⟨a, ha, hr⟩))
      (h.emits _ mem_cons_self)).bind fun vertex hvertex => ?_
    refine ⟨henv, fun v hv => ?_⟩
    obtain rfl := mem_singleton.mp hv
    exact hvertex
  | .condition test thenBody elseBody, env, h, henv => by
    rw [exprs, mentions, emits] at h
    rw [run]
    refine (Expr.eval_safe henv (h.exprs _ mem_cons_self)
      fun r hr => h.mentions r (mem_append_left _ (mem_append_left _ hr))).bind
      fun v _ => ?_
    split
    · exact runAll_safe (h.mono (fun e he => mem_cons_of_mem _ (mem_append_left _ he))
        (fun m hm => mem_append_left _ (mem_append_right _ hm))
        (subset_append_left _ _)) henv
    · exact runAll_safe (h.mono (fun e he => mem_cons_of_mem _ (mem_append_right _ he))
        (subset_append_right _ _) (subset_append_right _ _)) henv
  | .loop x first last body, env, h, henv => by
    rw [exprs, mentions, emits] at h
    rw [run]
    refine iterate_safe (fun i env henv => ?_) _ _ henv
    exact runAll_safe (h.mono (fun e he => he) (fun m hm => mem_cons_of_mem _ hm) (fun v hv => hv))
      (henv.insert (h.mentions _ mem_cons_self) rfl)
  | .discard, env, _, _ => by
    rw [run]
    trivial

/-- Well-typed code keeps the environment typed and emits typed vertices, or fails in an expected
way. -/
theorem Stmt.runAll_safe : ∀ {cs : List Stmt} {env : Env},
    Fits s (exprsAll cs) (mentionsAll cs) (emitsAll cs) → EnvTyped s env →
    Safe s given (Outcome.Typed s) (runAll cs env)
  | [], env, _, henv => by
    rw [runAll]
    exact ⟨henv, fun v hv => by cases hv⟩
  | c :: cs, env, h, henv => by
    rw [exprsAll, mentionsAll, emitsAll] at h
    rw [runAll]
    refine (run_safe (h.mono (subset_append_left _ _) (subset_append_left _ _)
      (subset_append_left _ _)) henv).bind fun o ho => ?_
    exact andThen_safe ho fun env henv => runAll_safe (h.mono (subset_append_right _ _)
      (subset_append_right _ _) (subset_append_right _ _)) henv

end

end Safe

/-! ## Specifications -/

namespace Specification

variable {s : Specification} {given : Dictionary Value}

theorem get?_of_bindInputs {inputs : Dictionary Input} {env : Env}
    (h : bindInputs given inputs = .ok env) (x : String) :
    env.get? x = (inputs.get? x).bind fun input => given.get? x <|> input.default := by
  induction inputs generalizing env with
  | nil =>
    rw [bindInputs] at h
    cases h
    rfl
  | cons entry inputs ih =>
    obtain ⟨y, input⟩ := entry
    rw [bindInputs] at h
    split at h
    · cases h
    · rename_i v hv
      obtain ⟨rest, hrest, henv⟩ := bind_ok.mp h
      cases henv
      rw [get?_cons, get?_cons]
      split
      · rename_i hxy
        subst hxy
        exact hv.symm
      · exact ih hrest

theorem bindInputs_error {inputs : Dictionary Input} {e : EvalError}
    (h : bindInputs given inputs = .error e) :
    ∃ x input, e = .missingInput x ∧ (x, input) ∈ inputs ∧ input.default = none ∧
      given.get? x = none := by
  induction inputs with
  | nil =>
    rw [bindInputs] at h
    cases h
  | cons entry inputs ih =>
    obtain ⟨y, input⟩ := entry
    rw [bindInputs] at h
    split at h
    · rename_i hnone
      cases h
      cases hg : given.get? y with
      | some v =>
        rw [hg] at hnone
        cases hnone
      | none =>
        rw [hg] at hnone
        exact ⟨y, input, rfl, mem_cons_self, hnone, hg⟩
    · cases hrest : bindInputs given inputs with
      | error e' =>
        rw [hrest] at h
        cases h
        obtain ⟨x, input, he, hmem, hnone⟩ := ih hrest
        exact ⟨x, input, he, mem_cons_of_mem _ hmem, hnone⟩
      | ok rest =>
        rw [hrest] at h
        cases h

theorem bindInputs_safe (h : s.WellTyped)
    (hgiven : ∀ x input v, s.inputs.get? x = some input → given.get? x = some v →
      input.type.accepts v = true) :
    Safe s given (EnvTyped s) (bindInputs given s.inputs) := by
  cases hbind : bindInputs given s.inputs with
  | error e =>
    obtain ⟨x, input, rfl, hnone⟩ := bindInputs_error hbind
    exact ⟨input, hnone⟩
  | ok env =>
    have hget := get?_of_bindInputs hbind
    refine ⟨fun x hx => ?_, fun x v hv => ?_⟩
    · rw [← keys_of_bindInputs hbind, mem_keys_iff] at hx
      exact hx
    · rw [hget, Option.bind_eq_some_iff] at hv
      obtain ⟨input, hinput, hv⟩ := hv
      refine ⟨input.type, by rw [declaredType?, hinput]; rfl, ?_⟩
      cases hg : given.get? x with
      | some w =>
        rw [hg] at hv
        cases hv
        exact hgiven x input v hinput hg
      | none =>
        rw [hg] at hv
        exact h.defaults x input v hinput hv

/-- A well-typed specification, given values of the types of its inputs, emits vertices of the
types of its outputs, or fails in an expected way. -/
theorem evaluate_safe (h : s.WellTyped)
    (hgiven : ∀ x input v, s.inputs.get? x = some input → given.get? x = some v →
      input.type.accepts v = true) :
    (∀ vs, s.evaluate given = .ok vs → ∀ vertex ∈ vs, ∀ a ∈ vertex,
        ∃ t, s.outputs.get? a.1 = some t ∧ t.accepts a.2 = true) ∧
      ∀ e, s.evaluate given = .error e → e.Expected s given := by
  have hfits : Stmt.Fits s (Stmt.exprsAll s.statements) (Stmt.mentionsAll s.statements)
      (Stmt.emitsAll s.statements) :=
    ⟨h.exprs, declaredType?_of_undeclared_nil h.declared, h.emitted⟩
  have hsafe : Safe s given (fun vs => ∀ vertex ∈ vs, VertexTyped s vertex) (s.evaluate given) := by
    refine (bindInputs_safe h hgiven).bind fun env henv => ?_
    refine (Stmt.runAll_safe hfits henv).bind fun o ho => ?_
    cases o with
    | discarded =>
      intro vertex hvertex
      cases hvertex
    | finished env vs => exact ho.2
  constructor
  · intro vs hvs
    rw [hvs] at hsafe
    exact hsafe
  · intro e he
    rw [he] at hsafe
    exact hsafe

/-- The direction of a point and a part of its index, with a loop and a condition. -/
def arrows : Specification where
  inputs := [("at", { type := .vector2, default := none }),
    ("index", { type := .int, default := some (.scalar 7) })]
  outputs := [("position", .vector2), ("part", .int)]
  locals := [("i", .int), ("p", .vector2)]
  statements :=
    [.loop "i" 1 2
      [.assign "p" (.binary "*" (.var .vector2 "at") (.intrinsic "float" [.var .int "i"] .float)),
       .condition (.test "<" (.field .float (.var .vector2 "p") "y") (.const .float (.scalar 9)))
        [.emit [("position", .intrinsic "normalize" [.var .vector2 "p"] .vector2),
          ("part", .binary "/" (.var .int "index") (.var .int "i"))]]
        []]]

theorem evaluate_safe_arrows :
    arrows.evaluate [("at", .vector [3, 4])] =
      .ok [[("position", .vector [0.6, 0.8]), ("part", .scalar 7)],
        [("position", .vector [0.6, 0.8]), ("part", .scalar 3)]] ∧
    (∀ vs, arrows.evaluate [("at", .vector [3, 4])] = .ok vs → ∀ vertex ∈ vs, ∀ a ∈ vertex,
        ∃ t, arrows.outputs.get? a.1 = some t ∧ t.accepts a.2 = true) ∧
      ∀ e, arrows.evaluate [("at", .vector [3, 4])] = .error e →
        e.Expected arrows [("at", .vector [3, 4])] := by
  have hdefaults : ∀ e ∈ arrows.inputs, ∀ v ∈ e.2.default, e.2.type.accepts v = true := by decide
  have htyped : arrows.WellTyped :=
    { declared := by decide
      exprs := by decide +kernel
      defaults := fun x input v hinput hv => hdefaults _ (Dictionary.mem_of_get? hinput) v hv
      emitted := by decide +kernel }
  have haccepted : ∀ e ∈ arrows.inputs, ∀ g ∈ ([("at", .vector [3, 4])] : Dictionary Value),
      e.1 = g.1 → e.2.type.accepts g.2 = true := by decide
  have hgiven : ∀ x input v, arrows.inputs.get? x = some input →
      Dictionary.get? [("at", .vector [3, 4])] x = some v → input.type.accepts v = true :=
    fun x input v hinput hv =>
      haccepted _ (Dictionary.mem_of_get? hinput) _ (Dictionary.mem_of_get? hv) rfl
  exact ⟨by decide +kernel, @evaluate_safe arrows _ htyped hgiven⟩

end Specification

end DataMarks
