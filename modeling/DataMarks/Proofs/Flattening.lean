/-
  Flattening keeps the meaning of a specification: evaluated for one index after the other,
  the flattened form gives the vertices of the original, in order and at most one at a time
  (`Specification.evaluate_flatten`).
-/
import DataMarks.Proofs.FlattenedRun

namespace DataMarks

open Dictionary List

/-! ## Runs without a discard -/

namespace Stmt

mutual

def NoDiscard : Stmt → Prop
  | assign .. | emit _ => True
  | discard => False
  | condition _ thenBody elseBody => NoDiscardAll thenBody ∧ NoDiscardAll elseBody
  | loop _ _ _ body => NoDiscardAll body

def NoDiscardAll : List Stmt → Prop
  | [] => True
  | s :: ss => s.NoDiscard ∧ NoDiscardAll ss

end

mutual

def decidableNoDiscard : (s : Stmt) → Decidable s.NoDiscard
  | assign .. | emit _ => inferInstanceAs (Decidable True)
  | discard => inferInstanceAs (Decidable False)
  | condition _ thenBody elseBody =>
    have := decidableNoDiscardAll thenBody
    have := decidableNoDiscardAll elseBody
    inferInstanceAs (Decidable (NoDiscardAll thenBody ∧ NoDiscardAll elseBody))
  | loop _ _ _ body => decidableNoDiscardAll body

def decidableNoDiscardAll : (ss : List Stmt) → Decidable (NoDiscardAll ss)
  | [] => inferInstanceAs (Decidable True)
  | s :: ss =>
    have := decidableNoDiscard s
    have := decidableNoDiscardAll ss
    inferInstanceAs (Decidable (s.NoDiscard ∧ NoDiscardAll ss))

end

instance (ss : List Stmt) : Decidable (NoDiscardAll ss) := decidableNoDiscardAll ss

end Stmt

theorem Outcome.bind_andThen_ne_discarded {x : Except EvalError Outcome}
    {next : Env → Except EvalError Outcome} (hx : x ≠ .ok .discarded)
    (hnext : ∀ env, next env ≠ .ok .discarded) :
    (x >>= fun o => o.andThen next) ≠ .ok .discarded := by
  rw [Ne, bind_ok]
  rintro ⟨o, ho, h⟩
  cases o with
  | discarded => exact hx ho
  | finished env vs =>
    obtain ⟨o, ho, h⟩ := bind_ok.mp h
    cases o with
    | discarded => exact hnext env ho
    | finished => cases h

theorem iterate_ne_discarded {body : Int → Env → Except EvalError Outcome}
    (hbody : ∀ i env, body i env ≠ .ok .discarded) (n : Nat) (i : Int) (env : Env) :
    iterate body n i env ≠ .ok .discarded := by
  induction n generalizing i env with
  | zero =>
    rw [iterate]
    exact fun h => by cases h
  | succ n ih =>
    rw [iterate]
    exact Outcome.bind_andThen_ne_discarded (hbody i env) (ih (i + 1))

mutual

theorem Stmt.run_ne_discarded : ∀ {s : Stmt} (env : Env), s.NoDiscard → s.run env ≠ .ok .discarded
  | .assign x e, env, _ => by
    rw [run, Ne, bind_ok]
    rintro ⟨v, -, h⟩
    cases h
  | .emit _, env, _ => by
    rw [run, Ne, bind_ok]
    rintro ⟨v, -, h⟩
    cases h
  | .discard, _, hs => by
    rw [NoDiscard] at hs
    exact hs.elim
  | .condition test thenBody elseBody, env, hs => by
    rw [NoDiscard] at hs
    intro h
    obtain ⟨v, -, h⟩ := run_condition_ok_iff.mp h
    split at h
    · exact runAll_ne_discarded env hs.1 h
    · exact runAll_ne_discarded env hs.2 h
  | .loop x first last body, env, hs => by
    rw [NoDiscard] at hs
    rw [run]
    exact iterate_ne_discarded (fun i env => runAll_ne_discarded _ hs) _ _ _

/-- Without a discard, a run is not discarded. -/
theorem Stmt.runAll_ne_discarded : ∀ {ss : List Stmt} (env : Env), NoDiscardAll ss →
    runAll ss env ≠ .ok .discarded
  | [], env, _ => by
    rw [runAll]
    exact fun h => by cases h
  | s :: ss, env, hs => by
    rw [NoDiscardAll] at hs
    rw [runAll]
    exact Outcome.bind_andThen_ne_discarded (run_ne_discarded env hs.1)
      fun env => runAll_ne_discarded env hs.2

end

/-! ## Specifications -/

namespace Specification

open Flattening

variable {given : Dictionary Value} {inputs : Dictionary Input} {env : Env} {index : String}

theorem bindInputs_congr {given' : Dictionary Value}
    (h : ∀ x ∈ inputs.keys, given'.get? x = given.get? x) :
    bindInputs given' inputs = bindInputs given inputs := by
  induction inputs with
  | nil => rfl
  | cons entry inputs ih =>
    obtain ⟨x, input⟩ := entry
    rw [bindInputs, bindInputs, h x mem_cons_self, ih fun y hy => h y (mem_cons_of_mem _ hy)]

theorem bindInputs_append {x : String} {input : Input} {v : Value}
    (h : bindInputs given inputs = .ok env) (hv : given.get? x = some v) :
    bindInputs given (inputs ++ [(x, input)]) = .ok (env ++ [(x, v)]) := by
  induction inputs generalizing env with
  | nil =>
    rw [bindInputs] at h
    cases h
    rw [nil_append, bindInputs, hv, bindInputs]
    rfl
  | cons entry inputs ih =>
    obtain ⟨y, yinput⟩ := entry
    rw [bindInputs] at h
    rw [cons_append, bindInputs]
    split at h
    · cases h
    · obtain ⟨rest, hrest, henv⟩ := bind_ok.mp h
      rw [ih hrest]
      cases henv
      rfl

/-- The inputs of a flattened specification are bound as those of the original, with the index
behind them. -/
theorem bindInputs_insert {input : Input} {v : Value} (hindex : index ∉ inputs.keys)
    (h : bindInputs given inputs = .ok env) :
    bindInputs (given.insert index v) (inputs.insert index input) = .ok (env ++ [(index, v)]) := by
  rw [insert_of_not_mem_keys hindex]
  refine bindInputs_append ?_ (get?_insert_self _ _ _)
  rw [← h]
  refine bindInputs_congr fun x hx => get?_insert_of_ne ?_ v given
  rintro rfl
  exact hindex hx

/-- What a flattened specification consists of. -/
theorem flatten_eq {s : Specification} {f : Flattened} (h : s.flatten = .ok f) :
    ∃ vertex cursor body names',
      f.index = Name.fresh "s3idx" s.declared ∧
      vertex = Name.fresh "s3vidx" (f.index :: s.declared) ∧
      cursor = Name.fresh "s3emitidx" (vertex :: f.index :: s.declared) ∧
      Flattens { vertex, cursor } s.statements body f.count
        { taken := cursor :: vertex :: f.index :: s.declared } names' ∧ f.count ≤ maxEmits ∧
      f.specification = { s with
        inputs := s.inputs.insert f.index { type := .float, default := some (.scalar 0) }
        locals := (vertex :: cursor :: names'.loopStarts).foldl (fun d x => d.insert x .int) s.locals
        statements :=
          [.assign vertex (.intrinsic "int" [.var .float f.index] .int), .assign cursor (.int 0)]
            ++ body } := by
  unfold flatten at h
  cases hwith : s.flattenWith.run { taken := s.declared } with
  | error e =>
    rw [hwith] at h
    cases h
  | ok p =>
    obtain ⟨g, names'⟩ := p
    rw [hwith] at h
    cases h
    obtain ⟨index, names₁, hfresh₁, h₁⟩ := bind_ok_iff.mp hwith
    obtain ⟨hindex, rfl⟩ := freshName_ok_iff.mp hfresh₁
    obtain ⟨vertex, names₂, hfresh₂, h₂⟩ := bind_ok_iff.mp h₁
    obtain ⟨hvertex, rfl⟩ := freshName_ok_iff.mp hfresh₂
    obtain ⟨cursor, names₃, hfresh₃, h₃⟩ := bind_ok_iff.mp h₂
    obtain ⟨hcursor, rfl⟩ := freshName_ok_iff.mp hfresh₃
    obtain ⟨⟨body, count⟩, names₄, hbody, h₄⟩ := bind_ok_iff.mp h₃
    obtain ⟨names₅, names₆, hget, h₅⟩ := bind_ok_iff.mp h₄
    obtain ⟨rfl, -⟩ := pure_ok_iff.mp h₅
    cases hget
    obtain ⟨hle, hflat⟩ := stmts_flattens hbody
    exact ⟨vertex, cursor, body, names₄, hindex, hvertex, hcursor, hflat, hle, rfl⟩

/-- The counters of a flattened specification have names of their own. -/
theorem setting_of_fresh {declared : List String} {index vertex cursor : String}
    (hvertex : vertex = Name.fresh "s3vidx" (index :: declared))
    (hcursor : cursor = Name.fresh "s3emitidx" (vertex :: index :: declared)) :
    Setting { vertex, cursor } declared { taken := cursor :: vertex :: index :: declared } := by
  have hvertexNew : vertex ∉ index :: declared := hvertex ▸ Name.fresh_not_mem _ _
  have hcursorNew : cursor ∉ vertex :: index :: declared := hcursor ▸ Name.fresh_not_mem _ _
  simp only [mem_cons, not_or] at hvertexNew hcursorNew
  exact
    { vertex_ne_cursor := fun h => hcursorNew.1 h.symm
      vertex_taken := by simp
      cursor_taken := by simp
      vertex_new := hvertexNew.2
      cursor_new := hcursorNew.2.2
      known_taken := fun x hx => by simp [hx] }

/-- The counters at the start of a flattened run. -/
theorem runAll_prologue {c : Counters} {v : Float} (hindex : env.get? index = some (.scalar v))
    (body : List Stmt) :
    Stmt.runAll ([.assign c.vertex (.intrinsic "int" [.var .float index] .int),
        .assign c.cursor (.int 0)] ++ body) env =
      Stmt.runAll body (Dictionary.insert c.cursor (.scalar (Float.ofInt 0))
        (Dictionary.insert c.vertex (.scalar (Number.trunc v)) env)) := by
  have hzero : Counts (Dictionary.insert c.vertex (.scalar (Number.trunc v)) env) (.int 0) 0 :=
    .int (by decide)
  show Stmt.runAll (.assign c.vertex _ :: .assign c.cursor _ :: body) env = _
  rw [Stmt.runAll_cons_assign (Expr.eval_int hindex), Stmt.runAll_cons_assign hzero.value]

theorem run_prologue {c : Counters} {known : List String} {i : Nat} (hi : i < 2 ^ 31)
    (hne : c.vertex ≠ c.cursor) (hindex : index ∉ known) (hvertex : c.vertex ∉ known)
    (hcursor : c.cursor ∉ known) (hnew : env.get? index = none) :
    ∃ env', Stmt.runAll
        [.assign c.vertex (.intrinsic "int" [.var .float index] .int), .assign c.cursor (.int 0)]
        (env ++ [(index, .scalar (Float.ofNat i))]) = .ok (.finished env' []) ∧
      Agree known [] env env' ∧ c.At env' i 0 := by
  have hget : Dictionary.get? (env ++ [(index, .scalar (Float.ofNat i))]) index =
      some (.scalar (Float.ofInt i)) := by
    rw [get?_append, hnew, get?_cons, if_pos rfl]
    rfl
  have hrun := runAll_prologue (c := c) hget []
  rw [append_nil, Number.trunc_ofInt (by omega), Stmt.runAll] at hrun
  refine ⟨_, hrun, ?_, ?_⟩
  · intro x hx _
    have hxv : x ≠ c.vertex := fun h => hvertex (h ▸ hx)
    have hxc : x ≠ c.cursor := fun h => hcursor (h ▸ hx)
    have hxi : x ≠ index := fun h => hindex (h ▸ hx)
    rw [get?_insert_of_ne hxc, get?_insert_of_ne hxv, get?_append, get?_cons, if_neg hxi]
    cases env.get? x <;> rfl
  · exact ⟨by rw [get?_insert_of_ne hne, get?_insert_self], get?_insert_self _ _ _⟩

/-- Flattening keeps the meaning: the vertices of a specification are those of its flattened form
for one index after the other, at most one for each. -/
theorem evaluate_flatten {s : Specification} {f : Flattened} {given : Dictionary Value}
    {vs : List Vertex} (hdeclared : s.undeclared = []) (hdiscard : Stmt.NoDiscardAll s.statements)
    (hbounds : Stmt.BoundsExactAll s.statements) (hsettled : Stmt.ReadsSettledAll [] s.statements)
    (hflat : s.flatten = .ok f) (hrun : s.evaluate given = .ok vs) :
    ∃ part : Nat → List Vertex,
      (∀ i < f.count,
        f.specification.evaluate (given.insert f.index (.scalar (Float.ofNat i))) = .ok (part i) ∧
          (part i).length ≤ 1) ∧
      (List.range f.count).flatMap part = vs := by
  obtain ⟨env, hbind, hall⟩ := bind_ok.mp hrun
  obtain ⟨o, ho, hvertices⟩ := bind_ok.mp hall
  obtain ⟨vertex, cursor, body, names', hindex, hvertex, hcursor, hbody, hcount, hf⟩ :=
    flatten_eq hflat
  have hindexNew : f.index ∉ s.declared := hindex ▸ Name.fresh_not_mem _ _
  have hset := setting_of_fresh hvertex hcursor
  cases o with
  | discarded => exact absurd ho (Stmt.runAll_ne_discarded env hdiscard)
  | finished env₁ ws =>
    cases hvertices
    have hmentions : ∀ m ∈ Stmt.mentionsAll s.statements, m.1 ∈ s.declared := fun m hm =>
      mem_declared_of_declaredType? (declaredType?_of_undeclared_nil hdeclared m hm)
    unfold maxEmits at hcount
    have hindexInputs : f.index ∉ s.inputs.keys := fun h => hindexNew (List.mem_append_left _ h)
    have hnone : env.get? f.index = none := by
      rw [← Option.not_isSome_iff_eq_none, ← Dictionary.mem_keys_iff, keys_of_bindInputs hbind]
      exact hindexInputs
    obtain ⟨slots, hlen, hslots, hsim⟩ := hbody.simulates hset hmentions hbounds hsettled ho
    refine ⟨slotAt slots 0, fun i hi => ⟨?_, length_slotAt_le⟩, ?_⟩
    · obtain ⟨env', hprologue, hagree, hat⟩ := run_prologue (i := i) (c := { vertex, cursor }) (by omega)
        hset.vertex_ne_cursor hindexNew hset.vertex_new hset.cursor_new hnone
      obtain ⟨env₁', hrun', -, -⟩ := hsim env' i 0 hagree hat (by omega) (by omega)
      unfold evaluate
      rw [hf]
      exact bind_ok.mpr ⟨_, bindInputs_insert hindexInputs hbind, bind_ok.mpr
        ⟨_, Stmt.runAll_append_finished_iff.mpr ⟨_, _, _, hprologue, hrun', rfl⟩, rfl⟩⟩
    · rw [List.range_eq_range', flatMap_slotAt hlen, hslots]
      rfl

/-- A loop in a loop with a vertex under a condition, and a running value that each round sets
before it reads it. -/
def nestedLoops : Specification where
  inputs := [("w", { type := .float, default := some (.scalar 2) })]
  outputs := [("x", .float)]
  locals := [("i", .int), ("j", .int), ("t", .float)]
  statements :=
    [.loop "i" (-1) 1
      [.assign "t" (.binary "+" (.var .float "w") (.intrinsic "float" [.var .int "i"] .float)),
       .emit [("x", .var .float "t")],
       .condition (.test "<" (.var .int "i") (.int 1))
        [.loop "j" 1 2 [.emit [("x", .intrinsic "float" [.var .int "j"] .float)]]] []],
     .emit [("x", .var .float "w")]]

theorem evaluate_flatten_nestedLoops :
    ∃ f vs, nestedLoops.flatten = .ok f ∧ f.count = 10 ∧ nestedLoops.evaluate [] = .ok vs ∧
      vs = [1, 1, 2, 2, 1, 2, 3, 2].map (fun x => [("x", .scalar x)]) ∧
      ∃ part : Nat → List Vertex,
        (∀ i < f.count,
          f.specification.evaluate (Dictionary.insert f.index (.scalar (Float.ofNat i)) [])
            = .ok (part i) ∧ (part i).length ≤ 1) ∧
        (List.range f.count).flatMap part = vs := by
  obtain ⟨f, hf⟩ : ∃ f, nestedLoops.flatten = .ok f := ⟨_, rfl⟩
  have hcount : f.count = 10 := by
    cases hf
    rfl
  have hvs : nestedLoops.evaluate [] =
      .ok ([1, 1, 2, 2, 1, 2, 3, 2].map fun x => [("x", .scalar x)]) := by decide +kernel
  exact ⟨f, _, hf, hcount, hvs, rfl,
    evaluate_flatten (by decide) (by decide) (by decide) (by decide) hf hvs⟩

end Specification

end DataMarks
