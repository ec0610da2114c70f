/-
  A flattened specification emits one vertex at most, whatever its index is: a fraction, a
  negative number, an infinity or no number at all (`Specification.length_evaluate_flatten`).
  Nothing is asked of the original but exact loop bounds; it may carry state from round to
  round, test it and discard.

  The cursor counts the emits that are passed. `Single` says of code that is met with the
  cursor at `k` and leaves it at `k'`, that it emits the vertex asked for, if this is one
  of those from `k` up to `k'`, or nothing. A later piece of code meets the cursor at `k'`
  and so does not emit it again.
-/
import DataMarks.Proofs.EmitCount
import DataMarks.Proofs.Soundness

namespace DataMarks

open List Stmt

open Number (Asks)

namespace Stmt

/-- Loop bounds that floats hold exactly are not too far apart. -/
theorem spanFits_of_boundsExactAll {ss : List Stmt} (h : BoundsExactAll ss) :
    ∀ t ∈ partsAll ss, t.SpanFits := by
  induction ss using induct with
  | nil | assign | emit | discard => simp [partsAll, parts, SpanFits]
  | cons s ss ih₁ ih₂ =>
    rw [partsAll_singleton] at ih₁
    exact forall_partsAll_cons.mpr ⟨ih₁ ⟨h.1, trivial⟩, ih₂ h.2⟩
  | condition test thenBody elseBody ih₁ ih₂ =>
    rw [partsAll_singleton]
    exact forall_parts_condition.mpr ⟨trivial, ih₁ h.1.1, ih₂ h.1.2⟩
  | loop x first last body ih =>
    obtain ⟨⟨hfirst, hlast, hbody⟩, -⟩ := h
    have hspan : last - first ≤ Flattening.maxDistance := by
      unfold Flattening.maxDistance
      omega
    rw [partsAll_singleton]
    exact forall_parts_loop.mpr ⟨hspan, ih hbody⟩

end Stmt

namespace Flattening

/-! ## One vertex between two places of the cursor -/

/-- At most one vertex, and none if none from `k` up to `k'` is asked for. -/
structure Emitted (w : Option Nat) (k k' : Nat) (vs : List Vertex) : Prop where
  length_le : vs.length ≤ 1
  asked : vs ≠ [] → ∃ i, w = some i ∧ k ≤ i ∧ i < k'

section Emitted

variable {w : Option Nat} {k k₁ k₂ k' : Nat} {vs ws : List Vertex}

theorem emitted_nil : Emitted w k k' [] :=
  ⟨Nat.zero_le 1, fun h => absurd rfl h⟩

theorem Emitted.mono (h : Emitted w k₁ k₂ vs) (hk : k ≤ k₁) (hk' : k₂ ≤ k') :
    Emitted w k k' vs := by
  refine ⟨h.length_le, fun hne => ?_⟩
  obtain ⟨i, hi, hle, hlt⟩ := h.asked hne
  exact ⟨i, hi, by omega, by omega⟩

theorem Emitted.append (h₁ : Emitted w k k₁ vs) (h₂ : Emitted w k₁ k' ws) (hle : k ≤ k₁)
    (hle' : k₁ ≤ k') : Emitted w k k' (vs ++ ws) := by
  by_cases hvs : vs = []
  · subst hvs
    exact h₂.mono hle (Nat.le_refl _)
  by_cases hws : ws = []
  · subst hws
    rw [append_nil]
    exact h₁.mono (Nat.le_refl _) hle'
  · -- the vertex asked for would be on both sides of `k₁`
    obtain ⟨i, hi, -, hlt⟩ := h₁.asked hvs
    obtain ⟨j, hj, hge, -⟩ := h₂.asked hws
    have hij : i = j := Option.some_inj.mp (hi.symm.trans hj)
    omega

end Emitted

/-- Code that moves the cursor by `n` at most, and emits at most the vertex asked for while the
cursor passes it. -/
def Single (c : Counters) (n : Nat) (flat : List Stmt) : Prop :=
  ∀ (env env' : Env) (vs : List Vertex) (t : Float) (w : Option Nat) (k : Nat),
    c.Holds env t k → Asks t w → k + n < 2 ^ 31 → Stmt.runAll flat env = .ok (.finished env' vs) →
    ∃ k', k ≤ k' ∧ k' ≤ k + n ∧ c.Holds env' t k' ∧ Emitted w k k' vs

section Single

variable {c : Counters} {n n₁ n₂ : Nat} {flat flat₁ flat₂ : List Stmt}

theorem Single.mono (h : Single c n₁ flat) (hn : n₁ ≤ n₂) : Single c n₂ flat := by
  intro env env' vs t w k hholds ht hk hrun
  obtain ⟨k', hle, hle', hholds', hvs⟩ := h env env' vs t w k hholds ht (by omega) hrun
  exact ⟨k', hle, by omega, hholds', hvs⟩

theorem single_nil : Single c 0 [] := by
  intro env env' vs t w k hholds ht hk hrun
  rw [runAll] at hrun
  cases hrun
  exact ⟨k, Nat.le_refl _, Nat.le_refl _, hholds, emitted_nil⟩

theorem Single.append (h₁ : Single c n₁ flat₁) (h₂ : Single c n₂ flat₂) :
    Single c (n₁ + n₂) (flat₁ ++ flat₂) := by
  intro env env' vs t w k hholds ht hk hrun
  obtain ⟨env₁, vs₁, vs₂, hrun₁, hrun₂, rfl⟩ := runAll_append_finished_iff.mp hrun
  obtain ⟨k₁, hle₁, hle₁', hholds₁, hvs₁⟩ := h₁ _ _ _ _ _ _ hholds ht (by omega) hrun₁
  obtain ⟨k₂, hle₂, hle₂', hholds₂, hvs₂⟩ := h₂ _ _ _ _ _ _ hholds₁ ht (by omega) hrun₂
  exact ⟨k₂, by omega, by omega, hholds₂, hvs₁.append hvs₂ hle₁ hle₂⟩

/-- Code that stays as it is and emits nothing. -/
theorem single_same (hv : c.vertex ∉ assignsAll flat) (hc : c.cursor ∉ assignsAll flat)
    (hcount : emitCountAll flat = 0) : Single c 0 flat := by
  intro env env' vs t w k hholds ht hk hrun
  have hlength := (length_runAll hrun).1
  have hvs : vs = [] := eq_nil_of_length_eq_zero (by omega)
  exact ⟨k, Nat.le_refl _, Nat.le_refl _, hholds.of_runAll hv hc hrun, hvs ▸ emitted_nil⟩

theorem single_condition {test : Expr} (h₁ : Single c n₁ flat₁) (h₂ : Single c n₂ flat₂) :
    Single c (max n₁ n₂) [.condition test flat₁ flat₂] := by
  intro env env' vs t w k hholds ht hk hrun
  rw [runAll_singleton] at hrun
  obtain ⟨v, -, hrun⟩ := run_condition_ok_iff.mp hrun
  split at hrun
  · exact h₁.mono (Nat.le_max_left _ _) env env' vs t w k hholds ht hk hrun
  · exact h₂.mono (Nat.le_max_right _ _) env env' vs t w k hholds ht hk hrun

theorem single_emit (hne : c.vertex ≠ c.cursor) (attributes : Dictionary Expr) :
    Single c 1 (c.guardEmit attributes) := by
  intro env env' vs t w k hholds ht hk hrun
  rw [Counters.runAll_guardEmit hholds ht (by omega)] at hrun
  obtain ⟨env₁, vs₁, vs₂, hrun₁, hrun₂, rfl⟩ := runAll_append_finished_iff.mp hrun
  have hemit : env₁ = env ∧ Emitted w k (k + 1) vs₁ := by
    split at hrun₁
    · rename_i hw
      rw [runAll_singleton] at hrun₁
      obtain ⟨v, -, henv, rfl⟩ := run_emit_finished_iff.mp hrun₁
      exact ⟨henv, Nat.le_refl 1, fun _ => ⟨k, hw, Nat.le_refl k, Nat.lt_succ_self k⟩⟩
    · rw [runAll] at hrun₁
      cases hrun₁
      exact ⟨rfl, emitted_nil⟩
  obtain ⟨rfl, hvs⟩ := hemit
  rw [Counters.run_assign_next hholds (by omega)] at hrun₂
  cases hrun₂
  rw [append_nil]
  exact ⟨k + 1, Nat.le_succ k, Nat.le_refl _, hholds.insert_cursor hne (k + 1), hvs⟩

/-- A window runs its body in one round at most, and moves the cursor behind all rounds. -/
theorem single_window {start x : String} {first : Int} {perRound rounds : Nat}
    (ha : Counters.Apart c start x) (hpos : 0 < perRound) (hfirst : first.natAbs ≤ 2 ^ 53)
    (hend : (first + rounds).natAbs ≤ 2 ^ 53 + 1) (hstart : start ∉ assignsAll flat)
    (hbody : Single c perRound flat) :
    Single c (perRound * rounds)
      (c.window start x first perRound (perRound * rounds) flat) := by
  intro env env' vs t w k hholds ht hk hrun
  have he : Counters.Entry first perRound rounds k := ⟨hpos, hfirst, hend, hk⟩
  refine ⟨k + perRound * rounds, Nat.le_add_right _ _, Nat.le_refl _, ?_⟩
  by_cases hin : ∃ i, w = some i ∧ k ≤ i ∧ i < k + perRound * rounds
  · obtain ⟨i, rfl, hle, hlt⟩ := hin
    rw [Counters.runAll_window_inside ha he hholds ht hle hlt rfl] at hrun
    obtain ⟨env₁, vs₁, vs₂, hrun₁, hrun₂, rfl⟩ := runAll_append_finished_iff.mp hrun
    have hr : (i - k) / perRound < rounds := by
      rw [Nat.div_lt_iff_lt_mul hpos, Nat.mul_comm]
      omega
    have hmul : ((i - k) / perRound + 1) * perRound ≤ rounds * perRound :=
      Nat.mul_le_mul_right perRound hr
    rw [Nat.succ_mul, Nat.mul_comm rounds] at hmul
    have hround := hholds.roundEnv ha first perRound ((i - k) / perRound)
    obtain ⟨k₁, hle₁, hle₁', hholds₁, hvs₁⟩ := hbody _ _ _ _ _ _ hround ht (by omega) hrun₁
    have hs : env₁.get? start = some (.scalar (Float.ofInt k)) := by
      rw [get?_runAll hstart hrun₁, Counters.get?_start_roundEnv ha]
    rw [Counters.run_assign_stop he hs] at hrun₂
    cases hrun₂
    rw [append_nil]
    exact ⟨hholds₁.insert_cursor ha.vertex_ne_cursor _, hvs₁.mono (by omega) (by omega)⟩
  · have hout : ∀ i, w = some i → ¬ (k ≤ i ∧ i < k + perRound * rounds) :=
      fun i hi hbetween => hin ⟨i, hi, hbetween⟩
    rw [Counters.runAll_window_outside ha he hholds ht hout] at hrun
    cases hrun
    have hpassed := hholds.insert_of_ne ha.start_ne_vertex ha.start_ne_cursor
      (.scalar (Float.ofInt k))
    exact ⟨hpassed.insert_cursor ha.vertex_ne_cursor _, emitted_nil⟩

end Single

/-! ## Flattened code -/

section FlattenedCode

variable {c : Counters} {known : List String}

theorem single_unchanged {ss : List Stmt} {names : Names} (hset : Setting c known names)
    (hm : ∀ m ∈ mentionsAll ss, m.1 ∈ known) (hcount : emitCountAll ss = 0) :
    Single c 0 ss := by
  have hassigns : ∀ x ∈ assignsAll ss, x ∈ known := by
    intro x hx
    obtain ⟨m, hmention, rfl⟩ := mem_mentionsAll_of_mem_assignsAll hx
    exact hm m hmention
  exact single_same (fun h => hset.vertex_new (hassigns _ h))
    (fun h => hset.cursor_new (hassigns _ h)) hcount

/-- Flattened code emits one vertex at most. -/
theorem Flattens.single {ss flat : List Stmt} {n : Nat} {names names' : Names}
    (h : Flattens c ss flat n names names') (hset : Setting c known names)
    (hm : ∀ m ∈ mentionsAll ss, m.1 ∈ known) (hb : BoundsExactAll ss) :
    Single c n flat := by
  induction h with
  | nil => exact single_nil
  | cons first _ ih₁ ih₂ =>
    rw [mentionsAll, forall_mem_append] at hm
    exact (ih₁ hset (by simpa [mentionsAll] using hm.1) ⟨hb.1, trivial⟩).append
      (ih₂ (hset.mono first.issues.taken) hm.2 hb.2)
  | assign | discard => exact single_unchanged hset hm rfl
  | emit attributes => exact single_emit hset.vertex_ne_cursor attributes
  | condition hthen _ _ _ ih₁ ih₂ =>
    simp only [mentionsAll, mentions, append_nil, forall_mem_append] at hm
    exact single_condition (ih₁ hset hm.1.2 hb.1.1)
      (ih₂ (hset.mono hthen.issues.taken) hm.2 hb.1.2)
  | idle hbody hle hnone =>
    refine single_unchanged hset hm ?_
    rw [← slotsAll_eq_emitCountAll (spanFits_of_boundsExactAll hb)]
    exact (Flattens.idle hbody hle hnone).counts.1.symm
  | @window x start first last body _ _ _ _ hbody _ hsome _ hnew ih =>
    obtain ⟨⟨hfirst, hlast, hbbody⟩, -⟩ := hb
    simp only [mentionsAll, mentions, append_nil, forall_mem_cons] at hm
    rw [not_or] at hsome
    have hassigns : ∀ y ∈ assignsAll body, y ∈ known := by
      intro y hy
      obtain ⟨m, hmem, rfl⟩ := mem_mentionsAll_of_mem_assignsAll hy
      exact hm.2 m hmem
    have hissues := hbody.issues
    refine single_window ((hset.mono hissues.taken).apart hnew hm.1) (Nat.pos_of_ne_zero hsome.1)
      hfirst ?_ (hset.start_not_assigned hissues hnew hassigns) (ih hset hm.2 hbbody)
    rw [tripCount_eq hfirst hlast] at hsome ⊢
    unfold loopRounds at hsome ⊢
    omega

end FlattenedCode

end Flattening

namespace Specification

open Flattening

/-- One vertex for each index at most, and none for an index that is not in the count. -/
theorem length_evaluate_flatten {s : Specification} {f : Flattened} {given : Dictionary Value}
    {v : Float} {vs : List Vertex} (hdeclared : s.undeclared = [])
    (hbounds : Stmt.BoundsExactAll s.statements) (hflat : s.flatten = .ok f)
    (hrun : f.specification.evaluate (given.insert f.index (.scalar v)) = .ok vs) :
    vs.length ≤ 1 ∧
      (¬ (0 ≤ Number.trunc v ∧ Number.trunc v < Float.ofNat f.count) → vs = []) := by
  obtain ⟨vertex, cursor, body, names', -, hvertex, hcursor, hbody, hcount, hf⟩ := flatten_eq hflat
  have hset := setting_of_fresh hvertex hcursor
  have hmentions : ∀ m ∈ Stmt.mentionsAll s.statements, m.1 ∈ s.declared := fun m hm =>
    mem_declared_of_declaredType? (declaredType?_of_undeclared_nil hdeclared m hm)
  unfold maxEmits at hcount
  obtain ⟨env, hbind, hall⟩ := bind_ok.mp hrun
  obtain ⟨o, ho, hvertices⟩ := bind_ok.mp hall
  cases hvertices
  have hindex : env.get? f.index = some (.scalar v) := by
    rw [get?_of_bindInputs hbind, hf, Dictionary.get?_insert_self, Dictionary.get?_insert_self]
    rfl
  rw [hf, runAll_prologue (c := { vertex, cursor }) hindex] at ho
  cases o with
  | discarded => exact ⟨Nat.zero_le 1, fun _ => rfl⟩
  | finished env' vs =>
    obtain ⟨w, hw⟩ := Number.asks_trunc v
    have hholds : Counters.Holds { vertex, cursor } (Dictionary.insert cursor
        (.scalar (Float.ofInt 0)) (Dictionary.insert vertex (.scalar (Number.trunc v)) env))
        (Number.trunc v) 0 :=
      ⟨by rw [Dictionary.get?_insert_of_ne hset.vertex_ne_cursor, Dictionary.get?_insert_self],
        Dictionary.get?_insert_self _ _ _⟩
    obtain ⟨k', -, hle, -, hemitted⟩ :=
      hbody.single hset hmentions hbounds _ _ _ _ _ _ hholds hw (by omega) ho
    refine ⟨hemitted.length_le, fun hout => Decidable.byContradiction fun hne => hout ?_⟩
    obtain ⟨i, hi, hle₀, hlt⟩ := hemitted.asked hne
    have hbetween := (hw.between (k := 0) (m := f.count) (by decide) (by omega)).mpr
      ⟨i, hi, hle₀, by omega⟩
    exact hbetween

/-- A running value that decides over vertices and over the whole run. -/
def runningValue : Specification where
  inputs := [("w", { type := .float, default := none })]
  outputs := [("x", .float)]
  locals := [("i", .int), ("t", .float)]
  statements :=
    [.assign "t" (.var .float "w"),
     .loop "i" (-1) 2
      [.condition (.test "<" (.var .float "t") (.const .float (.scalar 3)))
        [.emit [("x", .var .float "t")]] [],
       .assign "t" (.binary "+" (.var .float "t") (.const .float (.scalar 1.5))),
       .condition (.test "<" (.const .float (.scalar 9)) (.var .float "t")) [.discard] []],
     .emit [("x", .var .float "t")]]

theorem length_evaluate_flatten_runningValue :
    ∃ f, runningValue.flatten = .ok f ∧ f.count = 5 ∧
      (∃ vs, f.specification.evaluate (Dictionary.insert f.index (.scalar 3.75) [("w", .scalar 0.5)])
        = .ok vs ∧ vs = [[("x", .scalar 0.5)]] ∧ vs.length ≤ 1) ∧
      ∃ vs, f.specification.evaluate (Dictionary.insert f.index (.scalar (0 / 0))
        [("w", .scalar 0.5)]) = .ok vs ∧ vs = [] := by
  obtain ⟨f, hf⟩ : ∃ f, runningValue.flatten = .ok f := ⟨_, rfl⟩
  have hcount : f.count = 5 := by
    cases hf
    rfl
  have hfraction : f.specification.evaluate (Dictionary.insert f.index (.scalar 3.75)
      [("w", .scalar 0.5)]) = .ok [[("x", .scalar 0.5)]] := by
    cases hf
    decide +kernel
  obtain ⟨vs, hvs⟩ : ∃ vs, f.specification.evaluate (Dictionary.insert f.index
      (.scalar (0 / 0)) [("w", .scalar 0.5)]) = .ok vs := by
    cases hf
    exact ⟨[], by decide +kernel⟩
  refine ⟨f, hf, hcount, ⟨_, hfraction, rfl, ?_⟩, vs, hvs, ?_⟩
  · exact (length_evaluate_flatten (by decide) (by decide) hf hfraction).1
  · refine (length_evaluate_flatten (by decide) (by decide) hf hvs).2 ?_
    rw [hcount]
    decide +kernel

end Specification

end DataMarks
