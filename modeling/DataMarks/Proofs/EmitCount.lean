/-
  The static count of emits: an emit counts once, a condition as its larger branch and a
  loop as its body times its rounds.

  The flattener computes this count and refuses a specification exactly when one of the
  counts that it meets is too large (`Specification.flatten_count`). It also counts the body
  of a loop without rounds, so that such a body must not be too large either, and it takes a
  loop for empty when its bounds are too far apart (`Specification.flatten_farLoop`). For all
  other loops the count bounds the vertices of a run, and it is reached where no branch
  is larger than the other (`Specification.length_evaluate`).
-/
import DataMarks.Proofs.Flattening
import DataMarks.Proofs.SlotCount

namespace DataMarks

namespace Stmt

mutual

/-- How many vertices a statement emits at most. -/
def emitCount : Stmt → Nat
  | assign .. | discard => 0
  | emit _ => 1
  | condition _ thenBody elseBody => max (emitCountAll thenBody) (emitCountAll elseBody)
  | loop _ first last body => emitCountAll body * loopRounds first last

def emitCountAll : List Stmt → Nat
  | [] => 0
  | s :: ss => s.emitCount + emitCountAll ss

end

/-- A loop has bounds whose distance is not too large. -/
def SpanFits : Stmt → Prop
  | loop _ first last _ => last - first ≤ Flattening.maxDistance
  | _ => True

/-- A loop without rounds has a body with a count that is not too large. -/
def EmptyLoopFits : Stmt → Prop
  | loop _ first last body => loopRounds first last = 0 → emitCountAll body ≤ Flattening.maxEmits
  | _ => True

/-- Both branches of a condition count the same. -/
def Balanced : Stmt → Prop
  | condition _ thenBody elseBody => emitCountAll thenBody = emitCountAll elseBody
  | _ => True

instance : DecidablePred SpanFits
  | loop _ first last _ => inferInstanceAs (Decidable (last - first ≤ Flattening.maxDistance))
  | assign .. | emit _ | condition .. | discard => inferInstanceAs (Decidable True)

instance : DecidablePred EmptyLoopFits
  | loop _ first last body => inferInstanceAs (Decidable
      (loopRounds first last = 0 → emitCountAll body ≤ Flattening.maxEmits))
  | assign .. | emit _ | condition .. | discard => inferInstanceAs (Decidable True)

instance : DecidablePred Balanced
  | condition _ thenBody elseBody =>
    inferInstanceAs (Decidable (emitCountAll thenBody = emitCountAll elseBody))
  | assign .. | emit _ | loop .. | discard => inferInstanceAs (Decidable True)

/-! ## The count of the flattener -/

theorem tripCount_of_spanFits {x : String} {first last : Int} {body : List Stmt}
    (h : (loop x first last body).SpanFits) :
    Flattening.tripCount first last = loopRounds first last :=
  if_pos h

mutual

theorem slots_eq_emitCount : ∀ {s : Stmt}, (∀ t ∈ s.parts, t.SpanFits) → s.slots = s.emitCount
  | .assign .., _ => by rw [slots, emitCount]
  | .discard, _ => by rw [slots, emitCount]
  | .emit _, _ => by rw [slots, emitCount]
  | .condition test thenBody elseBody, hspans => by
    obtain ⟨-, hthen, helse⟩ := forall_parts_condition.mp hspans
    rw [slots, emitCount, slotsAll_eq_emitCountAll hthen, slotsAll_eq_emitCountAll helse]
  | .loop x first last body, hspans => by
    obtain ⟨hspan, hbody⟩ := forall_parts_loop.mp hspans
    rw [slots, emitCount, slotsAll_eq_emitCountAll hbody, tripCount_of_spanFits hspan]

/-- Where no bounds are too far apart, the flattener counts as it should. -/
theorem slotsAll_eq_emitCountAll : ∀ {ss : List Stmt}, (∀ t ∈ partsAll ss, t.SpanFits) →
    slotsAll ss = emitCountAll ss
  | [], _ => by rw [slotsAll, emitCountAll]
  | s :: ss, hspans => by
    obtain ⟨hs, hss⟩ := forall_partsAll_cons.mp hspans
    rw [slotsAll, emitCountAll, slots_eq_emitCount hs, slotsAll_eq_emitCountAll hss]

end

/-- The body of a loop counts no more than all its rounds, where it has one. -/
theorem emitCountAll_body_le {x : String} {first last : Int} {body : List Stmt}
    (hempty : (loop x first last body).EmptyLoopFits)
    (hle : (loop x first last body).emitCount ≤ Flattening.maxEmits) :
    emitCountAll body ≤ Flattening.maxEmits := by
  rw [emitCount] at hle
  by_cases hrounds : loopRounds first last = 0
  · exact hempty hrounds
  · exact Nat.le_trans (Nat.le_mul_of_pos_right _ (Nat.pos_of_ne_zero hrounds)) hle

theorem countFits_iff {ss : List Stmt} (hspans : ∀ t ∈ partsAll ss, t.SpanFits)
    (hle : emitCountAll ss ≤ Flattening.maxEmits) :
    (∀ t ∈ partsAll ss, t.CountFits) ↔ ∀ t ∈ partsAll ss, t.EmptyLoopFits := by
  induction ss using induct with
  | nil | assign | emit | discard => simp [partsAll, parts, CountFits, EmptyLoopFits]
  | cons s ss ih₁ ih₂ =>
    rw [forall_partsAll_cons] at hspans
    rw [emitCountAll] at hle
    rw [partsAll_singleton, emitCountAll, emitCountAll] at ih₁
    rw [forall_partsAll_cons, forall_partsAll_cons, ih₁ hspans.1 (by omega),
      ih₂ hspans.2 (by omega)]
  | condition test thenBody elseBody ih₁ ih₂ =>
    rw [partsAll_singleton] at hspans ⊢
    obtain ⟨-, hthen, helse⟩ := forall_parts_condition.mp hspans
    rw [emitCountAll, emitCount, emitCountAll] at hle
    rw [forall_parts_condition, forall_parts_condition, ih₁ hthen (by omega),
      ih₂ helse (by omega), CountFits, slotsAll_eq_emitCountAll hthen,
      slotsAll_eq_emitCountAll helse]
    exact and_congr_left fun _ => ⟨fun _ => trivial, fun _ => ⟨by omega, by omega⟩⟩
  | loop x first last body ih =>
    rw [partsAll_singleton] at hspans ⊢
    obtain ⟨hspan, hbody⟩ := forall_parts_loop.mp hspans
    rw [emitCountAll, emitCountAll, Nat.add_zero] at hle
    rw [forall_parts_loop, forall_parts_loop, CountFits, slotsAll_eq_emitCountAll hbody,
      tripCount_of_spanFits hspan]
    constructor
    · rintro ⟨⟨hbodyLe, -⟩, hfits⟩
      exact ⟨fun _ => hbodyLe, (ih hbody hbodyLe).mp hfits⟩
    · rintro ⟨hempty, hfits⟩
      have hbodyLe := emitCountAll_body_le hempty hle
      exact ⟨⟨hbodyLe, hle⟩, (ih hbody hbodyLe).mpr hfits⟩

end Stmt

namespace Specification

open Flattening

variable {s : Specification}

theorem count_of_flatten {f : Flattened} (hspans : ∀ t ∈ Stmt.partsAll s.statements, t.SpanFits)
    (hflat : s.flatten = .ok f) : f.count = Stmt.emitCountAll s.statements := by
  obtain ⟨_, _, _, _, -, -, -, hbody, -, -⟩ := flatten_eq hflat
  rw [hbody.counts.1, Stmt.slotsAll_eq_emitCountAll hspans]

theorem flatten_succeeds (hspans : ∀ t ∈ Stmt.partsAll s.statements, t.SpanFits)
    (hempty : ∀ t ∈ Stmt.partsAll s.statements, t.EmptyLoopFits)
    (hle : Stmt.emitCountAll s.statements ≤ maxEmits) : ∃ f, s.flatten = .ok f := by
  refine flatten_of_countFits ?_ ((Stmt.countFits_iff hspans hle).mpr hempty)
  rwa [Stmt.slotsAll_eq_emitCountAll hspans]

/-- The flattener accepts a specification exactly when the count and those in loops without rounds
are not too large, and returns the count. -/
theorem flatten_count (hspans : ∀ t ∈ Stmt.partsAll s.statements, t.SpanFits) :
    (Stmt.emitCountAll s.statements ≤ maxEmits ∧
        (∀ t ∈ Stmt.partsAll s.statements, t.EmptyLoopFits) →
      ∃ f, s.flatten = .ok f ∧ f.count = Stmt.emitCountAll s.statements) ∧
    (¬ (Stmt.emitCountAll s.statements ≤ maxEmits ∧
        ∀ t ∈ Stmt.partsAll s.statements, t.EmptyLoopFits) →
      s.flatten = .error .tooManyEmits) := by
  constructor
  · intro ⟨hle, hempty⟩
    obtain ⟨f, hf⟩ := flatten_succeeds hspans hempty hle
    exact ⟨f, hf, count_of_flatten hspans hf⟩
  · intro hlarge
    cases hflat : s.flatten with
    | error e => cases e; rfl
    | ok f =>
      obtain ⟨_, _, _, _, -, -, -, hbody, hle, -⟩ := flatten_eq hflat
      have hcount := count_of_flatten hspans hflat
      rw [hcount] at hle
      exact absurd ⟨hle, (Stmt.countFits_iff hspans hle).mp hbody.counts.2⟩ hlarge

/-- Rounds of two vertices or one, and a loop that has no round. -/
def unevenRounds : Specification where
  inputs := [("w", { type := .float, default := some (.scalar 2) })]
  outputs := [("x", .float)]
  locals := [("i", .int), ("j", .int)]
  statements :=
    [.loop "i" (-2) 1000000000
      [.condition (.test "<" (.var .int "i") (.int 1))
        [.emit [("x", .var .float "w")], .emit [("x", .var .float "w")]]
        [.emit [("x", .var .float "w")]],
       .loop "j" 1 0 [.emit [("x", .var .float "w")]]]]

theorem flatten_count_unevenRounds :
    ∃ f, unevenRounds.flatten = .ok f ∧ f.count = 2000000006 := by
  have hcount : Stmt.emitCountAll unevenRounds.statements = 2000000006 := by decide +kernel
  have hfits : Stmt.emitCountAll unevenRounds.statements ≤ maxEmits ∧
      ∀ t ∈ Stmt.partsAll unevenRounds.statements, t.EmptyLoopFits := by decide +kernel
  obtain ⟨f, hf, hn⟩ := (flatten_count (s := unevenRounds) (by decide +kernel)).1 hfits
  exact ⟨f, hf, hn.trans hcount⟩

/-- A loop over all words of 64 bits. -/
def farLoop : Specification where
  inputs := []
  outputs := [("a", .float)]
  locals := [("i", .int)]
  statements :=
    [.loop "i" (-9223372036854775808) 9223372036854775807 [.emit [("a", .const .float (.scalar 1))]]]

/-- Too many emits in a loop that has no round. -/
def hugeEmptyLoop : Specification where
  inputs := []
  outputs := [("a", .float)]
  locals := [("i", .int), ("j", .int)]
  statements :=
    [.loop "i" 1 0 [.loop "j" 1 2147483648 [.emit [("a", .const .float (.scalar 1))]]]]

/-- The count alone does not decide: a loop with bounds too far apart is taken for empty, and a
specification that emits nothing is refused for the body of an empty loop. -/
theorem flatten_farLoop :
    (maxEmits < Stmt.emitCountAll farLoop.statements ∧
      ∃ f, farLoop.flatten = .ok f ∧ f.count = 0) ∧
    (Stmt.emitCountAll hugeEmptyLoop.statements = 0 ∧
      hugeEmptyLoop.flatten = .error .tooManyEmits) :=
  ⟨⟨by decide +kernel, _, rfl, rfl⟩, by decide +kernel, rfl⟩

end Specification

/-! ## The vertices of a run -/

/-- Rounds that emit at most `n` vertices, or exactly so many, together emit that for each round. -/
theorem length_iterate {body : Int → Env → Except EvalError Outcome} {n : Nat} {exact : Prop}
    (hbody : ∀ i env env' vs, body i env = .ok (.finished env' vs) →
      vs.length ≤ n ∧ (exact → vs.length = n))
    {rounds : Nat} {i : Int} {env env' : Env} {vs : List Vertex}
    (h : iterate body rounds i env = .ok (.finished env' vs)) :
    vs.length ≤ n * rounds ∧ (exact → vs.length = n * rounds) := by
  induction rounds generalizing i env vs with
  | zero =>
    rw [iterate] at h
    cases h
    exact ⟨Nat.zero_le _, fun _ => rfl⟩
  | succ rounds ih =>
    obtain ⟨env₁, vs₁, vs₂, h₁, h₂, rfl⟩ := iterate_succ_finished_iff.mp h
    have hfirst := hbody i env env₁ vs₁ h₁
    have hrest := ih h₂
    have hsum : n * (rounds + 1) = n + n * rounds := by rw [Nat.mul_succ, Nat.add_comm]
    rw [List.length_append, hsum]
    refine ⟨Nat.add_le_add hfirst.1 hrest.1, fun hexact => ?_⟩
    rw [hfirst.2 hexact, hrest.2 hexact]

namespace Stmt

mutual

theorem length_run : ∀ {s : Stmt} {env env' : Env} {vs : List Vertex},
    s.run env = .ok (.finished env' vs) →
    vs.length ≤ s.emitCount ∧ ((∀ t ∈ s.parts, t.Balanced) → vs.length = s.emitCount)
  | .assign .., _, _, _, h => by
    obtain ⟨v, -, -, rfl⟩ := run_assign_finished_iff.mp h
    rw [emitCount]
    exact ⟨Nat.le_refl _, fun _ => rfl⟩
  | .emit _, _, _, _, h => by
    obtain ⟨v, -, -, rfl⟩ := run_emit_finished_iff.mp h
    rw [emitCount]
    exact ⟨Nat.le_refl _, fun _ => rfl⟩
  | .discard, env, _, _, h => by
    rw [run_discard] at h
    cases h
  | .condition test thenBody elseBody, _, _, vs, h => by
    rw [emitCount, forall_parts_condition]
    obtain ⟨v, -, hrun⟩ := run_condition_ok_iff.mp h
    split at hrun
    · obtain ⟨hle, heq⟩ := length_runAll hrun
      refine ⟨Nat.le_trans hle (Nat.le_max_left _ _), fun ⟨hsame, hthen, _⟩ => ?_⟩
      have hbranches : emitCountAll thenBody = emitCountAll elseBody := hsame
      rw [heq hthen, ← hbranches, Nat.max_self]
    · obtain ⟨hle, heq⟩ := length_runAll hrun
      refine ⟨Nat.le_trans hle (Nat.le_max_right _ _), fun ⟨hsame, _, helse⟩ => ?_⟩
      have hbranches : emitCountAll thenBody = emitCountAll elseBody := hsame
      rw [heq helse, hbranches, Nat.max_self]
  | .loop x first last body, _, _, _, h => by
    rw [run] at h
    rw [emitCount, forall_parts_loop]
    obtain ⟨hle, heq⟩ := length_iterate (fun _ _ _ _ hround => length_runAll hround) h
    exact ⟨hle, fun hbalanced => heq hbalanced.2⟩

/-- A run that ends leaves as many vertices as the count says at most, and exactly so many if no
branch counts more than the other. -/
theorem length_runAll : ∀ {ss : List Stmt} {env env' : Env} {vs : List Vertex},
    runAll ss env = .ok (.finished env' vs) →
    vs.length ≤ emitCountAll ss ∧ ((∀ t ∈ partsAll ss, t.Balanced) → vs.length = emitCountAll ss)
  | [], _, _, _, h => by
    rw [runAll] at h
    cases h
    rw [emitCountAll]
    exact ⟨Nat.le_refl _, fun _ => rfl⟩
  | s :: ss, _, _, _, h => by
    obtain ⟨_, vs₁, vs₂, h₁, h₂, rfl⟩ := runAll_cons_finished_iff.mp h
    obtain ⟨hle₁, heq₁⟩ := length_run h₁
    obtain ⟨hle₂, heq₂⟩ := length_runAll h₂
    rw [emitCountAll, List.length_append, forall_partsAll_cons]
    refine ⟨Nat.add_le_add hle₁ hle₂, fun ⟨hs, hss⟩ => ?_⟩
    rw [heq₁ hs, heq₂ hss]

end

end Stmt

namespace Specification

/-- The count of a flattened specification bounds the vertices of the original, and is their number
where nothing is discarded and both branches of each condition count the same. -/
theorem length_evaluate {s : Specification} {f : Flattened} {given : Dictionary Value}
    {vs : List Vertex} (hspans : ∀ t ∈ Stmt.partsAll s.statements, t.SpanFits)
    (hflat : s.flatten = .ok f) (hrun : s.evaluate given = .ok vs) :
    vs.length ≤ f.count ∧
      (Stmt.NoDiscardAll s.statements → (∀ t ∈ Stmt.partsAll s.statements, t.Balanced) →
        vs.length = f.count) := by
  rw [count_of_flatten hspans hflat]
  obtain ⟨env, -, hall⟩ := bind_ok.mp hrun
  obtain ⟨o, ho, hvertices⟩ := bind_ok.mp hall
  cases hvertices
  cases o with
  | discarded =>
    exact ⟨Nat.zero_le _, fun hdiscard => absurd ho (Stmt.runAll_ne_discarded env hdiscard)⟩
  | finished env' vs =>
    obtain ⟨hle, heq⟩ := Stmt.length_runAll ho
    exact ⟨hle, fun _ => heq⟩

/-- A running value that decides in each round which vertex to emit. -/
def alternation : Specification where
  inputs := [("w", { type := .float, default := none })]
  outputs := [("x", .float)]
  locals := [("i", .int), ("t", .float)]
  statements :=
    [.assign "t" (.var .float "w"),
     .loop "i" 0 2
      [.emit [("x", .var .float "t")],
       .condition (.test "<" (.var .float "t") (.const .float (.scalar 2)))
        [.assign "t" (.binary "+" (.var .float "t") (.const .float (.scalar 2))),
         .emit [("x", .var .float "t")]]
        [.emit [("x", .var .float "w")],
         .assign "t" (.binary "-" (.var .float "t") (.const .float (.scalar 1)))]]]

theorem length_evaluate_alternation :
    ∃ f vs, alternation.flatten = .ok f ∧ alternation.evaluate [("w", .scalar 0.5)] = .ok vs ∧
      vs.length = f.count ∧ f.count = 6 := by
  obtain ⟨f, hf⟩ : ∃ f, alternation.flatten = .ok f := ⟨_, rfl⟩
  have hcount : f.count = 6 := by
    cases hf
    rfl
  have hvs : alternation.evaluate [("w", .scalar 0.5)] =
      .ok ([0.5, 2.5, 2.5, 0.5, 1.5, 3.5].map fun x => [("x", .scalar x)]) := by decide +kernel
  exact ⟨f, _, hf, hvs, (length_evaluate (by decide) hf hvs).2 (by decide) (by decide), hcount⟩

end Specification

end DataMarks
