/-
  The counts that the flattener meets.

  It counts an emit once, a condition as its larger branch, and a loop as its body times its
  rounds, where a loop with bounds too far apart has none (`Stmt.slots`). It fails only
  where one of these counts is too large: exactly where the branches of a condition, the body
  of a loop, the loop or the whole code have too many (`Flattens.counts`,
  `stmtsFrom_succeeds`). So neither the count nor the success depends on the names in use.
-/
import DataMarks.Proofs.FlattenedCode

namespace DataMarks

open List

namespace Stmt

mutual

/-- The statement and all the statements in it. -/
def parts : Stmt → List Stmt
  | condition test thenBody elseBody =>
    condition test thenBody elseBody :: (partsAll thenBody ++ partsAll elseBody)
  | loop x first last body => loop x first last body :: partsAll body
  | assign x e => [assign x e]
  | emit attributes => [emit attributes]
  | discard => [discard]

def partsAll : List Stmt → List Stmt
  | [] => []
  | s :: ss => s.parts ++ partsAll ss

end

theorem partsAll_singleton (s : Stmt) : partsAll [s] = s.parts := by
  rw [partsAll, partsAll, append_nil]

section Parts

variable {P : Stmt → Prop}

theorem forall_parts_condition {test : Expr} {thenBody elseBody : List Stmt} :
    (∀ t ∈ (condition test thenBody elseBody).parts, P t) ↔
      P (condition test thenBody elseBody) ∧ (∀ t ∈ partsAll thenBody, P t) ∧
        ∀ t ∈ partsAll elseBody, P t := by
  rw [parts, forall_mem_cons, forall_mem_append]

theorem forall_parts_loop {x : String} {first last : Int} {body : List Stmt} :
    (∀ t ∈ (loop x first last body).parts, P t) ↔
      P (loop x first last body) ∧ ∀ t ∈ partsAll body, P t := by
  rw [parts, forall_mem_cons]

theorem forall_partsAll_cons {s : Stmt} {ss : List Stmt} :
    (∀ t ∈ partsAll (s :: ss), P t) ↔ (∀ t ∈ s.parts, P t) ∧ ∀ t ∈ partsAll ss, P t := by
  rw [partsAll, forall_mem_append]

end Parts

mutual

/-- How many vertices the flattener counts for a statement. -/
def slots : Stmt → Nat
  | assign .. | discard => 0
  | emit _ => 1
  | condition _ thenBody elseBody => max (slotsAll thenBody) (slotsAll elseBody)
  | loop _ first last body => slotsAll body * Flattening.tripCount first last

def slotsAll : List Stmt → Nat
  | [] => 0
  | s :: ss => s.slots + slotsAll ss

end

theorem slotsAll_singleton (s : Stmt) : slotsAll [s] = s.slots := by
  rw [slotsAll, slotsAll, Nat.add_zero]

/-- The counts of the bodies of a statement, and that of all rounds of a loop, are not too large. -/
def CountFits : Stmt → Prop
  | condition _ thenBody elseBody =>
    slotsAll thenBody ≤ Flattening.maxEmits ∧ slotsAll elseBody ≤ Flattening.maxEmits
  | loop _ first last body => slotsAll body ≤ Flattening.maxEmits ∧
    slotsAll body * Flattening.tripCount first last ≤ Flattening.maxEmits
  | assign .. | emit _ | discard => True

end Stmt

namespace Flattening

open Stmt

variable {c : Counters}

/-- The count of flattened code, and what is known of the counts in it. -/
theorem Flattens.counts {ss flat : List Stmt} {n : Nat} {names names' : Names}
    (h : Flattens c ss flat n names names') : n = slotsAll ss ∧ ∀ t ∈ partsAll ss, t.CountFits := by
  induction h with
  | nil | assign | discard | emit => simp [slotsAll, slots, partsAll, parts, CountFits]
  | cons _ _ ih₁ ih₂ =>
    rw [slotsAll_singleton, partsAll_singleton] at ih₁
    rw [slotsAll, forall_partsAll_cons, ih₁.1, ih₂.1]
    exact ⟨rfl, ih₁.2, ih₂.2⟩
  | condition _ _ hthenLe helseLe ih₁ ih₂ =>
    rw [slotsAll_singleton, slots, partsAll_singleton, forall_parts_condition, CountFits, ← ih₁.1,
      ← ih₂.1]
    exact ⟨rfl, ⟨hthenLe, helseLe⟩, ih₁.2, ih₂.2⟩
  | idle _ hle hnone ih =>
    rw [slotsAll_singleton, slots, partsAll_singleton, forall_parts_loop, CountFits, ← ih.1,
      Nat.mul_eq_zero.mpr hnone]
    exact ⟨rfl, ⟨hle, Nat.zero_le _⟩, ih.2⟩
  | window _ hle _ htotal _ ih =>
    rw [slotsAll_singleton, slots, partsAll_singleton, forall_parts_loop, CountFits, ← ih.1]
    exact ⟨rfl, ⟨hle, htotal⟩, ih.2⟩

mutual

theorem stmt_succeeds : ∀ {s : Stmt} (names : Names), (∀ t ∈ s.parts, t.CountFits) →
    ∃ r names', stmt c s names = .ok (r, names')
  | .assign .., names, _ => by
    rw [stmt]
    exact ⟨_, names, rfl⟩
  | .discard, names, _ => by
    rw [stmt]
    exact ⟨_, names, rfl⟩
  | .emit _, names, _ => by
    rw [stmt]
    exact ⟨_, names, rfl⟩
  | .condition test thenBody elseBody, names, hfits => by
    obtain ⟨hle, hthen, helse⟩ := forall_parts_condition.mp hfits
    rw [CountFits] at hle
    obtain ⟨r₁, names₁, h₁⟩ := stmtsFrom_succeeds 0 names hthen (by omega)
    obtain ⟨r₂, names₂, h₂⟩ := stmtsFrom_succeeds 0 names₁ helse (by omega)
    rw [stmt]
    exact ⟨_, _, bind_ok_iff.mpr ⟨r₁, names₁, h₁, bind_ok_iff.mpr ⟨r₂, names₂, h₂, rfl⟩⟩⟩
  | .loop x first last body, names, hfits => by
    obtain ⟨⟨hbodyLe, hle⟩, hbody⟩ := forall_parts_loop.mp hfits
    obtain ⟨⟨flat, perRound⟩, names₁, h₁⟩ := stmtsFrom_succeeds 0 names hbody (by omega)
    have htotal : perRound * tripCount first last ≤ maxEmits :=
      (stmts_flattens h₁).2.counts.1 ▸ hle
    rw [stmt]
    refine Exists.imp (fun r => Exists.imp fun names' h => bind_ok_iff.mpr ⟨_, names₁, h₁, h⟩) ?_
    dsimp only
    split
    · exact ⟨_, names₁, rfl⟩
    · exact ⟨_, _, bind_ok_iff.mpr ⟨_, _, checkCount_ok_iff.mpr ⟨htotal, rfl, rfl⟩, rfl⟩⟩

/-- The flattener accepts a block if no count that it meets is too large. -/
theorem stmtsFrom_succeeds : ∀ {ss : List Stmt} (count : Nat) (names : Names),
    (∀ t ∈ partsAll ss, t.CountFits) → count + slotsAll ss ≤ maxEmits →
    ∃ r names', stmtsFrom c count ss names = .ok (r, names')
  | [], _, names, _, _ => by
    rw [stmtsFrom]
    exact ⟨_, names, rfl⟩
  | s :: ss, count, names, hfits, hle => by
    obtain ⟨hs, hss⟩ := forall_partsAll_cons.mp hfits
    rw [slotsAll] at hle
    obtain ⟨⟨flat, n⟩, names₁, h₁⟩ := stmt_succeeds names hs
    have hn := (stmt_flattens h₁).counts.1
    rw [slotsAll_singleton] at hn
    obtain ⟨r, names', h₂⟩ := stmtsFrom_succeeds (count + n) names₁ hss (by omega)
    have hcheck : checkCount (count + n) names₁ = .ok (count + n, names₁) :=
      checkCount_ok_iff.mpr ⟨by omega, rfl, rfl⟩
    rw [stmtsFrom]
    exact ⟨_, _, bind_ok_iff.mpr ⟨_, names₁, h₁, bind_ok_iff.mpr ⟨_, names₁, hcheck,
      bind_ok_iff.mpr ⟨r, names', h₂, rfl⟩⟩⟩⟩

end

end Flattening

namespace Specification

open Flattening

/-- A specification can be flattened if no count that the flattener meets is too large. -/
theorem flatten_of_countFits {s : Specification} (hle : Stmt.slotsAll s.statements ≤ maxEmits)
    (hfits : ∀ t ∈ Stmt.partsAll s.statements, t.CountFits) : ∃ f, s.flatten = .ok f := by
  have hwith : ∃ f names', s.flattenWith { taken := s.declared } = .ok (f, names') := by
    unfold flattenWith
    obtain ⟨r, names', hbody⟩ := stmtsFrom_succeeds
      (c := ⟨Name.fresh "s3vidx" (Name.fresh "s3idx" s.declared :: s.declared), _⟩) 0 _
      hfits (by omega)
    exact ⟨_, _, bind_ok_iff.mpr ⟨_, _, freshName_ok_iff.mpr ⟨rfl, rfl⟩,
      bind_ok_iff.mpr ⟨_, _, freshName_ok_iff.mpr ⟨rfl, rfl⟩,
      bind_ok_iff.mpr ⟨_, _, freshName_ok_iff.mpr ⟨rfl, rfl⟩,
      bind_ok_iff.mpr ⟨_, _, hbody, rfl⟩⟩⟩⟩⟩
  obtain ⟨f, names', hf⟩ := hwith
  refine ⟨f, ?_⟩
  unfold flatten
  rw [StateT.run, hf]
  rfl

end Specification

end DataMarks
