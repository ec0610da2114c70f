/-
  Runs of one code in two environments that agree on the variables that are not stale.

  A flattened run enters a loop in the middle, so what the rounds before have left in its
  variables is not there. `staleAfter` says which variables cannot be relied on behind a
  statement and `ReadsSettled` that no stale variable is read; where it holds, code runs
  the same way from environments that agree up to stale variables (`runAll_agree`).
-/
import DataMarks.Proofs.Run

namespace DataMarks

open Dictionary List

variable {stale : List String} {ss : List Stmt}

namespace Stmt

/-! ## Stale variables -/

mutual

/-- The variables that are stale behind a statement, from those that are in front of it. A loop
that emits makes all stale that it assigns; an assignment settles its variable. -/
def staleAfter (stale : List String) : Stmt → List String
  | assign x _ => stale.filter (· != x)
  | emit _ | discard => stale
  | condition _ thenBody elseBody => staleAfterAll stale thenBody ++ staleAfterAll stale elseBody
  | loop x first last body =>
    if loopRounds first last = 0 then stale
    else if (emitsAll body).isEmpty then staleAfterAll (stale.filter (· != x)) body
    else x :: (stale ++ assignsAll body)

def staleAfterAll (stale : List String) : List Stmt → List String
  | [] => stale
  | s :: ss => staleAfterAll (s.staleAfter stale) ss

end

mutual

/-- No stale variable is read. In the body of a loop that emits, all is stale at first that the
body assigns. -/
def ReadsSettled (stale : List String) : Stmt → Prop
  | assign _ e => ∀ r ∈ e.reads, r.1 ∉ stale
  | emit attributes => ∀ a ∈ attributes, ∀ r ∈ a.2.reads, r.1 ∉ stale
  | condition test thenBody elseBody =>
    (∀ r ∈ test.reads, r.1 ∉ stale) ∧
      ReadsSettledAll stale thenBody ∧ ReadsSettledAll stale elseBody
  | loop x first last body =>
    if loopRounds first last = 0 then True
    else if (emitsAll body).isEmpty then ReadsSettledAll (stale.filter (· != x)) body
    else ReadsSettledAll ((stale ++ assignsAll body).filter (· != x)) body
  | discard => True

def ReadsSettledAll (stale : List String) : List Stmt → Prop
  | [] => True
  | s :: ss => s.ReadsSettled stale ∧ ReadsSettledAll (s.staleAfter stale) ss

end

mutual

def decidableReadsSettled (stale : List String) : (s : Stmt) → Decidable (s.ReadsSettled stale)
  | assign _ e => inferInstanceAs (Decidable (∀ r ∈ e.reads, r.1 ∉ stale))
  | emit attributes => inferInstanceAs (Decidable (∀ a ∈ attributes, ∀ r ∈ a.2.reads, r.1 ∉ stale))
  | condition test thenBody elseBody =>
    have := decidableReadsSettledAll stale thenBody
    have := decidableReadsSettledAll stale elseBody
    inferInstanceAs (Decidable ((∀ r ∈ test.reads, r.1 ∉ stale) ∧
      ReadsSettledAll stale thenBody ∧ ReadsSettledAll stale elseBody))
  | loop x first last body =>
    have := decidableReadsSettledAll (stale.filter (· != x)) body
    have := decidableReadsSettledAll ((stale ++ assignsAll body).filter (· != x)) body
    inferInstanceAs (Decidable (if loopRounds first last = 0 then True
      else if (emitsAll body).isEmpty then ReadsSettledAll (stale.filter (· != x)) body
      else ReadsSettledAll ((stale ++ assignsAll body).filter (· != x)) body))
  | discard => inferInstanceAs (Decidable True)

def decidableReadsSettledAll (stale : List String) :
    (ss : List Stmt) → Decidable (ReadsSettledAll stale ss)
  | [] => inferInstanceAs (Decidable True)
  | s :: ss =>
    have := decidableReadsSettled stale s
    have := decidableReadsSettledAll (s.staleAfter stale) ss
    inferInstanceAs (Decidable (s.ReadsSettled stale ∧ ReadsSettledAll (s.staleAfter stale) ss))

end

instance (stale : List String) (ss : List Stmt) : Decidable (ReadsSettledAll stale ss) :=
  decidableReadsSettledAll stale ss

theorem mem_filter_ne {x y : String} : y ∈ stale.filter (· != x) ↔ y ∈ stale ∧ y ≠ x := by
  rw [mem_filter, bne_iff_ne]

/-- Only what is assigned can become stale, and only where something is emitted. -/
theorem staleAfterAll_subset {y : String} (h : y ∈ staleAfterAll stale ss) :
    y ∈ stale ∨ y ∈ assignsAll ss ∧ emitsAll ss ≠ [] := by
  induction ss using induct generalizing stale with
  | nil | emit | discard => exact .inl h
  | assign => exact .inl (mem_filter_ne.mp h).1
  | cons s ss ih₁ ih₂ =>
    obtain h | h := ih₂ h
    · refine (ih₁ h).imp_right fun h => ?_
      simp_all [assignsAll, emitsAll]
    · simp_all [assignsAll, emitsAll]
  | condition test thenBody elseBody ih₁ ih₂ =>
    simp only [staleAfterAll, staleAfter, mem_append] at h
    obtain h | h := h
    · exact (ih₁ h).imp_right fun h => by simp_all [assignsAll, assigns, emitsAll, emits]
    · exact (ih₂ h).imp_right fun h => by simp_all [assignsAll, assigns, emitsAll, emits]
  | loop x first last body ih =>
    simp only [staleAfterAll, staleAfter] at h
    simp only [assignsAll, assigns, emitsAll, emits, append_nil, mem_cons]
    split at h
    · exact .inl h
    · split at h
      · exact (ih h).imp (fun h => (mem_filter_ne.mp h).1) fun h => ⟨.inr h.1, h.2⟩
      · rename_i hemits
        rw [List.isEmpty_iff] at hemits
        rw [mem_cons, mem_append] at h
        obtain h | h | h := h
        · exact .inr ⟨.inl h, hemits⟩
        · exact .inl h
        · exact .inr ⟨.inr h, hemits⟩

theorem mem_mentionsAll_of_mem_assignsAll {x : String} (h : x ∈ assignsAll ss) :
    ∃ m ∈ mentionsAll ss, m.1 = x := by
  induction ss using induct with
  | nil | emit | discard => cases h
  | assign => exact ⟨_, mem_cons_self, (mem_singleton.mp h).symm⟩
  | cons s ss ih₁ ih₂ =>
    simp only [assignsAll, mentionsAll, append_nil, mem_append, or_and_right, exists_or] at *
    exact h.imp ih₁ ih₂
  | condition test thenBody elseBody ih₁ ih₂ =>
    simp only [assignsAll, assigns, mentionsAll, mentions, append_nil, mem_append,
      or_and_right, exists_or] at *
    exact h.imp (fun h => .inr (ih₁ h)) ih₂
  | loop y first last body ih =>
    simp only [assignsAll, assigns, mentionsAll, mentions, append_nil, mem_cons] at *
    obtain rfl | h := h
    · exact ⟨_, .inl rfl, rfl⟩
    · obtain ⟨m, hm, hx⟩ := ih h
      exact ⟨m, .inr hm, hx⟩

end Stmt

/-! ## Agreement -/

/-- Environments with the same values of the variables in `known` that are not stale. -/
def Agree (known stale : List String) (env env' : Env) : Prop :=
  ∀ x ∈ known, x ∉ stale → env'.get? x = env.get? x

namespace Agree

variable {known stale stale' : List String} {env env' : Env}

theorem mono (h : Agree known stale env env') (hsub : ∀ x ∈ stale, x ∈ stale') :
    Agree known stale' env env' :=
  fun x hx hs => h x hx fun hmem => hs (hsub x hmem)

/-- An assignment of the same value on both sides settles the variable. -/
theorem insert (h : Agree known stale env env') (x : String) (v : Value) :
    Agree known (stale.filter (· != x)) (env.insert x v) (env'.insert x v) := by
  intro y hy hs
  by_cases hyx : y = x
  · rw [hyx, get?_insert_self, get?_insert_self]
  · rw [get?_insert_of_ne hyx, get?_insert_of_ne hyx]
    exact h y hy fun hmem => hs (Stmt.mem_filter_ne.mpr ⟨hmem, hyx⟩)

/-- Runs on both sides that change nothing but what is stale behind them. -/
theorem frame {env₁ env₁' : Env} (h : Agree known stale env env')
    (hstale : ∀ x ∈ stale, x ∈ stale') (h₁ : ∀ x ∉ stale', env₁.get? x = env.get? x)
    (h₂ : ∀ x ∈ known, x ∉ stale' → env₁'.get? x = env'.get? x) : Agree known stale' env₁ env₁' := by
  intro x hx hs
  rw [h₁ x hs, h₂ x hx hs]
  exact h x hx fun hmem => hs (hstale x hmem)

theorem eval (h : Agree known stale env env') {e : Expr} (hk : ∀ r ∈ e.reads, r.1 ∈ known)
    (hs : ∀ r ∈ e.reads, r.1 ∉ stale) : e.eval env' = e.eval env :=
  Expr.eval_congr fun r hr => h r.1 (hk r hr) (hs r hr)

theorem emitVertex (h : Agree known stale env env') {attributes : Dictionary Expr}
    (hk : ∀ a ∈ attributes, ∀ r ∈ a.2.reads, r.1 ∈ known)
    (hs : ∀ a ∈ attributes, ∀ r ∈ a.2.reads, r.1 ∉ stale) :
    emitVertex env' attributes = DataMarks.emitVertex env attributes :=
  emitVertex_congr fun a ha r hr => h r.1 (hk a ha r hr) (hs a ha r hr)

end Agree

/-- What every round keeps between two runs, all rounds keep. -/
theorem iterate_related {R : Env → Env → Prop} {body : Int → Env → Except EvalError Outcome}
    (hbody : ∀ j env env' env₁ vs, R env env' → body j env = .ok (.finished env₁ vs) →
      ∃ env₁', body j env' = .ok (.finished env₁' vs) ∧ R env₁ env₁')
    {n : Nat} {i : Int} {env env' env₁ : Env} {vs : List Vertex} (hR : R env env')
    (h : iterate body n i env = .ok (.finished env₁ vs)) :
    ∃ env₁', iterate body n i env' = .ok (.finished env₁' vs) ∧ R env₁ env₁' := by
  induction n generalizing i env env' vs with
  | zero =>
    rw [iterate] at h
    cases h
    exact ⟨env', by rw [iterate], hR⟩
  | succ n ih =>
    obtain ⟨env₂, vs₁, vs₂, h₁, h₂, rfl⟩ := iterate_succ_finished_iff.mp h
    obtain ⟨env₂', h₁', hR₂⟩ := hbody i env env' env₂ vs₁ hR h₁
    obtain ⟨env₁', h₂', hR₁⟩ := ih hR₂ h₂
    exact ⟨env₁', iterate_succ_finished_iff.mpr ⟨_, _, _, h₁', h₂', rfl⟩, hR₁⟩

namespace Stmt

variable {known : List String}

/-- From environments that agree but for `stale`, the code runs alike, and they agree after it but
for what it leaves stale. -/
def RunsAlike (known stale : List String) (body : List Stmt) : Prop :=
  ∀ {env env' env₁ : Env} {vs : List Vertex}, Agree known stale env env' →
    runAll body env = .ok (.finished env₁ vs) →
    ∃ env₁', runAll body env' = .ok (.finished env₁' vs) ∧
      Agree known (staleAfterAll stale body) env₁ env₁'

section Rounds

variable {x : String} {body : List Stmt} {stale : List String} {n : Nat} {i : Int}
  {env env' env₁ : Env} {vs : List Vertex}

/-- Rounds that emit nothing: the first one settles what it can, and the further ones keep that. -/
theorem iterate_agree_of_no_emits (he : emitsAll body = [])
    (hbody : RunsAlike known (stale.filter (· != x)) body) (ha : Agree known stale env env')
    (h : iterate (fun j env => runAll body (env.insert x (.scalar (Float.ofInt j)))) (n + 1) i env =
      .ok (.finished env₁ vs)) :
    ∃ env₁', iterate (fun j env => runAll body (env.insert x (.scalar (Float.ofInt j)))) (n + 1) i
        env' = .ok (.finished env₁' vs) ∧
      Agree known (staleAfterAll (stale.filter (· != x)) body) env₁ env₁' := by
  obtain ⟨env₂, vs₁, vs₂, h₁, h₂, rfl⟩ := iterate_succ_finished_iff.mp h
  obtain ⟨env₂', h₁', ha₂⟩ := hbody (ha.insert x _) h₁
  obtain ⟨env₁', h₂', ha₁⟩ := iterate_related (fun j env env' env₁ vs ha hrun =>
    hbody ((ha.insert x (.scalar (Float.ofInt j))).mono fun y hy =>
      (staleAfterAll_subset (mem_filter_ne.mp hy).1).resolve_right fun h => h.2 he) hrun) ha₂ h₂
  exact ⟨env₁', iterate_succ_finished_iff.mpr ⟨_, _, _, h₁', h₂', rfl⟩, ha₁⟩

/-- Rounds that emit: whatever they assign counts as stale from the start. -/
theorem iterate_agree (hbody : RunsAlike known ((stale ++ assignsAll body).filter (· != x)) body)
    (ha : Agree known stale env env')
    (h : iterate (fun j env => runAll body (env.insert x (.scalar (Float.ofInt j)))) n i env =
      .ok (.finished env₁ vs)) :
    ∃ env₁', iterate (fun j env => runAll body (env.insert x (.scalar (Float.ofInt j)))) n i env' =
        .ok (.finished env₁' vs) ∧
      Agree known (x :: (stale ++ assignsAll body)) env₁ env₁' := by
  refine iterate_related (R := Agree known (x :: (stale ++ assignsAll body))) ?_
    (ha.mono fun y hy => mem_cons_of_mem _ (mem_append_left _ hy)) h
  intro j env env' env₁ vs ha hrun
  have hin : Agree known ((stale ++ assignsAll body).filter (· != x))
      (env.insert x (.scalar (Float.ofInt j))) (env'.insert x (.scalar (Float.ofInt j))) := by
    refine (ha.insert x _).mono fun y hy => ?_
    obtain ⟨hmem, hne⟩ := mem_filter_ne.mp hy
    exact mem_filter_ne.mpr ⟨(mem_cons.mp hmem).resolve_left hne, hne⟩
  obtain ⟨env₁', hrun', ha'⟩ := hbody hin hrun
  refine ⟨env₁', hrun', ha'.mono fun y hy => mem_cons_of_mem _ ?_⟩
  obtain hy | ⟨hy, -⟩ := staleAfterAll_subset hy
  · exact (mem_filter_ne.mp hy).1
  · exact mem_append_right _ hy

end Rounds

/-- Code that reads no stale variable runs the same way in environments that agree. -/
theorem runAll_agree (hm : ∀ m ∈ mentionsAll ss, m.1 ∈ known) (hr : ReadsSettledAll stale ss) :
    RunsAlike known stale ss := by
  induction ss using induct generalizing stale with
  | nil =>
    intro env env' env₁ vs ha h
    rw [runAll] at h ⊢
    cases h
    exact ⟨env', rfl, ha⟩
  | cons s ss ih₁ ih₂ =>
    intro env env' env₁ vs ha h
    rw [mentionsAll, forall_mem_append] at hm
    obtain ⟨env₂, vs₁, vs₂, h₁, h₂, rfl⟩ := runAll_cons_finished_iff.mp h
    rw [← runAll_singleton] at h₁
    obtain ⟨env₂', h₁', ha₂⟩ := ih₁ (by simpa [mentionsAll] using hm.1) ⟨hr.1, trivial⟩ ha h₁
    obtain ⟨env₁', h₂', ha₁⟩ := ih₂ hm.2 hr.2 ha₂ h₂
    rw [runAll_singleton] at h₁'
    exact ⟨env₁', runAll_cons_finished_iff.mpr ⟨_, _, _, h₁', h₂', rfl⟩, ha₁⟩
  | assign x e =>
    intro env env' env₁ vs ha h
    simp only [mentionsAll, mentions, append_nil, forall_mem_cons] at hm
    rw [runAll_singleton] at h ⊢
    obtain ⟨v, hv, rfl, rfl⟩ := run_assign_finished_iff.mp h
    rw [← ha.eval hm.2 hr.1] at hv
    exact ⟨_, run_assign_finished_iff.mpr ⟨v, hv, rfl, rfl⟩, ha.insert x v⟩
  | emit attributes =>
    intro env env' env₁ vs ha h
    simp only [mentionsAll, mentions, append_nil] at hm
    rw [runAll_singleton] at h ⊢
    obtain ⟨v, hv, rfl, rfl⟩ := run_emit_finished_iff.mp h
    rw [← ha.emitVertex (fun a ha r hr => hm r (mem_flatMap.mpr ⟨a, ha, hr⟩)) hr.1] at hv
    exact ⟨_, run_emit_finished_iff.mpr ⟨v, hv, rfl, rfl⟩, ha⟩
  | discard =>
    intro env env' env₁ vs ha h
    rw [runAll_singleton, run_discard] at h
    cases h
  | condition test thenBody elseBody ih₁ ih₂ =>
    intro env env' env₁ vs ha h
    simp only [mentionsAll, mentions, append_nil, forall_mem_append] at hm
    obtain ⟨⟨hrtest, hrthen, hrelse⟩, -⟩ := hr
    rw [runAll_singleton] at h ⊢
    obtain ⟨v, hv, hrun⟩ := run_condition_ok_iff.mp h
    rw [← ha.eval hm.1.1 hrtest] at hv
    cases hc : v.truthy with
    | true =>
      rw [hc, if_pos rfl] at hrun
      obtain ⟨env₁', hrun', ha'⟩ := ih₁ hm.1.2 hrthen ha hrun
      refine ⟨env₁', run_condition_ok_iff.mpr ⟨v, hv, ?_⟩, ha'.mono fun x => mem_append_left _⟩
      rwa [hc, if_pos rfl]
    | false =>
      rw [hc, if_neg Bool.false_ne_true] at hrun
      obtain ⟨env₁', hrun', ha'⟩ := ih₂ hm.2 hrelse ha hrun
      refine ⟨env₁', run_condition_ok_iff.mpr ⟨v, hv, ?_⟩, ha'.mono fun x => mem_append_right _⟩
      rwa [hc, if_neg Bool.false_ne_true]
  | loop x first last body ih =>
    intro env env' env₁ vs ha h
    simp only [mentionsAll, mentions, append_nil, forall_mem_cons] at hm
    have hr := hr.1
    rw [ReadsSettled] at hr
    rw [staleAfterAll, staleAfterAll, staleAfter]
    rw [runAll_singleton, run] at h ⊢
    cases hn : loopRounds first last with
    | zero =>
      rw [hn, iterate] at h
      cases h
      exact ⟨env', by rw [iterate], by rwa [if_pos rfl]⟩
    | succ n =>
      rw [hn] at hr h
      rw [if_neg (Nat.succ_ne_zero n)] at hr ⊢
      cases he : (emitsAll body).isEmpty with
      | true =>
        rw [he, if_pos rfl] at hr
        rw [if_pos rfl]
        exact iterate_agree_of_no_emits (List.isEmpty_iff.mp he) (ih hm.2 hr) ha h
      | false =>
        rw [he, if_neg Bool.false_ne_true] at hr
        rw [if_neg Bool.false_ne_true]
        exact iterate_agree (ih hm.2 hr) ha h

end Stmt

end DataMarks
