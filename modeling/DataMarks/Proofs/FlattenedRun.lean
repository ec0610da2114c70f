/-
  Flattened runs: the flattened form of a part of a specification gives, for the index `i`,
  the vertex in slot `i` of the original run.

  A run of the original leaves a row of slots, each with or without a vertex: one for an
  emit, those of all rounds padded to the same number for a loop. `Simulates` is the
  statement for code that is met with the cursor at `k`; it goes through statement by
  statement, and for a loop through the one round that holds the index.
-/
import DataMarks.Proofs.Agreement
import DataMarks.Proofs.FlattenedCode

namespace DataMarks

open Dictionary List Stmt

namespace Stmt

mutual

/-- All loop bounds are whole numbers that floats hold exactly. -/
def BoundsExact : Stmt → Prop
  | assign .. | emit _ | discard => True
  | condition _ thenBody elseBody => BoundsExactAll thenBody ∧ BoundsExactAll elseBody
  | loop _ first last body =>
    first.natAbs ≤ 2 ^ 53 ∧ last.natAbs ≤ 2 ^ 53 ∧ BoundsExactAll body

def BoundsExactAll : List Stmt → Prop
  | [] => True
  | s :: ss => s.BoundsExact ∧ BoundsExactAll ss

end

mutual

def decidableBoundsExact : (s : Stmt) → Decidable s.BoundsExact
  | assign .. | emit _ | discard => inferInstanceAs (Decidable True)
  | condition _ thenBody elseBody =>
    have := decidableBoundsExactAll thenBody
    have := decidableBoundsExactAll elseBody
    inferInstanceAs (Decidable (BoundsExactAll thenBody ∧ BoundsExactAll elseBody))
  | loop _ first last body =>
    have := decidableBoundsExactAll body
    inferInstanceAs (Decidable
      (first.natAbs ≤ 2 ^ 53 ∧ last.natAbs ≤ 2 ^ 53 ∧ BoundsExactAll body))

def decidableBoundsExactAll : (ss : List Stmt) → Decidable (BoundsExactAll ss)
  | [] => inferInstanceAs (Decidable True)
  | s :: ss =>
    have := decidableBoundsExact s
    have := decidableBoundsExactAll ss
    inferInstanceAs (Decidable (s.BoundsExact ∧ BoundsExactAll ss))

end

instance (ss : List Stmt) : Decidable (BoundsExactAll ss) := decidableBoundsExactAll ss

end Stmt

namespace Flattening

/-! ## Slots -/

/-- The vertex that is due at index `i` in slots that begin at `k`. -/
def slotAt (slots : List (Option Vertex)) (k i : Nat) : List Vertex :=
  if k ≤ i then (slots[i - k]?.join).toList else []

variable {rounds : List (List (Option Vertex))}

section Slots

variable {slots : List (Option Vertex)} {k i : Nat}

theorem slotAt_of_lt (h : i < k) : slotAt slots k i = [] := if_neg (Nat.not_le.mpr h)

theorem slotAt_of_le (h : k + slots.length ≤ i) : slotAt slots k i = [] := by
  unfold slotAt
  rw [if_pos (by omega), getElem?_eq_none (by omega)]
  rfl

theorem slotAt_nil : slotAt [] k i = [] := by
  by_cases h : i < k
  · exact slotAt_of_lt h
  · exact slotAt_of_le (by rw [length_nil]; omega)

theorem length_slotAt_le : (slotAt slots k i).length ≤ 1 := by
  unfold slotAt
  split
  · cases slots[i - k]?.join <;> simp
  · exact Nat.zero_le 1

theorem slotAt_append (more : List (Option Vertex)) :
    slotAt (slots ++ more) k i = slotAt slots k i ++ slotAt more (k + slots.length) i := by
  by_cases hk : i < k
  · rw [slotAt_of_lt hk, slotAt_of_lt hk, slotAt_of_lt (by omega)]
    rfl
  by_cases hi : i < k + slots.length
  · rw [slotAt_of_lt hi, append_nil]
    unfold slotAt
    rw [if_pos (by omega), if_pos (by omega), getElem?_append_left (by omega)]
  · have hbehind : slotAt slots k i = [] := slotAt_of_le (by omega)
    rw [hbehind, nil_append]
    unfold slotAt
    rw [if_pos (by omega), if_pos (by omega), getElem?_append_right (by omega), Nat.sub_add_eq]

theorem slotAt_singleton (v : Vertex) : slotAt [some v] k i = if i = k then [v] else [] := by
  by_cases h : i = k
  · rw [if_pos h, h]
    unfold slotAt
    rw [if_pos (Nat.le_refl k), Nat.sub_self]
    rfl
  · rw [if_neg h]
    by_cases hk : i < k
    · exact slotAt_of_lt hk
    · exact slotAt_of_le (by rw [length_singleton]; omega)

theorem slotAt_replicate_none (n : Nat) : slotAt (List.replicate n none) k i = [] := by
  unfold slotAt
  rw [getElem?_replicate]
  split
  · split <;> rfl
  · rfl

/-- Slots without a vertex that make a number full. -/
theorem slotAt_padded (n : Nat) :
    slotAt (slots ++ List.replicate n none) k i = slotAt slots k i := by
  rw [slotAt_append, slotAt_replicate_none, append_nil]

/-- In rounds of equally many slots, the index picks its round by division. -/
theorem slotAt_flatten {p : Nat} (hpos : 0 < p) (hp : ∀ round ∈ rounds, round.length = p)
    (hle : k ≤ i) {r : Nat} (hr : r = (i - k) / p) (hlt : r < rounds.length) :
    slotAt rounds.flatten k i = slotAt rounds[r] (k + r * p) i := by
  induction rounds generalizing k r with
  | nil => cases hlt
  | cons round rounds ih =>
    have hround : round.length = p := hp round mem_cons_self
    rw [flatten_cons, slotAt_append, hround]
    cases r with
    | zero =>
      have hi : i < k + p := by
        have := (Nat.div_eq_zero_iff_lt hpos).mp hr.symm
        omega
      rw [slotAt_of_lt hi, append_nil, Nat.zero_mul, Nat.add_zero]
      rfl
    | succ r =>
      have hpi : p ≤ i - k := by
        refine (Nat.div_pos_iff.mp ?_).2
        rw [← hr]
        exact Nat.succ_pos r
      have hr' : r = (i - (k + p)) / p := by
        rw [Nat.sub_add_eq, ← Nat.add_right_cancel_iff (n := 1), hr,
          ← Nat.add_div_right _ hpos, Nat.sub_add_cancel hpi]
      have hbehind : slotAt round k i = [] := slotAt_of_le (by omega)
      rw [hbehind, nil_append,
        ih (fun round h => hp round (mem_cons_of_mem _ h)) (by omega) hr' (by simpa using hlt),
        getElem_cons_succ, Nat.succ_mul, Nat.add_assoc, Nat.add_comm p]

theorem length_flatten_of_rounds {p : Nat} (hp : ∀ round ∈ rounds, round.length = p) :
    rounds.flatten.length = p * rounds.length := by
  rw [length_flatten, map_congr_left hp, map_const', sum_replicate_nat, Nat.mul_comm]

/-- Slot by slot, the vertices come in order. -/
theorem flatMap_slotAt {n : Nat} (h : slots.length ≤ n) :
    (List.range' k n).flatMap (slotAt slots k) = slots.filterMap id := by
  induction slots generalizing k n with
  | nil =>
    rw [filterMap_nil, flatMap_eq_nil_iff]
    intro i _
    exact slotAt_nil
  | cons slot slots ih =>
    obtain ⟨n, rfl⟩ : ∃ m, n = m + 1 := ⟨n - 1, by rw [length_cons] at h; omega⟩
    have hfirst : slotAt (slot :: slots) k k = slot.toList := by
      unfold slotAt
      rw [if_pos (Nat.le_refl k), Nat.sub_self]
      rfl
    have hrest : (List.range' (k + 1) n).flatMap (slotAt (slot :: slots) k) =
        (List.range' (k + 1) n).flatMap (slotAt slots (k + 1)) := by
      refine flatMap_congr fun i hi => ?_
      have hi : k + 1 ≤ i := (mem_range'_1.mp hi).1
      have hbehind : slotAt [slot] k i = [] := slotAt_of_le hi
      rw [← singleton_append, slotAt_append, length_singleton, hbehind, nil_append]
    rw [range'_succ, flatMap_cons, hfirst, hrest, ih (by rw [length_cons] at h; omega)]
    cases slot <;> rfl

end Slots

/-! ## Simulation -/

/-- The variables of the original are apart from the counters, and all of them are taken. -/
structure Setting (c : Counters) (known : List String) (names : Names) : Prop where
  vertex_ne_cursor : c.vertex ≠ c.cursor
  vertex_taken : c.vertex ∈ names.taken
  cursor_taken : c.cursor ∈ names.taken
  vertex_new : c.vertex ∉ known
  cursor_new : c.cursor ∉ known
  known_taken : ∀ x ∈ known, x ∈ names.taken

variable {known : List String}

theorem Setting.mono {c : Counters} {names names' : Names} (h : Setting c known names)
    (hsub : ∀ x ∈ names.taken, x ∈ names'.taken) : Setting c known names' :=
  { h with
    vertex_taken := hsub _ h.vertex_taken
    cursor_taken := hsub _ h.cursor_taken
    known_taken := fun x hx => hsub x (h.known_taken x hx) }

theorem Setting.apart {c : Counters} {names : Names} {start x : String} (h : Setting c known names)
    (hstart : start ∉ names.taken) (hx : x ∈ known) : Counters.Apart c start x :=
  { vertex_ne_cursor := h.vertex_ne_cursor
    start_ne_vertex := fun he => hstart (he ▸ h.vertex_taken)
    start_ne_cursor := fun he => hstart (he ▸ h.cursor_taken)
    start_ne_var := fun he => hstart (he ▸ h.known_taken x hx)
    var_ne_vertex := fun he => h.vertex_new (he ▸ hx)
    var_ne_cursor := fun he => h.cursor_new (he ▸ hx) }

section Windows

variable {c : Counters} {known : List String} {names names₁ : Names} {body flat : List Stmt}

/-- The flattened body of a loop leaves the start of the loop, a name that comes after its own. -/
theorem Setting.start_not_assigned {start : String} (h : Setting c known names)
    (hissues : Issues c names names₁ (assignsAll body) (assignsAll flat))
    (hstart : start ∉ names₁.taken) (hbody : ∀ y ∈ assignsAll body, y ∈ known) :
    start ∉ assignsAll flat := by
  have h₁ := h.mono hissues.taken
  intro hmem
  obtain hmem | rfl | ⟨hmem, -⟩ := hissues.assigned start hmem
  · exact hstart (h₁.known_taken start (hbody start hmem))
  · exact hstart h₁.cursor_taken
  · exact hstart hmem

theorem Setting.vertex_not_assigned (h : Setting c known names)
    (hissues : Issues c names names₁ (assignsAll body) (assignsAll flat))
    (hbody : ∀ y ∈ assignsAll body, y ∈ known) : c.vertex ∉ assignsAll flat :=
  hissues.not_assigned h.vertex_taken (fun hv => h.vertex_new (hbody _ hv)) h.vertex_ne_cursor

end Windows

/-- The flattened code, met with the cursor at `k`, gives what is due at the index in slots that
begin there, and moves the cursor behind them; `env` and `env₁` are the environments before and
after the original code. -/
def Simulates (c : Counters) (known stale stale' : List String) (n : Nat) (flat : List Stmt)
    (env env₁ : Env) (slots : List (Option Vertex)) : Prop :=
  ∀ env' i k, Agree known stale env env' → c.At env' i k → i < 2 ^ 31 → k + n < 2 ^ 31 →
    ∃ env₁', Stmt.runAll flat env' = .ok (.finished env₁' (slotAt slots k i)) ∧
      Agree known stale' env₁ env₁' ∧ c.At env₁' i (k + slots.length)

section Simulation

variable {c : Counters} {known stale : List String}
variable {env env₁ : Env} {names : Names} {n perRound : Nat} {stale' : List String}
  {slots : List (Option Vertex)} {flat body : List Stmt} {first last : Int} {vs : List Vertex}
  {start x : String}

theorem Simulates.append {stale₁ stale₂ : List String} {n₁ n₂ : Nat} {flat₁ flat₂ : List Stmt}
    {env₂ : Env} {slots₁ slots₂ : List (Option Vertex)} (hlen : slots₁.length ≤ n₁)
    (h₁ : Simulates c known stale stale₁ n₁ flat₁ env env₁ slots₁)
    (h₂ : Simulates c known stale₁ stale₂ n₂ flat₂ env₁ env₂ slots₂) :
    Simulates c known stale stale₂ (n₁ + n₂) (flat₁ ++ flat₂) env env₂ (slots₁ ++ slots₂) := by
  intro env' i k hagree hat hi hk
  obtain ⟨env₁', hrun₁, hagree₁, hat₁⟩ := h₁ env' i k hagree hat hi (by omega)
  obtain ⟨env₂', hrun₂, hagree₂, hat₂⟩ := h₂ env₁' i _ hagree₁ hat₁ hi (by omega)
  refine ⟨env₂', runAll_append_finished_iff.mpr ⟨_, _, _, hrun₁, hrun₂, slotAt_append _⟩,
    hagree₂, ?_⟩
  rwa [length_append, ← Nat.add_assoc]

/-- Code that stays as it is and emits nothing. -/
theorem simulates_same {ss : List Stmt} (hset : Setting c known names)
    (hm : ∀ m ∈ mentionsAll ss, m.1 ∈ known) (hr : ReadsSettledAll stale ss)
    (hrun : runAll ss env = .ok (.finished env₁ [])) :
    Simulates c known stale (staleAfterAll stale ss) n ss env env₁ [] := by
  intro env' i k hagree hat hi hk
  obtain ⟨env₁', hrun', hagree'⟩ := runAll_agree hm hr hagree hrun
  have hold : ∀ x ∉ known, x ∉ assignsAll ss := by
    intro x hx hmem
    obtain ⟨m, hmention, rfl⟩ := mem_mentionsAll_of_mem_assignsAll hmem
    exact hx (hm m hmention)
  refine ⟨env₁', by rw [slotAt_nil, hrun'], hagree', ?_⟩
  exact hat.of_runAll (hold _ hset.vertex_new) (hold _ hset.cursor_new) hrun'

/-- A condition goes the same way on both sides. -/
theorem simulates_condition {test : Expr} {flatThen flatElse : List Stmt} {v : Value}
    (hm : ∀ r ∈ test.reads, r.1 ∈ known) (hr : ∀ r ∈ test.reads, r.1 ∉ stale)
    (hv : test.eval env = .ok v)
    (hbranch : Simulates c known stale stale' n (if v.truthy then flatThen else flatElse) env env₁
      slots) :
    Simulates c known stale stale' n [.condition test flatThen flatElse] env env₁ slots := by
  intro env' i k hagree hat hi hk
  obtain ⟨env₁', hrun, hagree', hat'⟩ := hbranch env' i k hagree hat hi hk
  rw [← hagree.eval hm hr] at hv
  refine ⟨env₁', runAll_cons_finished_iff.mpr ⟨_, _, [],
    run_condition_ok_iff.mpr ⟨v, hv, hrun⟩, by rw [runAll], ?_⟩, hagree', hat'⟩
  rw [append_nil]

theorem Simulates.mono {stale₁ stale₂ : List String} {m : Nat}
    (h : Simulates c known stale stale₁ n flat env env₁ slots) (hn : n ≤ m)
    (hsub : ∀ x ∈ stale₁, x ∈ stale₂) : Simulates c known stale stale₂ m flat env env₁ slots := by
  intro env' i k hagree hat hi hk
  obtain ⟨env₁', hrun, hagree', hat'⟩ := h env' i k hagree hat hi (by omega)
  exact ⟨env₁', hrun, hagree'.mono hsub, hat'⟩

theorem simulates_emit {attributes : Dictionary Expr} {v : Vertex} (hne : c.vertex ≠ c.cursor)
    (hnew : c.cursor ∉ known) (hm : ∀ a ∈ attributes, ∀ r ∈ a.2.reads, r.1 ∈ known)
    (hr : ∀ a ∈ attributes, ∀ r ∈ a.2.reads, r.1 ∉ stale) (hv : emitVertex env attributes = .ok v) :
    Simulates c known stale stale 1 (c.guardEmit attributes) env env [some v] := by
  intro env' i k hagree hat hi hk
  rw [← hagree.emitVertex hm hr] at hv
  refine ⟨_, ?_, ?_, hat.insert_cursor hne (k + 1)⟩
  · rw [Counters.run_guardEmit hat hi (by omega) hv, slotAt_singleton]
  · intro x hx hs
    have hne : x ≠ c.cursor := fun h => hnew (h ▸ hx)
    rw [get?_insert_of_ne hne]
    exact hagree x hx hs

/-- The rounds of a loop: slots for each of them, and what holds of the round `r` holds of it in
the environment that the rounds before it leave. -/
theorem rounds_of_iterate {p : Nat} {body : Int → Env → Except EvalError Outcome}
    {P : Int → Env → List (Option Vertex) → Prop}
    (hbody : ∀ j env env₁ vs, body j env = .ok (.finished env₁ vs) →
      ∃ slots : List (Option Vertex), slots.length = p ∧ slots.filterMap id = vs ∧ P j env slots)
    (h : iterate body n first env = .ok (.finished env₁ vs)) :
    ∃ rounds : List (List (Option Vertex)), rounds.length = n ∧
      (∀ round ∈ rounds, round.length = p) ∧ rounds.flatten.filterMap id = vs ∧
      ∀ r (hr : r < rounds.length), ∃ envr ws,
        iterate body r first env = .ok (.finished envr ws) ∧ P (first + r) envr rounds[r] := by
  induction n generalizing first env vs with
  | zero =>
    rw [iterate] at h
    cases h
    refine ⟨[], rfl, ?_, rfl, ?_⟩
    · intro round hmem
      cases hmem
    · intro r hr
      cases hr
  | succ n ih =>
    obtain ⟨env₂, vs₁, vs₂, h₁, h₂, rfl⟩ := iterate_succ_finished_iff.mp h
    obtain ⟨slots, hlen, hvs, hP⟩ := hbody first env env₂ vs₁ h₁
    obtain ⟨rounds, hn, hp, hflat, hrounds⟩ := ih h₂
    refine ⟨slots :: rounds, by rw [length_cons, hn], ?_, ?_, ?_⟩
    · intro round hmem
      obtain rfl | hmem := mem_cons.mp hmem
      · exact hlen
      · exact hp round hmem
    · rw [flatten_cons, filterMap_append, hvs, hflat]
    · intro r hr
      cases r with
      | zero => exact ⟨env, [], by rw [iterate], by simpa using hP⟩
      | succ r =>
        obtain ⟨envr, ws, hiter, hPr⟩ := hrounds r (by simpa using hr)
        refine ⟨envr, vs₁ ++ ws, iterate_succ_finished_iff.mpr ⟨_, _, _, h₁, hiter, rfl⟩, ?_⟩
        rw [getElem_cons_succ]
        rwa [Int.natCast_succ, Int.add_comm (r : Int), ← Int.add_assoc]

/-- The flattened body of a loop gives what is due in the slots of a round. -/
def Gives (c : Counters) (known stale : List String) (n : Nat) (flat : List Stmt) (env : Env)
    (slots : List (Option Vertex)) : Prop :=
  ∀ env' i k, Agree known stale env env' → c.At env' i k → i < 2 ^ 31 → k + n < 2 ^ 31 →
    ∃ env₁', Stmt.runAll flat env' = .ok (.finished env₁' (slotAt slots k i))

theorem Simulates.gives_padded (h : Simulates c known stale stale' n flat env env₁ slots)
    (m : Nat) : Gives c known stale n flat env (slots ++ List.replicate m none) := by
  intro env' i k hagree hat hi hk
  obtain ⟨env₁', hrun, -, -⟩ := h env' i k hagree hat hi hk
  exact ⟨env₁', by rw [slotAt_padded, hrun]⟩

theorem filterMap_padded (slots : List (Option Vertex)) (n : Nat) :
    (slots ++ List.replicate n none).filterMap id = slots.filterMap id := by
  rw [filterMap_append, filterMap_replicate_of_none rfl, append_nil]

/-- The environments of the original and the flattened run when the flattened one enters the round
`r`: all that the rounds before have assigned is stale. -/
theorem agree_roundEnv {k r : Nat} {env' envr : Env} {ws : List Vertex} (hcursor : c.cursor ∉ known)
    (hstart : start ∉ known) (hagree : Agree known stale env env')
    (hiter : iterate (fun i env => runAll body (env.insert x (.scalar (Float.ofInt i)))) n first
      env = .ok (.finished envr ws)) :
    Agree known ((stale ++ assignsAll body).filter (· != x))
      (envr.insert x (.scalar (Float.ofInt (first + r))))
      (c.roundEnv start x first perRound k r env') := by
  intro y hy hs
  have hyc : y ≠ c.cursor := fun h => hcursor (h ▸ hy)
  have hys : y ≠ start := fun h => hstart (h ▸ hy)
  unfold Counters.roundEnv
  rw [get?_insert_of_ne hyc]
  by_cases hyx : y = x
  · rw [hyx, get?_insert_self, get?_insert_self]
  · have hs' : y ∉ stale ++ assignsAll body := fun h => hs (mem_filter_ne.mpr ⟨h, hyx⟩)
    rw [mem_append, not_or] at hs'
    rw [get?_insert_of_ne hyx, get?_insert_of_ne hys, get?_insert_of_ne hyx, hagree y hy hs'.1]
    refine (get?_iterate ?_ hiter).symm
    intro i env env' vs hround
    rw [get?_runAll hs'.2 hround]
    exact get?_insert_of_ne hyx _ env

/-- A window gives what is due in the slots of all rounds, if its body does so in every round. -/
theorem run_window_rounds {i k : Nat} (hapart : Counters.Apart c start x)
    (hentry : Counters.Entry first perRound rounds.length k)
    (hp : ∀ round ∈ rounds, round.length = perRound) (hat : c.At env i k) (hi : i < 2 ^ 31)
    (hstart : start ∉ assignsAll flat) (hvertex : c.vertex ∉ assignsAll flat)
    (hround : ∀ r (hr : r < rounds.length), k + r * perRound + perRound < 2 ^ 31 →
      c.At (c.roundEnv start x first perRound k r env) i (k + r * perRound) →
      ∃ env', runAll flat (c.roundEnv start x first perRound k r env) =
        .ok (.finished env' (slotAt rounds[r] (k + r * perRound) i))) :
    ∃ env', runAll (c.window start x first perRound (perRound * rounds.length) flat) env =
        .ok (.finished env' (slotAt rounds.flatten k i)) ∧
      c.At env' i (k + perRound * rounds.length) := by
  have hpos := hentry.perRound_pos
  have hstop := hentry.stop_lt
  have hasks : Number.Asks (Float.ofInt i) (some i) := .whole (by omega) rfl
  by_cases hin : k ≤ i ∧ i < k + perRound * rounds.length
  · obtain ⟨hle, hlt⟩ := hin
    have hr : (i - k) / perRound < rounds.length := by
      rw [Nat.div_lt_iff_lt_mul hpos, Nat.mul_comm]
      omega
    have hmul : ((i - k) / perRound + 1) * perRound ≤ rounds.length * perRound :=
      Nat.mul_le_mul_right perRound hr
    rw [Nat.succ_mul, Nat.mul_comm rounds.length] at hmul
    have hatr := hat.roundEnv hapart first perRound ((i - k) / perRound)
    obtain ⟨env', hrun⟩ := hround _ hr (by omega) hatr
    have hs : env'.get? start = some (.scalar (Float.ofInt k)) := by
      rw [get?_runAll hstart hrun, Counters.get?_start_roundEnv hapart]
    rw [Counters.runAll_window_inside hapart hentry hat hasks hle hlt rfl,
      slotAt_flatten hpos hp hle rfl hr]
    refine ⟨_, runAll_append_finished_iff.mpr ⟨env', _, [], hrun,
      Counters.run_assign_stop hentry hs, (append_nil _).symm⟩, ?_,
      get?_insert_self _ _ _⟩
    rw [get?_insert_of_ne hapart.vertex_ne_cursor, get?_runAll hvertex hrun]
    exact hatr.vertex
  · have hslots : slotAt rounds.flatten k i = [] := by
      rw [not_and_or, Nat.not_le, Nat.not_lt] at hin
      obtain hin | hin := hin
      · exact slotAt_of_lt hin
      · exact slotAt_of_le (by rwa [length_flatten_of_rounds hp])
    have hout : ∀ j, some i = some j → ¬ (k ≤ j ∧ j < k + perRound * rounds.length) := by
      rintro j ⟨⟩
      exact hin
    rw [hslots, Counters.runAll_window_outside hapart hentry hat hasks hout]
    exact ⟨_, rfl, (hat.insert_of_ne hapart.start_ne_vertex hapart.start_ne_cursor _).insert_cursor
      hapart.vertex_ne_cursor _⟩

/-- A window keeps the known variables that its loop does not assign. -/
theorem get?_window {names₁ : Names} {y : String} {total : Nat} (hset : Setting c known names)
    (hflat : Flattens c body flat perRound names names₁) (hstart : start ∉ known)
    (hy : y ∈ known) (hyx : y ≠ x) (hyb : y ∉ assignsAll body)
    (hrun : runAll (c.window start x first perRound total flat) env =
      .ok (.finished env₁ vs)) : env₁.get? y = env.get? y := by
  have hyc : y ≠ c.cursor := fun h => hset.cursor_new (h ▸ hy)
  have hys : y ≠ start := fun h => hstart (h ▸ hy)
  have hyf := hflat.issues.not_assigned (hset.known_taken y hy) hyb hyc
  refine get?_runAll ?_ hrun
  rw [assignsAll_window]
  simp only [mem_cons, mem_append, cons_append, not_mem_nil, hys, hyx, hyc, hyf,
    or_false, not_false_eq_true]

/-- A loop that becomes a window. The rounds before the one that holds the index leave nothing but
stale variables behind, so it runs as in the original. -/
theorem simulates_window {names₁ : Names} (hset : Setting c known names)
    (hflat : Flattens c body flat perRound names names₁)
    (hstart : start ∉ names₁.taken) (hx : x ∈ known) (hbody : ∀ y ∈ assignsAll body, y ∈ known)
    (hpos : 0 < perRound) (hfirst : first.natAbs ≤ 2 ^ 53) (hlast : last.natAbs ≤ 2 ^ 53)
    (hround : ∀ (j : Int) (env env₁ : Env) (vs : List Vertex),
      runAll body (env.insert x (.scalar (Float.ofInt j))) = .ok (.finished env₁ vs) →
      ∃ slots, slots.length ≤ perRound ∧ slots.filterMap id = vs ∧
        Simulates c known ((stale ++ assignsAll body).filter (· != x)) stale' perRound flat
          (env.insert x (.scalar (Float.ofInt j))) env₁ slots)
    (hrun : (loop x first last body).run env = .ok (.finished env₁ vs)) :
    ∃ slots, slots.length ≤ perRound * loopRounds first last ∧ slots.filterMap id = vs ∧
      Simulates c known stale (x :: (stale ++ assignsAll body))
        (perRound * loopRounds first last)
        (c.window start x first perRound (perRound * loopRounds first last) flat) env env₁ slots := by
  have hissues := hflat.issues
  have hset₁ := hset.mono hissues.taken
  have hstartKnown : start ∉ known := fun h => hstart (hset₁.known_taken start h)
  have hapart := hset₁.apart hstart hx
  have hstartFlat := hset.start_not_assigned hissues hstart hbody
  have hvertexFlat := hset.vertex_not_assigned hissues hbody
  have hframe : ∀ y ∉ x :: (stale ++ assignsAll body), env₁.get? y = env.get? y := by
    intro y hy
    rw [mem_cons, mem_append, not_or, not_or] at hy
    refine get?_run ?_ hrun
    rw [assigns, mem_cons, not_or]
    exact ⟨hy.1, hy.2.2⟩
  rw [run] at hrun
  obtain ⟨rounds, hn, hp, hvs, hrounds⟩ := rounds_of_iterate (p := perRound)
    (P := fun j env slots => Gives c known ((stale ++ assignsAll body).filter (· != x)) perRound
      flat (env.insert x (.scalar (Float.ofInt j))) slots)
    (fun j env env₁ vs h => by
      obtain ⟨slots, hlen, hvs, hsim⟩ := hround j env env₁ vs h
      refine ⟨_, ?_, ?_, hsim.gives_padded (perRound - slots.length)⟩
      · rw [length_append, length_replicate]
        omega
      · rw [filterMap_padded, hvs]) hrun
  rw [← hn]
  refine ⟨rounds.flatten, Nat.le_of_eq (length_flatten_of_rounds hp), hvs, ?_⟩
  intro env' i k hagree hat hi hk
  have hentry : Counters.Entry first perRound rounds.length k :=
    { perRound_pos := hpos
      first_exact := hfirst
      end_exact := by rw [hn]; unfold loopRounds; omega
      stop_lt := hk }
  obtain ⟨env₁', hrun', hat'⟩ := run_window_rounds hapart hentry hp hat hi hstartFlat hvertexFlat
    fun r hr hkr hatr => by
      obtain ⟨envr, ws, hiter, hgives⟩ := hrounds r hr
      exact hgives _ i _ (agree_roundEnv hset.cursor_new hstartKnown hagree hiter) hatr hi hkr
  refine ⟨env₁', hrun', hagree.frame ?_ hframe ?_, ?_⟩
  · exact fun y hy => mem_cons_of_mem _ (mem_append_left _ hy)
  · intro y hy hs
    rw [mem_cons, mem_append, not_or, not_or] at hs
    exact get?_window hset hflat hstartKnown hy hs.1 hs.2.2 hrun'
  · rwa [length_flatten_of_rounds hp]

/-- A loop of rounds that emit nothing emits nothing. -/
theorem vertices_of_no_slots (hround : ∀ (j : Int) (env env₁ : Env) (vs : List Vertex),
      runAll body (env.insert x (.scalar (Float.ofInt j))) = .ok (.finished env₁ vs) →
      ∃ slots : List (Option Vertex), slots.length ≤ 0 ∧ slots.filterMap id = vs)
    (hrun : (loop x first last body).run env = .ok (.finished env₁ vs)) : vs = [] := by
  rw [run] at hrun
  obtain ⟨rounds, -, hp, rfl, -⟩ := rounds_of_iterate (p := 0) (P := fun _ _ _ => True)
    (fun j env env₁ vs h => by
      obtain ⟨slots, hlen, hvs⟩ := hround j env env₁ vs h
      exact ⟨slots, Nat.le_zero.mp hlen, hvs, trivial⟩) hrun
  have hlen := length_flatten_of_rounds hp
  rw [Nat.zero_mul] at hlen
  rw [eq_nil_of_length_eq_zero hlen]
  rfl

theorem tripCount_eq (hfirst : first.natAbs ≤ 2 ^ 53) (hlast : last.natAbs ≤ 2 ^ 53) :
    tripCount first last = loopRounds first last := by
  unfold tripCount maxDistance
  rw [if_pos (by omega)]

/-- The flattened form of code gives its vertices one by one. -/
theorem Flattens.simulates {ss : List Stmt} {names' : Names} (h : Flattens c ss flat n names names')
    (hset : Setting c known names) (hm : ∀ m ∈ mentionsAll ss, m.1 ∈ known)
    (hb : BoundsExactAll ss) (hr : ReadsSettledAll stale ss)
    (hrun : runAll ss env = .ok (.finished env₁ vs)) :
    ∃ slots, slots.length ≤ n ∧ slots.filterMap id = vs ∧
      Simulates c known stale (staleAfterAll stale ss) n flat env env₁ slots := by
  induction h generalizing stale env env₁ vs with
  | nil =>
    rw [runAll] at hrun
    cases hrun
    exact ⟨[], Nat.le_refl 0, rfl, simulates_same hset hm hr (by rw [runAll])⟩
  | cons first _ ih₁ ih₂ =>
    rw [mentionsAll, forall_mem_append] at hm
    obtain ⟨env₂, vs₁, vs₂, hrun₁, hrun₂, rfl⟩ := runAll_cons_finished_iff.mp hrun
    rw [← runAll_singleton] at hrun₁
    obtain ⟨slots₁, hlen₁, hvs₁, hsim₁⟩ := ih₁ hset (by simpa [mentionsAll] using hm.1)
      ⟨hb.1, trivial⟩ ⟨hr.1, trivial⟩ hrun₁
    obtain ⟨slots₂, hlen₂, hvs₂, hsim₂⟩ := ih₂ (hset.mono first.issues.taken) hm.2 hb.2 hr.2 hrun₂
    refine ⟨slots₁ ++ slots₂, ?_, ?_, hsim₁.append hlen₁ hsim₂⟩
    · rw [length_append]
      omega
    · rw [filterMap_append, hvs₁, hvs₂]
  | assign =>
    have hassign := hrun
    rw [runAll_singleton] at hassign
    obtain ⟨v, -, -, rfl⟩ := run_assign_finished_iff.mp hassign
    exact ⟨[], Nat.le_refl 0, rfl, simulates_same hset hm hr hrun⟩
  | discard =>
    rw [runAll_singleton, run_discard] at hrun
    cases hrun
  | emit attributes =>
    rw [mentionsAll, mentions, mentionsAll, append_nil] at hm
    rw [runAll_singleton] at hrun
    obtain ⟨v, hv, rfl, rfl⟩ := run_emit_finished_iff.mp hrun
    refine ⟨[some v], Nat.le_refl 1, rfl, ?_⟩
    exact simulates_emit hset.vertex_ne_cursor hset.cursor_new
      (fun a ha r hr => hm r (mem_flatMap.mpr ⟨a, ha, hr⟩)) hr.1 hv
  | condition hthen _ _ _ ih₁ ih₂ =>
    simp only [mentionsAll, mentions, append_nil, forall_mem_append] at hm
    obtain ⟨⟨hmtest, hmthen⟩, hmelse⟩ := hm
    obtain ⟨⟨hrtest, hrthen, hrelse⟩, -⟩ := hr
    rw [runAll_singleton] at hrun
    obtain ⟨v, hv, hbranch⟩ := run_condition_ok_iff.mp hrun
    cases hc : v.truthy with
    | true =>
      rw [hc, if_pos rfl] at hbranch
      obtain ⟨slots, hlen, hvs, hsim⟩ := ih₁ hset hmthen hb.1.1 hrthen hbranch
      refine ⟨slots, Nat.le_trans hlen (Nat.le_max_left _ _), hvs,
        simulates_condition hmtest hrtest hv ?_⟩
      rw [hc, if_pos rfl]
      exact hsim.mono (Nat.le_max_left _ _) fun x => mem_append_left _
    | false =>
      rw [hc, if_neg Bool.false_ne_true] at hbranch
      obtain ⟨slots, hlen, hvs, hsim⟩ := ih₂ (hset.mono hthen.issues.taken) hmelse hb.1.2 hrelse
        hbranch
      refine ⟨slots, Nat.le_trans hlen (Nat.le_max_right _ _), hvs,
        simulates_condition hmtest hrtest hv ?_⟩
      rw [hc, if_neg Bool.false_ne_true]
      exact hsim.mono (Nat.le_max_right _ _) fun x => mem_append_right _
  | @idle x first last _ _ _ _ _ hbody _ hnone ih =>
    -- The loop stays as it is, since its rounds emit nothing or there are none.
    obtain ⟨⟨hfirst, hlast, hbbody⟩, -⟩ := hb
    rw [tripCount_eq hfirst hlast] at hnone
    suffices hvs : vs = [] by
      rw [hvs] at hrun ⊢
      exact ⟨[], Nat.le_refl 0, rfl, simulates_same hset hm hr hrun⟩
    rw [runAll_singleton] at hrun
    by_cases hrounds : loopRounds first last = 0
    · rw [run, hrounds, iterate] at hrun
      cases hrun
      rfl
    · obtain rfl := hnone.resolve_right hrounds
      simp only [mentionsAll, mentions, append_nil, forall_mem_cons] at hm
      obtain ⟨stale', hr'⟩ : ∃ stale', ReadsSettledAll stale' _ := by
        have hr := hr.1
        rw [ReadsSettled, if_neg hrounds] at hr
        split at hr
        · exact ⟨_, hr⟩
        · exact ⟨_, hr⟩
      refine vertices_of_no_slots (fun j env env₁ vs hround => ?_) hrun
      obtain ⟨slots, hlen, hvs, -⟩ := ih hset hm.2 hbbody hr' hround
      exact ⟨slots, hlen, hvs⟩
  | @window x start first last body _ _ _ _ hbody _ hsome _ hstart ih =>
    obtain ⟨⟨hfirst, hlast, hbbody⟩, -⟩ := hb
    rw [tripCount_eq hfirst hlast, not_or] at hsome
    simp only [mentionsAll, mentions, append_nil, forall_mem_cons] at hm
    rw [runAll_singleton] at hrun
    have hemits : (emitsAll body).isEmpty = false := by
      rw [Bool.eq_false_iff, Ne, List.isEmpty_iff]
      exact fun he => hsome.1 (hbody.count_eq_zero he)
    have hr := hr.1
    rw [ReadsSettled, if_neg hsome.2, hemits, if_neg Bool.false_ne_true] at hr
    rw [staleAfterAll, staleAfterAll, staleAfter, if_neg hsome.2, hemits,
      if_neg Bool.false_ne_true, tripCount_eq hfirst hlast]
    refine simulates_window hset hbody hstart hm.1 (fun y hy => ?_) (Nat.pos_of_ne_zero hsome.1)
      hfirst hlast (fun j env env₁ vs hround => ih hset hm.2 hbbody hr hround) hrun
    obtain ⟨m, hmem, rfl⟩ := mem_mentionsAll_of_mem_assignsAll hy
    exact hm.2 m hmem

end Simulation

end Flattening

end DataMarks
