/-
  What the code around the counters of a flattened specification does.

  The cursor is a whole number that floats hold exactly, so the arithmetic on it is that
  of the integers (`Counts`). The index is any float without a fraction, and counts through
  the whole number it asks for, if any (`Number.Asks`). From this follow the two steps of a
  flattened run: an emit fires if the cursor is at the wanted vertex (`runAll_guardEmit`),
  and a loop of `rounds` rounds of `perRound` vertices each is entered for the one round
  that holds the wanted vertex (`runAll_window_inside`), or passed (`runAll_window_outside`).
-/
import DataMarks.Flattening
import DataMarks.Proofs.Run
import DataMarks.Proofs.Truncation

namespace DataMarks

open Dictionary List Stmt

open Number (Asks ofInt_add ofInt_sub ofInt_mul ofInt_beq)

/-! ## Whole numbers in expressions -/

variable {env : Env} {op : String} {a b : Expr}
variable {o : Operation}

theorem Expr.eval_operator {lhs rhs : Expr} {t : ValueType} {v w r : Value}
    (ho : operation? (Intrinsic.signature (Intrinsic.operatorName op) [lhs.type, rhs.type] t) = some o)
    (hl : lhs.eval env = .ok v) (hr : rhs.eval env = .ok w) (hrun : o.run [v, w] = some r) :
    (intrinsic (Intrinsic.operatorName op) [lhs, rhs] t).eval env = .ok r := by
  have hargs : evalAll env [lhs, rhs] = .ok [v, w] :=
    evalAll_cons hl (evalAll_cons hr (by rw [evalAll]))
  unfold intrinsic
  rw [eval, map_cons, map_cons, map_nil, ho, hargs]
  simp only [bind, Except.bind, hrun]
  rfl

theorem Expr.eval_binary {v w r : Value} (hta : a.type = .int) (htb : b.type = .int)
    (ha : a.eval env = .ok v) (hb : b.eval env = .ok w)
    (ho : operation? (Intrinsic.signature (Intrinsic.operatorName op) [.int, .int] .int) = some o)
    (hrun : o.run [v, w] = some r) : (binary op a b).eval env = .ok r := by
  unfold binary
  refine eval_operator ?_ ha hb hrun
  rw [hta, htb]
  exact ho

theorem Expr.eval_compare {c : Comparison} {x y : Float} (hta : a.type = .int) (htb : b.type = .int)
    (ha : a.eval env = .ok (.scalar x)) (hb : b.eval env = .ok (.scalar y))
    (ho : operation? (Intrinsic.signature (Intrinsic.operatorName op) [.int, .int] .bool)
      = some (.compare c)) : (test op a b).eval env = .ok (.ofBool (c.holds x y)) := by
  unfold test
  refine eval_operator (o := .compare c) ?_ ha hb rfl
  rw [hta, htb]
  exact ho

/-- Division by a whole number that is not zero drops the fraction. -/
theorem run_quotient {x : Float} {n : Nat} (hn0 : n ≠ 0) (hn : n < 2 ^ 31) :
    Operation.quotient.run [.scalar x, .scalar (Float.ofInt n)] =
      some (.scalar (Number.trunc (x / Float.ofInt n))) := by
  have hz : (Float.ofInt (n : Int) == Float.ofInt 0) = false := by
    rw [ofInt_beq (by omega) (by decide), decide_eq_false]
    omega
  show (if (Float.ofInt (n : Int) == 0) = true then none else
    some (Value.scalar (Number.trunc (x / Float.ofInt n)))) = _
  rw [if_neg]
  rw [show (0 : Float) = Float.ofInt 0 from rfl, hz]
  exact Bool.false_ne_true

/-- An expression whose value is a whole number that a float holds exactly. -/
structure Counts (env : Env) (e : Expr) (n : Int) : Prop where
  type : e.type = .int
  value : e.eval env = .ok (.scalar (Float.ofInt n))
  exact : n.natAbs ≤ 2 ^ 53

namespace Counts

variable {env : Env} {a b : Expr} {m n : Int}

theorem int {n : Int} (h : n.natAbs ≤ 2 ^ 53) : Counts env (.int n) n :=
  ⟨rfl, by unfold Expr.int; rw [Expr.eval], h⟩

theorem var {x : String} (hx : env.get? x = some (.scalar (Float.ofInt n)))
    (h : n.natAbs ≤ 2 ^ 53) : Counts env (.var .int x) n :=
  ⟨rfl, by rw [Expr.eval, hx], h⟩

theorem binary {op : String} {r : Int} (ha : Counts env a m) (hb : Counts env b n)
    (ho : operation? (Intrinsic.signature (Intrinsic.operatorName op) [.int, .int] .int) = some o)
    (hrun : o.run [.scalar (Float.ofInt m), .scalar (Float.ofInt n)] = some (.scalar (Float.ofInt r)))
    (hr : r.natAbs ≤ 2 ^ 53) : Counts env (.binary op a b) r :=
  ⟨ha.type, Expr.eval_binary ha.type hb.type ha.value hb.value ho hrun, hr⟩

theorem add (ha : Counts env a m) (hb : Counts env b n) (h : (m + n).natAbs ≤ 2 ^ 53) :
    Counts env (.binary "+" a b) (m + n) := by
  refine ha.binary hb (o := .scalarArithmetic .add) (by decide +kernel) ?_ h
  rw [← ofInt_add ha.exact hb.exact h]
  rfl

theorem sub (ha : Counts env a m) (hb : Counts env b n) (h : (m - n).natAbs ≤ 2 ^ 53) :
    Counts env (.binary "-" a b) (m - n) := by
  refine ha.binary hb (o := .scalarArithmetic .sub) (by decide +kernel) ?_ h
  rw [← ofInt_sub ha.exact hb.exact h]
  rfl

theorem mul {m n : Nat} (ha : Counts env a m) (hb : Counts env b n) (h : m * n ≤ 2 ^ 53) :
    Counts env (.binary "*" a b) ((m * n : Nat) : Int) := by
  refine ha.binary hb (o := .scalarArithmetic .mul) (by decide +kernel) ?_
    (by rwa [Int.natAbs_natCast])
  rw [← ofInt_mul (by simpa using ha.exact) (by simpa using hb.exact) h]
  rfl

end Counts

@[simp] theorem Value.truthy_ofBool (b : Bool) : (Value.ofBool b).truthy = b := by
  cases b <;> decide +kernel

theorem Expr.eval_test_and {p q : Prop} [Decidable p] [Decidable q] (hta : a.type = .bool)
    (htb : b.type = .bool) (ha : a.eval env = .ok (.ofBool (decide p)))
    (hb : b.eval env = .ok (.ofBool (decide q))) :
    (test "&&" a b).eval env = .ok (.ofBool (decide (p ∧ q))) := by
  unfold test
  refine eval_operator (o := .and) ?_ ha hb ?_
  · rw [hta, htb]
    decide +kernel
  · show some (Value.ofBool ((Value.ofBool (decide p)).truthy && (Value.ofBool (decide q)).truthy)) = _
    rw [Value.truthy_ofBool, Value.truthy_ofBool, Bool.decide_and]

theorem Expr.eval_int {x : String} {v : Float} (hx : env.get? x = some (.scalar v)) :
    (intrinsic "int" [var .float x] .int).eval env = .ok (.scalar (Number.trunc v)) := by
  have hargs : evalAll env [var .float x] = .ok [.scalar v] :=
    evalAll_cons (by rw [eval, hx]) (by rw [evalAll])
  have ho : operation? (Intrinsic.signature "int" [.float] .int) = some (.elementary .trunc) := by
    decide +kernel
  unfold intrinsic
  rw [eval, map_cons, map_nil]
  rw [show (var ValueType.float x).type = .float from rfl, ho, hargs]
  rfl

/-! ## Counters -/

namespace Flattening

/-- An environment in which the index is `t` and `k` emits are passed. -/
structure Counters.Holds (c : Counters) (env : Env) (t : Float) (k : Nat) : Prop where
  vertex : env.get? c.vertex = some (.scalar t)
  cursor : env.get? c.cursor = some (.scalar (Float.ofInt k))

/-- An environment in which the vertex `i` is wanted and `k` emits are passed. -/
abbrev Counters.At (c : Counters) (env : Env) (i k : Nat) : Prop := c.Holds env (Float.ofInt i) k

namespace Counters

variable {c : Counters} {env : Env} {t : Float} {w : Option Nat} {i k : Nat}

theorem natAbs_le_of_lt {n : Nat} (h : n < 2 ^ 32) : ((n : Int)).natAbs ≤ 2 ^ 53 := by
  rw [Int.natAbs_natCast]
  omega

theorem Holds.vertexExpr (h : c.Holds env t k) : c.vertexExpr.eval env = .ok (.scalar t) := by
  unfold Counters.vertexExpr
  rw [Expr.eval, h.vertex]

theorem Holds.cursorExpr (h : c.Holds env t k) (hk : k < 2 ^ 31) : Counts env c.cursorExpr k :=
  .var h.cursor (natAbs_le_of_lt (by omega))

/-- Setting the cursor. -/
theorem Holds.insert_cursor (hne : c.vertex ≠ c.cursor) (h : c.Holds env t k) (n : Nat) :
    c.Holds (env.insert c.cursor (.scalar (Float.ofInt n))) t n :=
  ⟨by rw [get?_insert_of_ne hne, h.vertex], get?_insert_self _ _ _⟩

/-- Setting any other variable. -/
theorem Holds.insert_of_ne {x : String} (hv : x ≠ c.vertex) (hc : x ≠ c.cursor)
    (h : c.Holds env t k) (v : Value) : c.Holds (env.insert x v) t k :=
  ⟨by rw [get?_insert_of_ne hv.symm, h.vertex], by rw [get?_insert_of_ne hc.symm, h.cursor]⟩

/-- Code that assigns neither counter leaves both. -/
theorem Holds.of_runAll {ss : List Stmt} {env' : Env} {vs : List Vertex}
    (hv : c.vertex ∉ assignsAll ss) (hc : c.cursor ∉ assignsAll ss)
    (hrun : runAll ss env = .ok (.finished env' vs)) (h : c.Holds env t k) :
    c.Holds env' t k :=
  ⟨by rw [get?_runAll hv hrun, h.vertex], by rw [get?_runAll hc hrun, h.cursor]⟩

theorem run_assign_next (h : c.Holds env t k) (hk : k < 2 ^ 31) :
    runAll [.assign c.cursor (.binary "+" c.cursorExpr (.int 1))] env =
      .ok (.finished (env.insert c.cursor (.scalar (Float.ofInt (k + 1 : Nat)))) []) := by
  have hnext := (h.cursorExpr hk).add (.int (n := 1) (by decide))
    (natAbs_le_of_lt (n := k + 1) (by omega))
  rw [runAll_cons_assign hnext.value, runAll]
  rfl

variable {attributes : Dictionary Expr}

/-- The emit fires at the wanted vertex alone, and the cursor moves on in any case. -/
theorem runAll_guardEmit (h : c.Holds env t k) (ht : Asks t w) (hk : k < 2 ^ 31) :
    runAll (c.guardEmit attributes) env =
      runAll ((if w = some k then [.emit attributes] else []) ++
        [.assign c.cursor (.binary "+" c.cursorExpr (.int 1))]) env := by
  have htest : (Expr.test "==" c.vertexExpr c.cursorExpr).eval env =
      .ok (.ofBool (t == Float.ofInt k)) :=
    Expr.eval_compare (c := .eq) rfl rfl h.vertexExpr (h.cursorExpr hk).value (by decide +kernel)
  unfold guardEmit
  rw [runAll_cons_condition htest, Value.truthy_ofBool, ht.beq (by omega)]
  simp only [decide_eq_true_iff]

theorem run_guardEmit {v : Vertex} (h : c.At env i k) (hi : i < 2 ^ 31) (hk : k < 2 ^ 31)
    (hv : emitVertex env attributes = .ok v) :
    runAll (c.guardEmit attributes) env =
      .ok (.finished (env.insert c.cursor (.scalar (Float.ofInt (k + 1 : Nat))))
        (if i = k then [v] else [])) := by
  rw [runAll_guardEmit h (.whole (i := i) (by omega) rfl) hk]
  refine runAll_append_finished_iff.mpr
    ⟨env, _, [], ?_, run_assign_next h hk, (append_nil _).symm⟩
  simp only [Option.some_inj]
  split
  · rw [runAll_singleton]
    exact run_emit_finished_iff.mpr ⟨v, hv, rfl, rfl⟩
  · rw [runAll]

/-! ## Loops -/

/-- A loop of `rounds` rounds of at most `perRound` vertices, and the cursor when it is met. -/
structure Entry (first : Int) (perRound rounds k : Nat) : Prop where
  perRound_pos : 0 < perRound
  first_exact : first.natAbs ≤ 2 ^ 53
  end_exact : (first + rounds).natAbs ≤ 2 ^ 53 + 1
  stop_lt : k + perRound * rounds < 2 ^ 31

/-- Names of the start of a loop and of its variable, apart from the counters. -/
structure Apart (c : Counters) (start x : String) : Prop where
  vertex_ne_cursor : c.vertex ≠ c.cursor
  start_ne_vertex : start ≠ c.vertex
  start_ne_cursor : start ≠ c.cursor
  start_ne_var : start ≠ x
  var_ne_vertex : x ≠ c.vertex
  var_ne_cursor : x ≠ c.cursor

/-- The environment in which the body runs for a round. -/
def roundEnv (c : Counters) (start x : String) (first : Int) (perRound k r : Nat) (env : Env) :
    Env :=
  ((env.insert start (.scalar (Float.ofInt k))).insert x (.scalar (Float.ofInt (first + r)))).insert
    c.cursor (.scalar (Float.ofInt (k + r * perRound : Nat)))

/-- The counters at the begin of a round. -/
theorem Holds.roundEnv {start x : String} (ha : Apart c start x) (h : c.Holds env t k)
    (first : Int) (perRound r : Nat) :
    c.Holds (c.roundEnv start x first perRound k r env) t (k + r * perRound) :=
  ((h.insert_of_ne ha.start_ne_vertex ha.start_ne_cursor _).insert_of_ne ha.var_ne_vertex
    ha.var_ne_cursor _).insert_cursor ha.vertex_ne_cursor _

variable {start x : String} {first : Int} {perRound rounds : Nat} {flat : List Stmt}

theorem get?_start_roundEnv (ha : Apart c start x) (r : Nat) :
    (c.roundEnv start x first perRound k r env).get? start = some (.scalar (Float.ofInt k)) := by
  unfold Counters.roundEnv
  rw [get?_insert_of_ne ha.start_ne_cursor, get?_insert_of_ne ha.start_ne_var, get?_insert_self]

theorem stop_counts (he : Entry first perRound rounds k)
    (hs : env.get? start = some (.scalar (Float.ofInt k))) :
    Counts env (.binary "+" (.var .int start) (.int (perRound * rounds : Nat)))
      (k + perRound * rounds : Nat) := by
  have hstop := he.stop_lt
  exact (Counts.var hs (natAbs_le_of_lt (by omega))).add
    (.int (natAbs_le_of_lt (n := perRound * rounds) (by omega)))
    (natAbs_le_of_lt (n := k + perRound * rounds) (by omega))

/-- Behind a loop the cursor is behind all its rounds. -/
theorem run_assign_stop (he : Entry first perRound rounds k)
    (hs : env.get? start = some (.scalar (Float.ofInt k))) :
    runAll
      [.assign c.cursor (.binary "+" (.var .int start) (.int (perRound * rounds : Nat)))] env =
      .ok (.finished
        (env.insert c.cursor (.scalar (Float.ofInt (k + perRound * rounds : Nat)))) []) := by
  rw [runAll_cons_assign (stop_counts he hs).value, runAll]

/-- The test that a loop holds the wanted vertex. -/
theorem eval_inside (he : Entry first perRound rounds k) (h : c.Holds env t k)
    (hs : env.get? start = some (.scalar (Float.ofInt k))) :
    (Expr.test "&&" (.test "<=" (.var .int start) c.vertexExpr)
      (.test "<" c.vertexExpr
        (.binary "+" (.var .int start) (.int (perRound * rounds : Nat))))).eval env =
      .ok (.ofBool (decide (Float.ofInt k ≤ t ∧ t < Float.ofInt (k + perRound * rounds : Nat)))) := by
  have hstop := he.stop_lt
  have hstart : Counts env (.var .int start) k := .var hs (natAbs_le_of_lt (by omega))
  exact Expr.eval_test_and rfl rfl
    (Expr.eval_compare (c := .le) rfl rfl hstart.value h.vertexExpr (by decide +kernel))
    (Expr.eval_compare (c := .lt) rfl rfl h.vertexExpr (stop_counts he hs).value (by decide +kernel))

/-- A loop that does not hold the wanted vertex is passed. -/
theorem runAll_window_outside (ha : Apart c start x) (he : Entry first perRound rounds k)
    (h : c.Holds env t k) (ht : Asks t w)
    (hout : ∀ i, w = some i → ¬ (k ≤ i ∧ i < k + perRound * rounds)) :
    runAll (c.window start x first perRound (perRound * rounds) flat) env =
      .ok (.finished ((env.insert start (.scalar (Float.ofInt k))).insert c.cursor
        (.scalar (Float.ofInt (k + perRound * rounds : Nat)))) []) := by
  have hstop := he.stop_lt
  have hs := get?_insert_self start (.scalar (Float.ofInt k)) env
  have h₁ := h.insert_of_ne ha.start_ne_vertex ha.start_ne_cursor (.scalar (Float.ofInt k))
  have hnot : ¬ (Float.ofInt k ≤ t ∧ t < Float.ofInt (k + perRound * rounds : Nat)) := by
    rw [ht.between (by omega) (by omega)]
    exact fun ⟨i, hi, hin⟩ => hout i hi hin
  unfold window
  rw [runAll_cons_assign (h.cursorExpr (by omega)).value,
    runAll_cons_condition (eval_inside he h₁ hs), Value.truthy_ofBool, decide_eq_false hnot]
  exact run_assign_stop he hs

section Inside

variable (ha : Apart c start x) (he : Entry first perRound rounds k) (h : c.Holds env t k)
  (ht : Asks t (some i)) (hle : k ≤ i) (hlt : i < k + perRound * rounds)
include he h ht hle hlt

/-- The number of the round that holds the wanted vertex, from the first of the loop on. -/
theorem eval_round (hs : env.get? start = some (.scalar (Float.ofInt k)))
    (hx : (first + ((i - k) / perRound : Nat)).natAbs ≤ 2 ^ 53) :
    (Expr.binary "+" (.int first)
      (.binary "/" (.binary "-" c.vertexExpr (.var .int start)) (.int perRound))).eval env =
      .ok (.scalar (Float.ofInt (first + ((i - k) / perRound : Nat)))) := by
  have hstop := he.stop_lt
  have hpos := he.perRound_pos
  have hper : perRound ≤ perRound * rounds := by
    refine Nat.le_mul_of_pos_right perRound (Nat.pos_of_ne_zero ?_)
    rintro rfl
    omega
  have hstart : Counts env (.var .int start) k := .var hs (natAbs_le_of_lt (by omega))
  have hdiff : (Expr.binary "-" c.vertexExpr (.var .int start)).eval env =
      .ok (.scalar (t - Float.ofInt k)) :=
    Expr.eval_binary (o := .scalarArithmetic .sub) rfl rfl h.vertexExpr hstart.value
      (by decide +kernel) rfl
  have hround : (Expr.binary "/" (.binary "-" c.vertexExpr (.var .int start)) (.int perRound)).eval
      env = .ok (.scalar (Number.trunc ((t - Float.ofInt k) / Float.ofInt perRound))) :=
    Expr.eval_binary (o := .quotient) rfl rfl hdiff (Counts.int (natAbs_le_of_lt (by omega))).value
      (by decide +kernel) (run_quotient (by omega) (by omega))
  rw [← ht.round hle (by omega) (by omega) (by omega) he.first_exact hx]
  exact Expr.eval_binary (o := .scalarArithmetic .add) rfl rfl (Counts.int he.first_exact).value
    hround (by decide +kernel) rfl

variable {r : Nat} (hr : r = (i - k) / perRound)
include ha hr

/-- The loop variable and the cursor in the round that holds the wanted vertex. -/
theorem runAll_enter_round (hs : env.get? start = some (.scalar (Float.ofInt k)))
    (ss : List Stmt) :
    runAll (.assign x (.binary "+" (.int first)
        (.binary "/" (.binary "-" c.vertexExpr (.var .int start)) (.int perRound))) ::
      .assign c.cursor (.binary "+" (.var .int start)
        (.binary "*" (.binary "-" (.var .int x) (.int first)) (.int perRound))) :: ss) env =
      runAll ss ((env.insert x (.scalar (Float.ofInt (first + r)))).insert c.cursor
        (.scalar (Float.ofInt (k + r * perRound : Nat)))) := by
  have hstop := he.stop_lt
  have hfirst := he.first_exact
  have hend := he.end_exact
  have hper : perRound ≤ perRound * rounds := by
    refine Nat.le_mul_of_pos_right perRound (Nat.pos_of_ne_zero ?_)
    rintro rfl
    omega
  have hrounds : r < rounds := by
    rw [hr, Nat.div_lt_iff_lt_mul he.perRound_pos, Nat.mul_comm]
    omega
  have hmul : r * perRound ≤ i - k := hr ▸ Nat.div_mul_le_self _ _
  have hle' : r ≤ i - k := hr ▸ Nat.div_le_self _ _
  have hx : (first + (r : Int)).natAbs ≤ 2 ^ 53 := by omega
  have hround := eval_round he h ht hle hlt hs (hr ▸ hx)
  rw [← hr] at hround
  have hback : Counts (env.insert x (.scalar (Float.ofInt (first + r))))
      (.binary "-" (.var .int x) (.int first)) r := by
    have hvar := Counts.var (get?_insert_self x (.scalar (Float.ofInt (first + r))) env) hx
    have := hvar.sub (Counts.int hfirst) (by omega)
    rwa [show first + (r : Int) - first = r by omega] at this
  have hstart : Counts (env.insert x (.scalar (Float.ofInt (first + r)))) (.var .int start) k :=
    .var (by rw [get?_insert_of_ne ha.start_ne_var, hs]) (natAbs_le_of_lt (by omega))
  have hscaled := hback.mul (.int (n := perRound) (natAbs_le_of_lt (by omega))) (by omega)
  have hroundStart := hstart.add hscaled (natAbs_le_of_lt (n := k + r * perRound) (by omega))
  rw [runAll_cons_assign hround, runAll_cons_assign hroundStart.value]
  rfl

/-- A loop that holds the wanted vertex runs its body for the round that holds it. -/
theorem runAll_window_inside :
    runAll (c.window start x first perRound (perRound * rounds) flat) env =
      runAll (flat ++
        [.assign c.cursor (.binary "+" (.var .int start) (.int (perRound * rounds : Nat)))])
        (c.roundEnv start x first perRound k r env) := by
  have hstop := he.stop_lt
  have hs := get?_insert_self start (.scalar (Float.ofInt k)) env
  have h₁ := h.insert_of_ne ha.start_ne_vertex ha.start_ne_cursor (.scalar (Float.ofInt k))
  have hin : Float.ofInt k ≤ t ∧ t < Float.ofInt (k + perRound * rounds : Nat) :=
    (ht.between (by omega) (by omega)).mpr ⟨i, rfl, hle, hlt⟩
  unfold window
  rw [runAll_cons_assign (h.cursorExpr (by omega)).value,
    runAll_cons_condition (eval_inside he h₁ hs), Value.truthy_ofBool, decide_eq_true hin,
    if_pos rfl, append_nil]
  exact runAll_enter_round ha he h₁ ht hle hlt hr hs _

end Inside

end Counters

end Flattening

end DataMarks
