/-
  Which whole number a float asks for once its fraction is dropped.

  A truncated float is a whole number, where zero may have either sign, or it is apart from
  all whole numbers from zero on: it is not a number, or below or above all of them below
  `2 ^ 53` (`asks_trunc`). Comparisons with whole numbers depend on the number asked for
  alone, whatever the float is (`Asks.beq`, `Asks.between`).
-/
import DataMarks.Proofs.WholeNumber
import Mathlib

namespace DataMarks.Number

open Float.Model Float.Model.UnpackedFloat

/-! ## Comparisons -/

/-- The whole number that a float asks for, if it is one from zero on. -/
inductive Asks (t : Float) : Option Nat → Prop
  | whole {i : Nat} (small : i < 2 ^ 53) (eq : t = Float.ofInt i) : Asks t (some i)
  | negativeZero (eq : t = -0.0) : Asks t (some 0)
  | none (order : Option Ordering) (apart : order ≠ some .eq)
    (compare : ∀ k : Nat, k < 2 ^ 53 → t.toModel.unpack.compare (whole k) = order) :
    Asks t none

theorem compare_then_swap (m n : Nat) (d e : Int) :
    (compare e d).then (compare n m) = ((compare d e).then (compare m n)).swap := by
  rw [Ordering.swap_then, Int.compare_swap, Nat.compare_swap]

theorem unpack_compare_swap (a b : UnpackedFloat) :
    b.compare a = (a.compare b).map Ordering.swap := by
  cases a with
  | notANumber => cases b <;> rfl
  | infinity s =>
    cases b with
    | infinity s' => cases s <;> cases s' <;> rfl
    | _ => cases s <;> rfl
  | zero s =>
    cases b with
    | infinity s' => cases s' <;> rfl
    | finite s' => cases s' <;> rfl
    | _ => rfl
  | finite s m e =>
    cases b with
    | infinity s' => cases s <;> cases s' <;> rfl
    | zero => cases s <;> rfl
    | notANumber => cases s <;> rfl
    | finite s' n d =>
      have hswap := compare_then_swap m n e d
      cases s <;> cases s' <;> simp [UnpackedFloat.compare, hswap]

theorem compare_negativeZero (a : UnpackedFloat) :
    (zero .negative).compare a = (zero .positive).compare a := by
  cases a with
  | infinity s => cases s <;> rfl
  | finite s => cases s <;> rfl
  | _ => rfl

theorem toModel_negativeZero : (-0.0 : Float).toModel = Float.Model.pack (.zero .negative) := by
  decide +kernel

theorem unpack_negativeZero : (-0.0 : Float).toModel.unpack = .zero .negative := by
  rw [toModel_negativeZero, unpack_pack_zero]

theorem natAbs_natCast_le {n : Nat} (h : n < 2 ^ 53) : ((n : Int)).natAbs ≤ 2 ^ 53 := by
  rw [Int.natAbs_natCast]
  omega

namespace Asks

variable {t : Float} {w : Option Nat} {i k m : Nat}

theorem compare_some (h : Asks t (some i)) (hk : k < 2 ^ 53) :
    t.toModel.unpack.compare (Number.whole k) = some (Ord.compare (i : Int) k) := by
  cases h with
  | whole hi eq =>
    rw [eq, unpack_ofInt (natAbs_natCast_le hi),
      compare_whole (natAbs_natCast_le hi) (natAbs_natCast_le hk)]
  | negativeZero eq =>
    have hzero := compare_whole (a := 0) (by decide) (natAbs_natCast_le hk)
    rw [whole_zero] at hzero
    rw [eq, unpack_negativeZero, compare_negativeZero, hzero]
    rfl

theorem beq (h : Asks t w) (hk : k < 2 ^ 53) : (t == Float.ofInt k) = decide (w = some k) := by
  show t.toModel.unpack.beq (Float.ofInt k).toModel.unpack = _
  rw [unpack_ofInt (natAbs_natCast_le hk), UnpackedFloat.beq]
  cases w with
  | none =>
    cases h with
    | none order hapart hcompare =>
      rw [hcompare k hk]
      simpa using hapart
  | some i =>
    rw [h.compare_some hk, Bool.eq_iff_iff, beq_iff_eq, decide_eq_true_iff, Option.some_inj,
      Option.some_inj, Int.compare_eq_eq, Int.natCast_inj]

end Asks

variable {t x : Float} {k m : Nat} {e : Int}

theorem ofInt_le_iff_compare (hk : k < 2 ^ 53) :
    Float.ofInt k ≤ t ↔ (t.toModel.unpack.compare (whole k)).any (·.isGE) := by
  rw [le_iff_unpack, unpack_ofInt (natAbs_natCast_le hk), UnpackedFloat.le,
    unpack_compare_swap t.toModel.unpack]
  cases t.toModel.unpack.compare (whole k) with
  | none => rfl
  | some o => cases o <;> rfl

theorem lt_ofInt_iff_compare (hk : k < 2 ^ 53) :
    t < Float.ofInt k ↔ t.toModel.unpack.compare (whole k) = some .lt := by
  rw [lt_iff_unpack, unpack_ofInt (natAbs_natCast_le hk), UnpackedFloat.lt, beq_iff_eq]

/-- Between two whole numbers are the floats that ask for a number between them. -/
theorem Asks.between {w : Option Nat} (h : Asks t w) (hk : k < 2 ^ 53) (hm : m < 2 ^ 53) :
    Float.ofInt k ≤ t ∧ t < Float.ofInt m ↔ ∃ i, w = some i ∧ k ≤ i ∧ i < m := by
  rw [ofInt_le_iff_compare hk, lt_ofInt_iff_compare hm]
  cases w with
  | none =>
    cases h with
    | none order _ hcompare =>
      rw [hcompare k hk, hcompare m hm]
      constructor
      · rintro ⟨hge, rfl⟩
        cases hge
      · rintro ⟨i, hi, -⟩
        cases hi
  | some i =>
    rw [h.compare_some hk, h.compare_some hm, Option.some_inj, Int.compare_eq_lt]
    simp [Int.isGE_compare]

/-! ## Truncation -/

theorem roundToInt_negative_le (m : Nat) (e : Int) : roundToInt .negative m e ≤ 0 := by
  unfold roundToInt
  exact Int.neg_nonpos_of_nonneg (Int.natCast_nonneg _)

/-- A number below `2 ^ 53` has a whole part below it. -/
theorem roundToInt_positive_lt (hm : m < 2 ^ 53) (he : e < 1 ∨ e = 1 ∧ m < 2 ^ 52) :
    roundToInt .positive m e < 2 ^ 53 := by
  have hlt : (decreaseExponent m e 0).1 < 2 ^ 53 := by
    unfold decreaseExponent
    dsimp only
    rw [Nat.shiftLeft_eq]
    rcases he with he | ⟨rfl, hm'⟩
    · rw [show (e - 0).toNat = 0 by omega]
      omega
    · show m * 2 ^ 1 < _
      omega
  unfold roundToInt shiftToExponent
  dsimp only
  rw [shiftRight_mantissa]
  show (((decreaseExponent m e 0).1 / _ : Nat) : Int) < ((2 ^ 53 : Nat) : Int)
  exact Int.ofNat_lt.mpr (Nat.lt_of_le_of_lt (Nat.div_le_self _ _) hlt)

theorem toUInt64_lt (h : x < 9007199254740992) : x.toUInt64.toNat < 2 ^ 53 := by
  have hint : x.toModel.unpack.toInt 0 (UInt64.size - 1) < 2 ^ 53 := by
    cases hu : x.toModel.unpack with
    | notANumber => exact (by decide : (0 : Int) < 2 ^ 53)
    | zero s => exact (by decide : (0 : Int) < 2 ^ 53)
    | infinity s =>
      cases s with
      | negative => exact (by decide : (0 : Int) < 2 ^ 53)
      | positive =>
        rw [lt_iff_unpack, hu] at h
        cases h
    | finite s m e hp =>
      cases s with
      | negative => exact Int.lt_of_le_of_lt (roundToInt_negative_le m e) (by decide)
      | positive => exact roundToInt_positive_lt (mantissa_lt hu) ((lt_two_pow_iff hu).mp h)
  show (UInt64.ofNatClamp (x.toModel.unpack.toInt 0 (UInt64.size - 1)).toNat).toNat < _
  generalize x.toModel.unpack.toInt 0 (UInt64.size - 1) = n at hint ⊢
  unfold UInt64.ofNatClamp
  rw [dif_pos (show n.toNat < UInt64.size by unfold UInt64.size; omega)]
  show n.toNat < _
  omega

theorem neg_ofInt {n : Nat} (hn : n ≠ 0) (h : n < 2 ^ 53) :
    -Float.ofInt n = Float.ofInt (-(n : Int)) := by
  have hn' : (n : Int) ≠ 0 := by omega
  have hle := natAbs_natCast_le h
  apply eq_ofInt (by rwa [Int.natAbs_neg])
  show Float.Model.pack (Float.ofInt n).toModel.unpack.neg = _
  rw [unpack_ofInt hle, neg_whole hn' hle]

/-- Without its fraction, a number below `2 ^ 53` is a whole number. -/
theorem trunc_of_abs_lt (h : x.abs < 9007199254740992) :
    ∃ n : Nat, n < 2 ^ 53 ∧
      (trunc x = Float.ofInt n ∨ n ≠ 0 ∧ trunc x = Float.ofInt (-(n : Int)) ∨
        n = 0 ∧ trunc x = -0.0) := by
  have hlt := toUInt64_lt h
  have hfloat : x.abs.toUInt64.toFloat = Float.ofInt (x.abs.toUInt64.toNat : Nat) :=
    eq_ofInt (natAbs_natCast_le hlt) (toModel_toFloat (by omega))
  refine ⟨x.abs.toUInt64.toNat, hlt, ?_⟩
  unfold trunc withSign
  rw [if_pos h, hfloat, abs_ofInt (by omega)]
  generalize x.abs.toUInt64.toNat = n at hlt ⊢
  split
  · by_cases hn : n = 0
    · rw [hn]
      exact .inr (.inr ⟨rfl, by decide +kernel⟩)
    · exact .inr (.inl ⟨hn, neg_ofInt hn hlt⟩)
  · exact .inl rfl

/-- The whole numbers below `2 ^ 53` are zero and positive numbers with a mantissa that ends at
the ones or behind them. -/
theorem compare_whole_of {a : UnpackedFloat} {order : Option Ordering}
    (hzero : a.compare (.zero .positive) = order)
    (hfinite : ∀ m e hp, e ≤ 0 → a.compare (.finite .positive m e hp) = order) (hk : k < 2 ^ 53) :
    a.compare (whole k) = order := by
  by_cases hk0 : k = 0
  · subst hk0
    rw [Int.natCast_zero, whole_zero, hzero]
  · have hlog := (Nat.log2_lt hk0).mpr hk
    rw [whole_of_ne_zero (n := (k : Int)) (by omega) (natAbs_natCast_le hk), signOf,
      if_neg (by omega)]
    refine hfinite _ _ _ ?_
    unfold wholeExponent
    rw [Int.natAbs_natCast]
    omega

/-- A number from `2 ^ 53` on, below `-2 ^ 53` or none is apart from all whole numbers. -/
theorem asks_of_not_abs_lt (h : ¬ x.abs < 9007199254740992) : Asks x none := by
  cases hu : x.toModel.unpack with
  | notANumber => exact .none none (by decide) fun k _ => by rw [hu]; rfl
  | zero s =>
    refine absurd ?_ h
    have habs : x.abs = 0 := by
      have hmodel : x.abs.toModel = Float.Model.pack (.zero .positive) := by
        show Float.Model.pack x.toModel.unpack.abs = _
        rw [hu]
        rfl
      exact congrArg Float.ofModel hmodel
    rw [habs]
    decide +kernel
  | infinity s =>
    cases s with
    | negative =>
      refine .none (some .lt) (by decide) fun k hk => ?_
      rw [hu]
      exact compare_whole_of rfl (fun _ _ _ _ => rfl) hk
    | positive =>
      refine .none (some .gt) (by decide) fun k hk => ?_
      rw [hu]
      exact compare_whole_of rfl (fun _ _ _ _ => rfl) hk
  | finite s m e hp =>
    cases s with
    | negative =>
      refine .none (some .lt) (by decide) fun k hk => ?_
      rw [hu]
      exact compare_whole_of rfl (fun _ _ _ _ => rfl) hk
    | positive =>
      rw [abs_of_unpack_positive hu, lt_two_pow_iff hu] at h
      refine .none (some .gt) (by decide) fun k hk => ?_
      rw [hu]
      refine compare_whole_of rfl (fun m' e' _ he' => ?_) hk
      simp only [UnpackedFloat.compare]
      rw [Int.compare_eq_gt.mpr (by omega)]
      rfl

/-- Every float without its fraction asks for one whole number at most. -/
theorem asks_trunc (x : Float) : ∃ w, Asks (trunc x) w := by
  by_cases h : x.abs < 9007199254740992
  · obtain ⟨n, hn, ht | ⟨hn0, ht⟩ | ⟨-, ht⟩⟩ := trunc_of_abs_lt h
    · exact ⟨some n, .whole hn ht⟩
    · have hle := natAbs_natCast_le hn
      refine ⟨none, .none (some .lt) (by decide) fun k hk => ?_⟩
      rw [ht, unpack_ofInt (by rwa [Int.natAbs_neg]),
        compare_whole (by rwa [Int.natAbs_neg]) (natAbs_natCast_le hk),
        Int.compare_eq_lt.mpr (by omega)]
    · exact ⟨some 0, .negativeZero ht⟩
  · have ht : trunc x = x := if_neg h
    rw [ht]
    exact ⟨none, asks_of_not_abs_lt h⟩

/-! ## The round of an index -/

theorem negativeZero_div {p : Nat} (hp0 : p ≠ 0) (hp : p < 2 ^ 53) :
    -0.0 / Float.ofInt p = -0.0 := by
  have hmodel : (-0.0 / Float.ofInt p).toModel = (-0.0 : Float).toModel := by
    show Float.Model.pack (UnpackedFloat.div Format.binary64 (-0.0 : Float).toModel.unpack
      (Float.ofInt p).toModel.unpack) = _
    rw [unpack_negativeZero, unpack_ofInt (natAbs_natCast_le hp),
      whole_of_ne_zero (by omega) (natAbs_natCast_le hp), signOf, if_neg (by omega)]
    exact toModel_negativeZero.symm
  exact congrArg Float.ofModel hmodel

theorem ofInt_add_negativeZero {n : Int} (h : n.natAbs ≤ 2 ^ 53) :
    Float.ofInt n + -0.0 = Float.ofInt n := by
  apply eq_ofInt h
  show Float.Model.pack (UnpackedFloat.add Format.binary64 (Float.ofInt n).toModel.unpack
    (-0.0 : Float).toModel.unpack) = _
  rw [unpack_ofInt h, unpack_negativeZero]
  by_cases hn : n = 0
  · subst hn
    rw [whole_zero]
    rfl
  · rw [whole_of_ne_zero hn h]
    rfl

/-- Rounds of `p` numbers each that begin at `k` are numbered from `first` on; the one that holds
the number asked for is found by a division. -/
theorem Asks.round {i p : Nat} {first : Int} (h : Asks t (some i)) (hle : k ≤ i) (hi : i < 2 ^ 31)
    (hp0 : p ≠ 0) (hp : p < 2 ^ 31) (hfirst : first.natAbs ≤ 2 ^ 53)
    (hround : (first + ((i - k) / p : Nat)).natAbs ≤ 2 ^ 53) :
    Float.ofInt first + trunc ((t - Float.ofInt k) / Float.ofInt p) =
      Float.ofInt (first + ((i - k) / p : Nat)) := by
  have hdiv : (i - k) / p ≤ i - k := Nat.div_le_self _ _
  cases h with
  | whole _ eq =>
    have hdiff : Float.ofInt i - Float.ofInt k = Float.ofInt ((i - k : Nat) : Int) := by
      rw [ofInt_sub (by omega) (by omega) (by omega), Int.ofNat_sub hle]
    rw [eq, hdiff, trunc_div (by omega) hp0 hp,
      ofInt_add hfirst (natAbs_natCast_le (by omega)) hround]
  | negativeZero eq =>
    obtain rfl : k = 0 := by omega
    have hdiff : (-0.0 : Float) - Float.ofInt ((0 : Nat) : Int) = -0.0 := by decide +kernel
    have htrunc : trunc (-0.0) = -0.0 := by decide +kernel
    rw [eq, hdiff, negativeZero_div hp0 (by omega), htrunc, ofInt_add_negativeZero hfirst,
      Nat.sub_self, Nat.zero_div, Int.natCast_zero, Int.add_zero]

end DataMarks.Number
