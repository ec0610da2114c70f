/-
  Whole numbers in double precision. Between `-2 ^ 53` and `2 ^ 53` every whole
  number is a double, and sums, differences, products and comparisons of such
  numbers are those of the integers.

  Everything is read off the bits. A positive whole number has one mantissa of 53
  bits and one exponent; `whole` gives them with the sign, and `toModel_ofInt` says
  that `Float.ofInt` packs just this.
-/
import DataMarks.Number.Binary
import Mathlib

namespace DataMarks.Number

open Float.Model Float.Model.UnpackedFloat Format

/-! ## Mantissa and exponent of a whole number -/

/-- The mantissa of a positive whole number, shifted to 53 bits. -/
def wholeMantissa (n : Nat) : Nat := n * 2 ^ 52 / 2 ^ n.log2

/-- The exponent that goes with `wholeMantissa`. -/
def wholeExponent (n : Nat) : Int := (n.log2 : Int) - 52

def signOf (n : Int) : Sign := if n < 0 then .negative else .positive

/-- A whole number as sign, mantissa and exponent. -/
def whole (n : Int) : UnpackedFloat :=
  if h : wholeMantissa n.natAbs = 0 then .zero .positive
  else .finite (signOf n) (wholeMantissa n.natAbs) (wholeExponent n.natAbs) (Nat.pos_of_ne_zero h)

variable {n k m a b c : Nat} {e : Int} {s : Sign} {x : Float} {em : ExtendedMantissa}

theorem log2_le_of_le (h : n ≤ 2 ^ k) : n.log2 ≤ k := by
  by_cases hn : n = 0
  · rw [hn, Nat.log2_zero]; exact Nat.zero_le k
  · have := (Nat.log2_lt hn).mpr (Nat.lt_of_le_of_lt h (Nat.pow_lt_pow_right (by decide) k.lt_succ_self))
    omega

/-- Up to `2 ^ 53` the shift to 53 bits drops nothing. -/
theorem wholeMantissa_mul (h : n ≤ 2 ^ 53) :
    wholeMantissa n * 2 ^ n.log2 = n * 2 ^ 52 := by
  unfold wholeMantissa
  apply Nat.div_mul_cancel
  by_cases hl : n.log2 ≤ 52
  · exact Dvd.dvd.mul_left (pow_dvd_pow 2 hl) n
  · have hn : n ≠ 0 := by rintro rfl; simp at hl
    have hlog : n.log2 = 53 := by have := log2_le_of_le h; omega
    have hle := Nat.log2_self_le hn
    rw [hlog] at hle ⊢
    rw [Nat.le_antisymm h hle]
    exact Dvd.intro _ rfl

theorem wholeMantissa_shift (h : n ≤ 2 ^ 53) (hk : 52 ≤ n.log2 + k) :
    wholeMantissa n * 2 ^ (n.log2 + k - 52) = n * 2 ^ k := by
  apply Nat.eq_of_mul_eq_mul_right (show 0 < 2 ^ 52 by decide)
  calc wholeMantissa n * 2 ^ (n.log2 + k - 52) * 2 ^ 52
      = wholeMantissa n * 2 ^ (n.log2 + k) := by
        rw [Nat.mul_assoc, ← Nat.pow_add, Nat.sub_add_cancel hk]
    _ = wholeMantissa n * 2 ^ n.log2 * 2 ^ k := by rw [Nat.pow_add, Nat.mul_assoc]
    _ = n * 2 ^ k * 2 ^ 52 := by rw [wholeMantissa_mul h]; ring

theorem log2_wholeMantissa (hn : n ≠ 0) (h : n ≤ 2 ^ 53) :
    (wholeMantissa n).log2 = 52 := by
  have hm := wholeMantissa_mul h
  have hlo := Nat.log2_self_le hn
  have hhi := Nat.lt_log2_self (n := n)
  have hp : 0 < 2 ^ n.log2 := Nat.two_pow_pos _
  have h52 : 2 ^ 52 ≤ wholeMantissa n := by
    apply Nat.le_of_mul_le_mul_right _ hp
    rw [hm, Nat.mul_comm n]
    exact Nat.mul_le_mul_left _ hlo
  have h53 : wholeMantissa n < 2 ^ 53 := by
    apply Nat.lt_of_mul_lt_mul_right (a := 2 ^ n.log2)
    rw [hm]
    rw [Nat.pow_succ] at hhi
    omega
  have hne : wholeMantissa n ≠ 0 := by omega
  exact (Nat.log2_eq_iff hne).mpr ⟨h52, h53⟩

theorem wholeMantissa_pos (hn : n ≠ 0) (h : n ≤ 2 ^ 53) : 0 < wholeMantissa n := by
  rcases Nat.eq_zero_or_pos (wholeMantissa n) with h0 | h0
  · have := log2_wholeMantissa hn h
    rw [h0] at this
    simp at this
  · exact h0

@[simp] theorem whole_zero : whole 0 = .zero .positive := by
  unfold whole
  rw [dif_pos (by decide)]

theorem whole_of_ne_zero {n : Int} (hn : n ≠ 0) (h : n.natAbs ≤ 2 ^ 53) :
    whole n = .finite (signOf n) (wholeMantissa n.natAbs) (wholeExponent n.natAbs)
      (wholeMantissa_pos (Int.natAbs_ne_zero.mpr hn) h) := by
  unfold whole
  have := wholeMantissa_pos (Int.natAbs_ne_zero.mpr hn) h
  rw [dif_neg (by omega)]

/-! ## Rounding leaves whole numbers as they are -/

theorem shiftRight_exact (m k : Nat) :
    (⟨m * 2 ^ k, false, false⟩ : ExtendedMantissa) >>> k = ⟨m, false, false⟩ := by
  induction k generalizing m with
  | zero => rw [Nat.pow_zero, Nat.mul_one]; rfl
  | succ k ih =>
    have hstep : (⟨m * 2 ^ (k + 1), false, false⟩ : ExtendedMantissa) >>> (k + 1) =
        ExtendedMantissa.shiftRightOne ((⟨m * 2 * 2 ^ k, false, false⟩ : ExtendedMantissa) >>> k) := by
      rw [show m * 2 ^ (k + 1) = m * 2 * 2 ^ k by ring]
      rfl
    rw [hstep, ih]
    simp [ExtendedMantissa.shiftRightOne]

theorem log2_mul_two_pow (hn : n ≠ 0) (k : Nat) : (n * 2 ^ k).log2 = n.log2 + k := by
  induction k with
  | zero => simp
  | succ k ih =>
    have hne : n * 2 ^ k ≠ 0 := Nat.mul_ne_zero hn (Nat.two_pow_pos k).ne'
    rw [show n * 2 ^ (k + 1) = 2 * (n * 2 ^ k) by ring, Nat.log2_two_mul hne, ih]
    omega

/-- The exponent that rounding aims at, away from subnormal numbers. -/
theorem targetExponent_eq (h : -1022 ≤ (m.log2 : Int) + e) :
    binary64.targetExponent (totalExponent m e) = (m.log2 : Int) + e - 52 := by
  simp only [targetExponent, totalExponent, mantissaBits, minExponent]
  norm_num
  omega

/-- A mantissa and exponent as numbers have them: 53 bits, or the least exponent. -/
def Canonical (m : Nat) (e : Int) : Prop :=
  (m.log2 = 52 ∧ -1074 ≤ e ∧ e ≤ 971) ∨ (0 < m ∧ m < 2 ^ 52 ∧ e = -1074)

namespace Canonical

variable {m : Nat} {e : Int} (h : Canonical m e)
include h

theorem pos : 0 < m := by
  rcases h with ⟨hlog, -⟩ | ⟨hpos, -⟩
  · rcases Nat.eq_zero_or_pos m with rfl | hpos
    · simp at hlog
    · exact hpos
  · exact hpos

theorem log2_cases : m.log2 = 52 ∧ -1074 ≤ e ∧ e ≤ 971 ∨ m.log2 < 52 ∧ e = -1074 := by
  rcases h with hnormal | ⟨hpos, hlt, he⟩
  · exact .inl hnormal
  · exact .inr ⟨(Nat.log2_lt (by omega)).mpr hlt, he⟩

theorem targetExponent : binary64.targetExponent (totalExponent m e) = e := by
  have hlog := h.log2_cases
  simp only [Format.targetExponent, totalExponent, Format.mantissaBits, Format.minExponent]
  norm_num
  omega

/-- Bits below the mantissa that are zero are dropped. -/
theorem shiftToTargetExponent (c : Nat) :
    shiftToTargetExponent binary64 (m * 2 ^ c) (e - c) .exact =
      (⟨m, false, false⟩, e) := by
  have htotal : totalExponent (m * 2 ^ c) (e - c) = totalExponent m e := by
    unfold totalExponent
    rw [log2_mul_two_pow h.pos.ne']
    push_cast
    ring
  unfold UnpackedFloat.shiftToTargetExponent shiftToExponent
  rw [htotal, h.targetExponent]
  have hshift : (e - (e - (c : Int))).toNat = c := by omega
  dsimp only
  rw [hshift]
  refine Prod.ext (shiftRight_exact m c) ?_
  show e - (c : Int) + (c : Int) = e
  omega

/-- Such a mantissa is where it should be. -/
theorem shiftToTargetExponent_self :
    UnpackedFloat.shiftToTargetExponent binary64 m e .exact = (⟨m, false, false⟩, e) := by
  have hshift := h.shiftToTargetExponent 0
  rwa [Nat.pow_zero, Nat.mul_one, Int.natCast_zero, Int.sub_zero] at hshift

theorem roundWithAccuracy (s : Sign) (c : Nat) :
    roundWithAccuracy binary64 s (m * 2 ^ c) (e - c) .exact = .finite s m e h.pos := by
  have hround : (⟨m, false, false⟩ : ExtendedMantissa).roundedMantissa = m := rfl
  unfold UnpackedFloat.roundWithAccuracy
  rw [h.shiftToTargetExponent c]
  dsimp only
  rw [hround, h.shiftToTargetExponent_self]
  rw [dif_neg (by simpa using h.pos.ne')]

end Canonical

theorem canonical_whole (hn : n ≠ 0) (h : n ≤ 2 ^ 53) :
    Canonical (wholeMantissa n) (wholeExponent n) := by
  have hlog := log2_le_of_le h
  unfold wholeExponent
  exact .inl ⟨log2_wholeMantissa hn h, by omega, by omega⟩

theorem roundWithAccuracy_whole (s : Sign) (hn : n ≠ 0) (h : n ≤ 2 ^ 53) (hk : 52 ≤ n.log2 + k) :
    roundWithAccuracy binary64 s (n * 2 ^ k) (-(k : Int)) .exact =
      .finite s (wholeMantissa n) (wholeExponent n) (wholeMantissa_pos hn h) := by
  have hexponent : -(k : Int) = wholeExponent n - ((n.log2 + k - 52 : Nat) : Int) := by
    unfold wholeExponent
    omega
  rw [← wholeMantissa_shift h hk, hexponent]
  exact (canonical_whole hn h).roundWithAccuracy s _

theorem round_whole (s : Sign) (hn : n ≠ 0) (h : n ≤ 2 ^ 53) (k : Nat) :
    round binary64 s (n * 2 ^ k) (-(k : Int)) =
      .finite s (wholeMantissa n) (wholeExponent n) (wholeMantissa_pos hn h) := by
  have hlog := log2_mul_two_pow hn k
  unfold UnpackedFloat.round
  rw [targetExponent_eq (by rw [hlog]; omega), hlog]
  unfold decreaseExponent
  dsimp only
  by_cases hk : 52 ≤ n.log2 + k
  · have h0 : (-(k : Int) - (((n.log2 + k : Nat) : Int) + -(k : Int) - 52)).toNat = 0 := by omega
    rw [h0, Nat.shiftLeft_zero]
    simpa using roundWithAccuracy_whole s hn h hk
  · have h1 : (-(k : Int) - (((n.log2 + k : Nat) : Int) + -(k : Int) - 52)).toNat =
        52 - n.log2 - k := by omega
    have hmant : (n * 2 ^ k) <<< (52 - n.log2 - k) = n * 2 ^ (52 - n.log2) := by
      rw [Nat.shiftLeft_eq, Nat.mul_assoc, ← Nat.pow_add]
      congr 2
      omega
    have hexp : -(k : Int) - ((52 - n.log2 - k : Nat) : Int) = -((52 - n.log2 : Nat) : Int) := by
      omega
    rw [h1, hmant, hexp]
    exact roundWithAccuracy_whole s hn h (by omega)

/-- A signed mantissa that stands for a whole number is rounded to that number. -/
theorem normalize_whole {n : Int} (h : n.natAbs ≤ 2 ^ 53) (k : Nat) :
    UnpackedFloat.normalize binary64 (n * 2 ^ k) (-(k : Int)) .positive = whole n := by
  have hp : (0 : Int) < 2 ^ k := by positivity
  unfold UnpackedFloat.normalize
  rcases lt_trichotomy n 0 with hn | hn | hn
  · have hneg : n * 2 ^ k < 0 := mul_neg_of_neg_of_pos hn hp
    have hcast : (-(n * 2 ^ k)).toNat = n.natAbs * 2 ^ k := by
      zify
      rw [Int.toNat_of_nonneg (by omega), abs_of_neg hn]
      ring
    rw [Int.compare_eq_lt.mpr hneg, whole_of_ne_zero hn.ne h]
    simp only [hcast]
    rw [round_whole _ (Int.natAbs_ne_zero.mpr hn.ne) h, signOf, if_pos hn]
  · rw [hn, zero_mul, whole_zero]
    rfl
  · have hpos : 0 < n * 2 ^ k := mul_pos hn hp
    have hcast : (n * 2 ^ k).toNat = n.natAbs * 2 ^ k := by
      zify
      rw [Int.toNat_of_nonneg hpos.le, abs_of_pos hn]
    rw [Int.compare_eq_gt.mpr hpos, whole_of_ne_zero hn.ne' h]
    simp only [hcast]
    rw [round_whole _ (Int.natAbs_ne_zero.mpr hn.ne') h, signOf, if_neg (by omega)]

/-! ## Packing -/

theorem toNat_implicit (m : Nat) (hm : m.log2 = 52) :
    (1#1 ++ BitVec.ofNat 52 m).toNat = m := by
  have hne : m ≠ 0 := by rintro rfl; simp at hm
  obtain ⟨hlo, hhi⟩ := (Nat.log2_eq_iff hne).mp hm
  rw [BitVec.toNat_append, ← Nat.shiftLeft_add_eq_or_of_lt (BitVec.isLt _), BitVec.toNat_ofNat,
    BitVec.toNat_ofNat, Nat.shiftLeft_eq]
  omega

/-- What is unpacked from bits other than those of the greatest exponent is packed in them. -/
theorem unpack_pack_of_unpack {e : BitVec 11} {m : BitVec 52} {u : UnpackedFloat} (he : e ≠ -1#11)
    (h : unpack binary64 (packComponents binary64 s e m) = u) :
    (Float.Model.pack u).unpack = u := by
  have hvalid : binary64.Valid (packComponents binary64 s e m) :=
    ⟨fun hones => absurd (unpackExponent_packComponents.symm.trans hones) he⟩
  show unpack binary64 (pack binary64 u) = u
  rw [← h, pack_unpack_of_valid hvalid]

/-- Such a number is read back as it was packed. -/
theorem Canonical.unpack_pack (h : Canonical m e) (s : Sign) :
    (Float.Model.pack (.finite s m e h.pos)).unpack = .finite s m e h.pos := by
  have hbias : exponentBias binary64 = 1023 := by decide
  rcases h with ⟨hlog, hlo, hhi⟩ | ⟨hpos, hlt, rfl⟩
  · have hbits : (BitVec.ofNat 11 (e + 1075).toNat).toNat = (e + 1075).toNat := by
      rw [BitVec.toNat_ofNat, Nat.mod_eq_of_lt (by omega)]
    have hne : ∀ b : BitVec 11, b.toNat ≠ (e + 1075).toNat →
        BitVec.ofNat 11 (e + 1075).toNat ≠ b := by
      rintro b hb rfl
      exact hb hbits
    have hones : BitVec.ofNat 11 (e + 1075).toNat ≠ -1#11 :=
      hne _ (show 2047 ≠ (e + 1075).toNat by omega)
    have hzero : BitVec.ofNat 11 (e + 1075).toNat ≠ 0#11 :=
      hne _ (show 0 ≠ (e + 1075).toNat by omega)
    refine unpack_pack_of_unpack (s := s) (m := BitVec.ofNat 52 m) hones ?_
    unfold UnpackedFloat.unpack
    simp only [unpackMantissa_packComponents, unpackExponent_packComponents,
      unpackSign_packComponents, Sign.ofBitVec_toBitVec]
    rw [if_neg hones, if_neg hzero]
    have he : ((BitVec.ofNat 11 (e + 1075).toNat).toNat : Int) -
        (((exponentBias binary64 : Nat) : Int) + ((52 : Nat) : Int)) = e := by
      rw [hbits, hbias]
      omega
    congr 1
    exact toNat_implicit m hlog
  · have hmantissa : (BitVec.ofNat 52 m).toNat = m := by
      rw [BitVec.toNat_ofNat, Nat.mod_eq_of_lt hlt]
    have hne : BitVec.ofNat 52 m ≠ 0#52 := by
      intro h0
      rw [h0] at hmantissa
      exact hpos.ne hmantissa
    refine unpack_pack_of_unpack (s := s) (e := 0#11) (m := BitVec.ofNat 52 m) (by decide) ?_
    unfold UnpackedFloat.unpack
    simp only [unpackMantissa_packComponents, unpackExponent_packComponents,
      unpackSign_packComponents, Sign.ofBitVec_toBitVec]
    rw [if_neg (by decide), if_pos trivial, dif_neg hne]
    congr 1

theorem unpack_pack_zero (s : Sign) : (Float.Model.pack (.zero s)).unpack = .zero s := by
  cases s <;> rfl

theorem unpack_pack_whole {n : Int} (h : n.natAbs ≤ 2 ^ 53) :
    (Float.Model.pack (whole n)).unpack = whole n := by
  by_cases hn : n = 0
  · rw [hn, whole_zero, unpack_pack_zero]
  · rw [whole_of_ne_zero hn h]
    exact (canonical_whole (Int.natAbs_ne_zero.mpr hn) h).unpack_pack _

/-! ## Arithmetic on unpacked whole numbers -/

theorem signOf_apply (n : Int) : (signOf n).apply (n.natAbs : Int) = n := by
  unfold signOf
  split
  · show -(n.natAbs : Int) = n
    omega
  · show (n.natAbs : Int) = n
    omega

theorem apply_mul (s : Sign) (a b : Int) : s.apply (a * b) = s.apply a * b := by
  cases s
  · exact (Int.neg_mul a b).symm
  · rfl

/-- The signed mantissa of a whole number in units of `2 ^ -k`. -/
theorem apply_decreaseExponent {n : Int} (h : n.natAbs ≤ 2 ^ 53)
    (hk : -(k : Int) ≤ wholeExponent n.natAbs) :
    (signOf n).apply
      ((decreaseExponent (wholeMantissa n.natAbs) (wholeExponent n.natAbs) (-(k : Int))).1 : Int) =
      n * 2 ^ k := by
  unfold wholeExponent at hk ⊢
  have hshift : ((n.natAbs.log2 : Int) - 52 - -(k : Int)).toNat = n.natAbs.log2 + k - 52 := by omega
  unfold decreaseExponent
  dsimp only
  rw [hshift, Nat.shiftLeft_eq, wholeMantissa_shift h (by omega)]
  push_cast
  rw [apply_mul, ← Int.natCast_natAbs, signOf_apply]

/-- Of all whole numbers up to `2 ^ 53` only the greatest has an exponent above zero. -/
theorem natAbs_of_wholeExponent_pos {n : Int} (h : n.natAbs ≤ 2 ^ 53)
    (he : 0 < wholeExponent n.natAbs) : n.natAbs = 2 ^ 53 := by
  unfold wholeExponent at he
  have hn : n.natAbs ≠ 0 := by
    intro h0
    rw [h0] at he
    simp at he
  have := (Nat.le_log2 hn).mp (show 53 ≤ n.natAbs.log2 by omega)
  omega

/-- The mantissas of two factors make the product in units of `2 ^ -k`. -/
theorem wholeMantissa_mul_wholeMantissa (ha : a ≤ 2 ^ 53) (hb : b ≤ 2 ^ 53)
    (hl : a.log2 + b.log2 ≤ 104) :
    wholeMantissa a * wholeMantissa b = a * b * 2 ^ (104 - (a.log2 + b.log2)) := by
  apply Nat.eq_of_mul_eq_mul_right (Nat.two_pow_pos (a.log2 + b.log2))
  calc wholeMantissa a * wholeMantissa b * 2 ^ (a.log2 + b.log2)
      = wholeMantissa a * 2 ^ a.log2 * (wholeMantissa b * 2 ^ b.log2) := by rw [Nat.pow_add]; ring
    _ = a * b * 2 ^ 104 := by rw [wholeMantissa_mul ha, wholeMantissa_mul hb]; ring
    _ = a * b * 2 ^ (104 - (a.log2 + b.log2)) * 2 ^ (a.log2 + b.log2) := by
        rw [Nat.mul_assoc (a * b), ← Nat.pow_add, Nat.sub_add_cancel hl]

theorem log2_add_log2_le (ha : a ≠ 0) (hb : b ≠ 0) :
    a.log2 + b.log2 ≤ (a * b).log2 := by
  apply (Nat.le_log2 (Nat.mul_ne_zero ha hb)).mpr
  rw [Nat.pow_add]
  exact Nat.mul_le_mul (Nat.log2_self_le ha) (Nat.log2_self_le hb)

theorem signOf_mul {a b : Int} (ha : a ≠ 0) (hb : b ≠ 0) : signOf a * signOf b = signOf (a * b) := by
  have hneg := mul_neg_iff (a := a) (b := b)
  unfold signOf
  split <;> split <;> split <;> first | rfl | omega

theorem neg_whole {n : Int} (hn : n ≠ 0) (h : n.natAbs ≤ 2 ^ 53) : (whole n).neg = whole (-n) := by
  have h' : (-n).natAbs ≤ 2 ^ 53 := by rwa [Int.natAbs_neg]
  rw [whole_of_ne_zero hn h, whole_of_ne_zero (neg_ne_zero.mpr hn) h']
  have hsign : signOf (-n) = -signOf n := by
    unfold signOf
    split <;> split <;> first | omega | rfl
  simp only [UnpackedFloat.neg, Int.natAbs_neg, hsign]

section Pairs

variable {a b : Int} (ha : a.natAbs ≤ 2 ^ 53) (hb : b.natAbs ≤ 2 ^ 53)
include ha hb

theorem add_whole (hab : (a + b).natAbs ≤ 2 ^ 53) :
    add binary64 (whole a) (whole b) = whole (a + b) := by
  by_cases ha0 : a = 0
  · subst ha0
    by_cases hb0 : b = 0
    · subst hb0
      rfl
    · rw [zero_add, whole_zero, whole_of_ne_zero hb0 hb]
      rfl
  by_cases hb0 : b = 0
  · subst hb0
    rw [add_zero, whole_zero, whole_of_ne_zero ha0 ha]
    rfl
  rw [whole_of_ne_zero ha0 ha, whole_of_ne_zero hb0 hb]
  unfold UnpackedFloat.add
  dsimp only
  by_cases he : min (wholeExponent a.natAbs) (wholeExponent b.natAbs) ≤ 0
  · obtain ⟨k, hk⟩ : ∃ k : Nat, min (wholeExponent a.natAbs) (wholeExponent b.natAbs) = -(k : Int) :=
      ⟨(-min (wholeExponent a.natAbs) (wholeExponent b.natAbs)).toNat, by omega⟩
    rw [hk, apply_decreaseExponent ha (by omega), apply_decreaseExponent hb (by omega), ← add_mul]
    exact normalize_whole hab k
  · -- both are `2 ^ 53` but for the sign, so the sum is zero
    have ha' := natAbs_of_wholeExponent_pos ha (by omega)
    have hb' := natAbs_of_wholeExponent_pos hb (by omega)
    have hsum : a + b = 0 := by omega
    have hsign : signOf b = -signOf a := by
      unfold signOf
      split <;> split <;> first | omega | rfl
    rw [hsum, ha', hb', hsign]
    cases signOf a <;> rfl

theorem sub_whole (hab : (a - b).natAbs ≤ 2 ^ 53) :
    sub binary64 (whole a) (whole b) = whole (a - b) := by
  by_cases hb0 : b = 0
  · subst hb0
    rw [sub_zero, whole_zero]
    by_cases ha0 : a = 0
    · subst ha0
      rfl
    · rw [whole_of_ne_zero ha0 ha]
      rfl
  · -- away from zero a difference is the sum with the opposite
    have hsum := add_whole ha (b := -b) (by rwa [Int.natAbs_neg]) hab
    rw [← neg_whole hb0 hb] at hsum
    rw [sub_eq_add_neg, ← hsum, whole_of_ne_zero hb0 hb]
    by_cases ha0 : a = 0
    · subst ha0
      rw [whole_zero]
      rfl
    · rw [whole_of_ne_zero ha0 ha]
      simp only [UnpackedFloat.sub, UnpackedFloat.add, UnpackedFloat.neg]
      congr 1
      cases signOf b
      · exact Int.sub_neg _ _
      · exact Int.sub_eq_add_neg

theorem mul_whole_of_ne_zero (ha0 : a ≠ 0) (hb0 : b ≠ 0) (hab : (a * b).natAbs ≤ 2 ^ 53) :
    mul binary64 (whole a) (whole b) = whole (a * b) := by
  have hm := Int.natAbs_mul a b
  have hlog := log2_add_log2_le (Int.natAbs_ne_zero.mpr ha0) (Int.natAbs_ne_zero.mpr hb0)
  have hle := log2_le_of_le hab
  rw [← hm] at hlog
  have hexp : wholeExponent a.natAbs + wholeExponent b.natAbs =
      -((104 - (a.natAbs.log2 + b.natAbs.log2) : Nat) : Int) := by
    unfold wholeExponent
    omega
  rw [whole_of_ne_zero ha0 ha, whole_of_ne_zero hb0 hb, whole_of_ne_zero (mul_ne_zero ha0 hb0) hab]
  simp only [UnpackedFloat.mul]
  rw [wholeMantissa_mul_wholeMantissa ha hb (by omega), hexp, ← hm,
    roundWithAccuracy_whole _ (Int.natAbs_ne_zero.mpr (mul_ne_zero ha0 hb0)) hab (by omega),
    signOf_mul ha0 hb0]

end Pairs

theorem mul_whole (ha : a ≤ 2 ^ 53) (hb : b ≤ 2 ^ 53) (hab : a * b ≤ 2 ^ 53) :
    mul binary64 (whole a) (whole b) = whole ((a * b : Nat) : Int) := by
  by_cases ha0 : a = 0
  · subst ha0
    rw [Nat.zero_mul]
    by_cases hb0 : b = 0
    · subst hb0
      rfl
    · rw [whole_of_ne_zero (n := (b : Int)) (by omega) (by simpa using hb)]
      simp [UnpackedFloat.mul, signOf]
      rfl
  by_cases hb0 : b = 0
  · subst hb0
    rw [Nat.mul_zero, whole_of_ne_zero (n := (a : Int)) (by omega) (by simpa using ha)]
    simp [UnpackedFloat.mul, signOf]
    rfl
  exact mul_whole_of_ne_zero (by simpa using ha) (by simpa using hb) (by omega) (by omega)
    (by rwa [← Int.natCast_mul, Int.natAbs_natCast])

/-! ## Comparison of unpacked whole numbers -/

theorem wholeMantissa_lt (ha : a ≤ 2 ^ 53) (hb : b ≤ 2 ^ 53) (hl : a.log2 = b.log2) (h : a < b) :
    wholeMantissa a < wholeMantissa b := by
  apply Nat.lt_of_mul_lt_mul_right (a := 2 ^ a.log2)
  rw [wholeMantissa_mul ha, hl, wholeMantissa_mul hb]
  omega

theorem lt_of_log2_lt (hb : b ≠ 0) (h : a.log2 < b.log2) : a < b :=
  calc a < 2 ^ (a.log2 + 1) := Nat.lt_log2_self
    _ ≤ 2 ^ b.log2 := Nat.pow_le_pow_right (by decide) h
    _ ≤ b := Nat.log2_self_le hb

/-- The order of positive whole numbers is that of their exponents, then of their mantissas. -/
theorem compare_wholeMantissa (ha0 : a ≠ 0) (hb0 : b ≠ 0) (ha : a ≤ 2 ^ 53) (hb : b ≤ 2 ^ 53) :
    (compare (wholeExponent a) (wholeExponent b)).then
      (compare (wholeMantissa a) (wholeMantissa b)) = compare a b := by
  unfold wholeExponent
  rcases lt_trichotomy a.log2 b.log2 with hl | hl | hl
  · rw [Int.compare_eq_lt.mpr (by omega), Nat.compare_eq_lt.mpr (lt_of_log2_lt hb0 hl)]
    rfl
  · rw [Int.compare_eq_eq.mpr (by omega), Ordering.eq_then]
    rcases lt_trichotomy a b with h | h | h
    · rw [Nat.compare_eq_lt.mpr h, Nat.compare_eq_lt.mpr (wholeMantissa_lt ha hb hl h)]
    · rw [h, Nat.compare_eq_eq.mpr rfl, Nat.compare_eq_eq.mpr rfl]
    · rw [Nat.compare_eq_gt.mpr h, Nat.compare_eq_gt.mpr (wholeMantissa_lt hb ha hl.symm h)]
  · rw [Int.compare_eq_gt.mpr (by omega), Nat.compare_eq_gt.mpr (lt_of_log2_lt ha0 hl)]
    rfl

theorem compare_natAbs_of_neg {a b : Int} (ha : a < 0) (hb : b < 0) :
    (compare a.natAbs b.natAbs).swap = compare a b := by
  rcases lt_trichotomy a b with h | h | h
  · rw [Int.compare_eq_lt.mpr h, Nat.compare_eq_gt.mpr (by omega)]
    rfl
  · rw [h, Int.compare_eq_eq.mpr rfl, Nat.compare_eq_eq.mpr rfl]
    rfl
  · rw [Int.compare_eq_gt.mpr h, Nat.compare_eq_lt.mpr (by omega)]
    rfl

theorem compare_natAbs_of_pos {a b : Int} (ha : 0 < a) (hb : 0 < b) :
    compare a.natAbs b.natAbs = compare a b := by
  rcases lt_trichotomy a b with h | h | h
  · rw [Int.compare_eq_lt.mpr h, Nat.compare_eq_lt.mpr (by omega)]
  · rw [h, Int.compare_eq_eq.mpr rfl, Nat.compare_eq_eq.mpr rfl]
  · rw [Int.compare_eq_gt.mpr h, Nat.compare_eq_gt.mpr (by omega)]

/-- A whole number by its sign. -/
theorem whole_cases {n : Int} (h : n.natAbs ≤ 2 ^ 53) : n = 0 ∧ whole n = .zero .positive ∨
    (∃ hp, n < 0 ∧
      whole n = .finite .negative (wholeMantissa n.natAbs) (wholeExponent n.natAbs) hp) ∨
    ∃ hp, 0 < n ∧
      whole n = .finite .positive (wholeMantissa n.natAbs) (wholeExponent n.natAbs) hp := by
  by_cases hzero : n = 0
  · subst hzero
    exact .inl ⟨rfl, whole_zero⟩
  have hwhole := whole_of_ne_zero hzero h
  by_cases hn : n < 0
  · rw [signOf, if_pos hn] at hwhole
    exact .inr (.inl ⟨_, hn, hwhole⟩)
  · rw [signOf, if_neg hn] at hwhole
    exact .inr (.inr ⟨_, by omega, hwhole⟩)

theorem compare_whole {a b : Int} (ha : a.natAbs ≤ 2 ^ 53) (hb : b.natAbs ≤ 2 ^ 53) :
    (whole a).compare (whole b) = some (compare a b) := by
  rcases whole_cases ha with ⟨ha0, hwa⟩ | ⟨_, ha0, hwa⟩ | ⟨_, ha0, hwa⟩ <;>
    rcases whole_cases hb with ⟨hb0, hwb⟩ | ⟨_, hb0, hwb⟩ | ⟨_, hb0, hwb⟩ <;> rw [hwa, hwb]
  -- numbers of the same sign are compared by their bits
  case inr.inl.inr.inl =>
    simp only [UnpackedFloat.compare]
    rw [compare_wholeMantissa (by omega) (by omega) ha hb, compare_natAbs_of_neg ha0 hb0]
  case inr.inr.inr.inr =>
    simp only [UnpackedFloat.compare]
    rw [compare_wholeMantissa (by omega) (by omega) ha hb, compare_natAbs_of_pos ha0 hb0]
  all_goals first
    | rw [Int.compare_eq_eq.mpr (by omega)]; rfl
    | rw [Int.compare_eq_lt.mpr (by omega)]; rfl
    | rw [Int.compare_eq_gt.mpr (by omega)]; rfl

/-! ## Doubles -/

theorem toModel_toFloat {w : UInt64} (h : w.toNat ≤ 2 ^ 53) :
    w.toFloat.toModel = Float.Model.pack (whole w.toNat) := by
  have hw := normalize_whole (n := (w.toNat : Int)) (by simpa using h) 0
  rw [pow_zero, mul_one] at hw
  exact congrArg Float.Model.pack hw

theorem toModel_ofNat (h : n ≤ 2 ^ 53) :
    (Float.ofNat n).toModel = Float.Model.pack (whole n) := by
  by_cases hlt : n < 2 ^ 53
  · have hnat : n.toUInt64.toNat = n := by
      show n % 2 ^ 64 = n
      omega
    have hn : (n.toUInt64.toFloat).toModel = Float.Model.pack (whole n) := by
      rw [toModel_toFloat (by rwa [hnat]), hnat]
    have hone : (Float.exactlyRepresentablePowersOfTen[0]).toModel = Float.Model.pack (whole 1) := by
      decide +kernel
    have hofNat : Float.ofNat n = n.toUInt64.toFloat * Float.exactlyRepresentablePowersOfTen[0] := by
      show Float.ofScientific n false 0 = _
      unfold Float.ofScientific
      rw [dif_pos ⟨hlt, by decide⟩]
      rfl
    have hmul := mul_whole h (b := 1) (by decide) (by omega)
    rw [hofNat]
    show Float.Model.pack (mul binary64 (n.toUInt64.toFloat).toModel.unpack
      (Float.exactlyRepresentablePowersOfTen[0]).toModel.unpack) = _
    rw [hn, hone, unpack_pack_whole (by simpa using h), unpack_pack_whole (by decide)]
    rw [Nat.mul_one] at hmul
    exact congrArg _ hmul
  · obtain rfl : n = 2 ^ 53 := by omega
    decide +kernel

/-- A whole number of at most 53 bits, or `2 ^ 53`, is packed as it is. -/
theorem toModel_ofInt {n : Int} (h : n.natAbs ≤ 2 ^ 53) :
    (Float.ofInt n).toModel = Float.Model.pack (whole n) := by
  cases n with
  | ofNat n => exact toModel_ofNat (by simpa using h)
  | negSucc n =>
    have hn : n + 1 ≤ 2 ^ 53 := by simpa using h
    have hw : ((n + 1 : Nat) : Int).natAbs ≤ 2 ^ 53 := by rwa [Int.natAbs_natCast]
    show Float.Model.pack ((Float.ofNat (n + 1)).toModel.unpack).neg = _
    rw [toModel_ofNat hn, unpack_pack_whole hw, neg_whole (by omega) hw]
    rfl

theorem unpack_ofInt {n : Int} (h : n.natAbs ≤ 2 ^ 53) : (Float.ofInt n).toModel.unpack = whole n := by
  rw [toModel_ofInt h, unpack_pack_whole h]

theorem eq_ofInt {n : Int} (h : n.natAbs ≤ 2 ^ 53) (hx : x.toModel = Float.Model.pack (whole n)) :
    x = Float.ofInt n := by
  rw [← toModel_ofInt h] at hx
  exact congrArg Float.ofModel hx

section Pairs

variable {a b : Int} (ha : a.natAbs ≤ 2 ^ 53) (hb : b.natAbs ≤ 2 ^ 53)
include ha hb

/-- An operation on doubles is done on what they unpack to. -/
theorem pack_ofInt (op : UnpackedFloat → UnpackedFloat → UnpackedFloat) :
    Float.Model.pack (op (Float.ofInt a).toModel.unpack (Float.ofInt b).toModel.unpack) =
      Float.Model.pack (op (whole a) (whole b)) := by
  rw [unpack_ofInt ha, unpack_ofInt hb]

/-- Sums of whole numbers are exact. -/
theorem ofInt_add (hab : (a + b).natAbs ≤ 2 ^ 53) :
    Float.ofInt a + Float.ofInt b = Float.ofInt (a + b) := by
  apply eq_ofInt hab
  rw [← add_whole ha hb hab]
  exact pack_ofInt ha hb (add binary64)

/-- Differences of whole numbers are exact. -/
theorem ofInt_sub (hab : (a - b).natAbs ≤ 2 ^ 53) :
    Float.ofInt a - Float.ofInt b = Float.ofInt (a - b) := by
  apply eq_ofInt hab
  rw [← sub_whole ha hb hab]
  exact pack_ofInt ha hb (UnpackedFloat.sub binary64)

theorem ofInt_beq : (Float.ofInt a == Float.ofInt b) = decide (a = b) := by
  show ((Float.ofInt a).toModel.unpack.beq (Float.ofInt b).toModel.unpack) = _
  rw [unpack_ofInt ha, unpack_ofInt hb, UnpackedFloat.beq, compare_whole ha hb]
  by_cases h : a = b
  · rw [Int.compare_eq_eq.mpr h]
    simp [h]
  · have : compare a b ≠ .eq := fun he => h (Int.compare_eq_eq.mp he)
    simp [h, this]

end Pairs

/-- Products of whole numbers that are not negative are exact. -/
theorem ofInt_mul (ha : a ≤ 2 ^ 53) (hb : b ≤ 2 ^ 53) (hab : a * b ≤ 2 ^ 53) :
    Float.ofInt a * Float.ofInt b = Float.ofInt ((a * b : Nat) : Int) := by
  apply eq_ofInt (by rwa [Int.natAbs_natCast])
  rw [← mul_whole ha hb hab]
  exact pack_ofInt (by simpa using ha) (by simpa using hb) (mul binary64)

/-- The opposite of a whole number other than zero is exact. -/
theorem ofInt_neg_one_mul (hn : n ≠ 0) (h : n ≤ 2 ^ 53) :
    Float.ofInt (-1) * Float.ofInt n = Float.ofInt (-n) := by
  have hint : (n : Int).natAbs ≤ 2 ^ 53 := by rwa [Int.natAbs_natCast]
  have hneg : (-(n : Int)).natAbs ≤ 2 ^ 53 := by rwa [Int.natAbs_neg]
  have hmul := mul_whole_of_ne_zero (a := -1) (by decide) hint (by decide) (by omega)
    (by rwa [neg_one_mul])
  rw [neg_one_mul] at hmul
  apply eq_ofInt hneg
  rw [← hmul]
  exact pack_ofInt (by decide) hint (mul binary64)

theorem lt_iff_unpack (x y : Float) : x < y ↔ x.toModel.unpack.lt y.toModel.unpack = true := by
  show decide (x.toModel.unpack.lt y.toModel.unpack = true) = true ↔ _
  exact decide_eq_true_iff

theorem le_iff_unpack (x y : Float) : x ≤ y ↔ x.toModel.unpack.le y.toModel.unpack = true := by
  show decide (x.toModel.unpack.le y.toModel.unpack = true) = true ↔ _
  exact decide_eq_true_iff

/-! ## Quotients without their fraction -/

theorem shiftRight_mantissa (em : ExtendedMantissa) (k : Nat) :
    (em >>> k).mantissa = em.mantissa / 2 ^ k := by
  induction k with
  | zero => rw [Nat.pow_zero, Nat.div_one]; rfl
  | succ k ih =>
    show (em >>> k).mantissa / 2 = _
    rw [ih, Nat.div_div_eq_div_mul, ← Nat.pow_succ]

theorem isNegative_eq_msb (x : Float) : isNegative x = x.toBits.toBitVec.msb := by
  unfold isNegative
  generalize x.toBits = b
  have hb : b.toNat < 2 ^ 64 := b.toNat_lt
  have hshift : (b >>> 63).toNat = b.toNat / 2 ^ 63 := by
    rw [UInt64.toNat_shiftRight, Nat.shiftRight_eq_div_pow]
    rfl
  rw [BitVec.msb_eq_decide, Bool.eq_iff_iff, beq_iff_eq, ← UInt64.toNat_inj, hshift,
    decide_eq_true_eq]
  show b.toNat / 2 ^ 63 = 1 ↔ 2 ^ 63 ≤ b.toNat
  omega

theorem msb_packComponents (e : BitVec 11) (m : BitVec 52) :
    (packComponents binary64 .positive e m).msb = false := by
  show ((0#1 ++ e) ++ m).msb = false
  rw [BitVec.msb_append, BitVec.msb_append]
  rfl

theorem pack_unpack_model (f : Float.Model) : Float.Model.pack f.unpack = f := by
  obtain ⟨bits, valid⟩ := f
  unfold Float.Model.pack Float.Model.unpack
  congr 1
  exact congrArg UInt64.ofBitVec (pack_unpack_of_valid valid)

theorem mantissa_lt {f : Float.Model} {hp : 0 < m} (h : f.unpack = .finite s m e hp) :
    m < 2 ^ 53 := by
  unfold Float.Model.unpack UnpackedFloat.unpack at h
  dsimp only at h
  split at h
  · split at h <;> cases h
  · split at h
    · split at h
      · cases h
      · cases h
        exact Nat.lt_trans (BitVec.isLt _) (by decide)
    · cases h
      exact BitVec.isLt _

section Positive

variable {x : Float} {m : Nat} {e : Int} {hp : 0 < m}

theorem eq_pack_positive (h : x.toModel.unpack = .finite .positive m e hp) :
    x = Float.ofModel (Float.Model.pack (.finite .positive m e hp)) := by
  rw [← h, pack_unpack_model]

theorem isNegative_of_unpack_positive (h : x.toModel.unpack = .finite .positive m e hp) :
    isNegative x = false := by
  rw [eq_pack_positive h, isNegative_eq_msb]
  show (UnpackedFloat.pack binary64 (.finite .positive m e hp)).msb = false
  unfold UnpackedFloat.pack
  dsimp only
  split
  · exact msb_packComponents _ _
  · split <;> exact msb_packComponents _ _

theorem abs_of_unpack_positive (h : x.toModel.unpack = .finite .positive m e hp) : x.abs = x := by
  refine Eq.trans ?_ (eq_pack_positive h).symm
  show Float.ofModel (Float.Model.pack x.toModel.unpack.abs) = _
  rw [h]
  rfl

theorem lt_two_pow_iff (h : x.toModel.unpack = .finite .positive m e hp) :
    x < 9007199254740992 ↔ e < 1 ∨ e = 1 ∧ m < 2 ^ 52 := by
  have hlit : (9007199254740992 : Float) = Float.ofInt ((2 ^ 53 : Nat) : Int) := rfl
  have hexp : wholeExponent ((2 ^ 53 : Nat) : Int).natAbs = 1 := by decide
  have hmant : wholeMantissa ((2 ^ 53 : Nat) : Int).natAbs = 2 ^ 52 := by decide +kernel
  rw [hlit, lt_iff_unpack, unpack_ofInt (by decide), whole_of_ne_zero (by decide) (by decide), h,
    signOf, if_neg (by decide)]
  simp only [UnpackedFloat.lt, UnpackedFloat.compare, hexp, hmant, beq_iff_eq, Option.some_inj]
  rw [Ordering.then_eq_lt, Int.compare_eq_lt, Int.compare_eq_eq, Nat.compare_eq_lt]

end Positive

theorem abs_ofInt (h : n ≤ 2 ^ 53) : (Float.ofInt n).abs = Float.ofInt n := by
  apply eq_ofInt (by rwa [Int.natAbs_natCast])
  show Float.Model.pack (Float.ofInt n).toModel.unpack.abs = _
  rw [unpack_ofInt (by rwa [Int.natAbs_natCast])]
  by_cases hn : (n : Int) = 0
  · rw [hn, whole_zero]
    rfl
  · rw [whole_of_ne_zero hn (by rwa [Int.natAbs_natCast]), signOf, if_neg (by omega)]
    rfl

/-- Without its fraction, a positive number below `2 ^ 53` is a whole number. -/
theorem toUInt64_positive {hp : 0 < m}
    (hx : x.toModel.unpack = .finite .positive m (-(k : Int)) hp) :
    x.toUInt64.toNat = m / 2 ^ k := by
  have hle : m / 2 ^ k < 2 ^ 53 := Nat.lt_of_le_of_lt (Nat.div_le_self _ _) (mantissa_lt hx)
  have hround : roundToInt .positive m (-(k : Int)) = ((m / 2 ^ k : Nat) : Int) := by
    unfold roundToInt decreaseExponent shiftToExponent
    dsimp only
    rw [shiftRight_mantissa]
    have h0 : (-(k : Int) - 0).toNat = 0 := by omega
    have hk' : (0 - (-(k : Int) - ((0 : Nat) : Int))).toNat = k := by omega
    rw [h0, hk', Nat.shiftLeft_zero]
    rfl
  show (UInt64.ofNatClamp (x.toModel.unpack.toInt 0 (UInt64.size - 1)).toNat).toNat = _
  rw [hx]
  show (UInt64.ofNatClamp (roundToInt .positive m (-(k : Int))).toNat).toNat = _
  rw [hround, Int.toNat_natCast]
  unfold UInt64.ofNatClamp
  rw [dif_pos (show m / 2 ^ k < UInt64.size by unfold UInt64.size; omega)]
  rfl

theorem trunc_positive {hp : 0 < m} (hx : x.toModel.unpack = .finite .positive m (-(k : Int)) hp) :
    trunc x = Float.ofInt ((m / 2 ^ k : Nat) : Int) := by
  have hsmall : x < 9007199254740992 := (lt_two_pow_iff hx).mpr (.inl (by omega))
  have hle : m / 2 ^ k < 2 ^ 53 := Nat.lt_of_le_of_lt (Nat.div_le_self _ _) (mantissa_lt hx)
  have hword := toUInt64_positive hx
  have hfloat : x.toUInt64.toFloat = Float.ofInt ((m / 2 ^ k : Nat) : Int) := by
    apply eq_ofInt (by rw [Int.natAbs_natCast]; omega)
    rw [toModel_toFloat (by omega), hword]
  unfold trunc withSign
  rw [abs_of_unpack_positive hx, if_pos hsmall, hfloat, abs_ofInt hle.le,
    isNegative_of_unpack_positive hx]
  rfl

theorem roundedMantissa_bounds (em : ExtendedMantissa) :
    em.mantissa ≤ em.roundedMantissa ∧ em.roundedMantissa ≤ em.mantissa + 1 := by
  obtain ⟨m, r, s⟩ := em
  cases r <;> cases s <;>
    simp [ExtendedMantissa.roundedMantissa, ExtendedMantissa.accuracy, Accuracy.roundToNearestEven]
  omega

/-- Of a mantissa with `c` bits too many, these are dropped. -/
theorem shiftToTargetExponent_excess (acc : Accuracy) (hc : m.log2 = 52 + c) (hck : c ≤ k)
    (hk : k ≤ 900) :
    ∃ em, shiftToTargetExponent binary64 m (-(k : Int)) acc =
      (em, -((k - c : Nat) : Int)) ∧ em.mantissa = m / 2 ^ c := by
  unfold shiftToTargetExponent shiftToExponent
  rw [targetExponent_eq (by omega), hc]
  have hs : (((52 + c : Nat) : Int) + -(k : Int) - 52 - -(k : Int)).toNat = c := by omega
  dsimp only
  rw [hs]
  refine ⟨_, Prod.ext rfl ?_, ?_⟩
  · show -(k : Int) + (c : Int) = -((k - c : Nat) : Int)
    omega
  · rw [shiftRight_mantissa]
    cases acc with
    | exact => rfl
    | inexact o => cases o <;> rfl

/-- A mantissa that was rounded up to one bit too many loses a zero. -/
theorem shiftToTargetExponent_carry (h0 : 1 ≤ k) (hk : k ≤ 900) :
    shiftToTargetExponent binary64 (2 ^ 53) (-(k : Int)) .exact =
      (⟨2 ^ 52, false, false⟩, -((k - 1 : Nat) : Int)) := by
  unfold shiftToTargetExponent shiftToExponent
  rw [targetExponent_eq (by rw [Nat.log2_two_pow]; omega), Nat.log2_two_pow]
  have hs : (((53 : Nat) : Int) + -(k : Int) - 52 - -(k : Int)).toNat = 1 := by omega
  dsimp only
  rw [hs]
  refine Prod.ext rfl ?_
  show -(k : Int) + ((1 : Nat) : Int) = -((k - 1 : Nat) : Int)
  omega

/-- A number that is rounded behind its last `c` bits stays between the multiples of `2 ^ k`
around it. -/
theorem roundedMantissa_scaled (hem : em.mantissa = m / 2 ^ c) (hc : c ≤ 1) (hck : c ≤ k) :
    em.roundedMantissa * 2 ^ c ≤ m + 2 ∧
      ∀ q, q * 2 ^ k ≤ m → q * 2 ^ k ≤ em.roundedMantissa * 2 ^ c := by
  obtain ⟨hr1, hr2⟩ := roundedMantissa_bounds em
  rw [hem] at hr1 hr2
  constructor
  · have hdiv : m / 2 ^ c * 2 ^ c ≤ m := Nat.div_mul_le_self m (2 ^ c)
    have hc2 : 2 ^ c ≤ 2 := by
      rcases Nat.le_one_iff_eq_zero_or_eq_one.mp hc with rfl | rfl <;> decide
    have hscaled := Nat.mul_le_mul_right (2 ^ c) hr2
    rw [Nat.add_mul] at hscaled
    omega
  · intro q hq
    have hsplit : q * 2 ^ k = q * 2 ^ (k - c) * 2 ^ c := by
      rw [Nat.mul_assoc, ← Nat.pow_add, Nat.sub_add_cancel hck]
    rw [hsplit] at hq ⊢
    apply Nat.mul_le_mul_right
    exact le_trans ((Nat.le_div_iff_mul_le (Nat.two_pow_pos c)).mpr hq) hr1

/-- Rounding a mantissa of 53 bits gives one of 53 bits, or it carries. -/
theorem roundedMantissa_range (hem : em.mantissa = m / 2 ^ c) (hlo : 2 ^ (52 + c) ≤ m)
    (hhi : m < 2 ^ (52 + c + 1)) :
    2 ^ 52 ≤ em.roundedMantissa ∧ em.roundedMantissa ≤ 2 ^ 53 := by
  obtain ⟨hr1, hr2⟩ := roundedMantissa_bounds em
  rw [hem] at hr1 hr2
  constructor
  · refine le_trans ((Nat.le_div_iff_mul_le (Nat.two_pow_pos c)).mpr ?_) hr1
    rwa [← Nat.pow_add]
  · have hlt : m / 2 ^ c < 2 ^ 53 := by
      apply (Nat.div_lt_iff_lt_mul (Nat.two_pow_pos c)).mpr
      rw [← Nat.pow_add]
      rwa [show 53 + c = 52 + c + 1 by omega]
    omega

/-- Rounding a mantissa of 53 or 54 bits, with a remainder that may be lost: the result is within
one unit, and multiples of the unit are never passed. -/
theorem roundWithAccuracy_bounds (s : Sign) (acc : Accuracy) (hlo : 52 ≤ m.log2) (hhi : m.log2 ≤ 53)
    (hk : 2 ≤ k) (hk' : k ≤ 900) :
    ∃ (r d : Nat) (hp : 0 < r), d ≤ 2 ∧ r.log2 = 52 ∧
      roundWithAccuracy binary64 s m (-(k : Int)) acc =
        .finite s r (-((k - d : Nat) : Int)) hp ∧
      r * 2 ^ d ≤ m + 2 ∧ ∀ q, q * 2 ^ k ≤ m → q * 2 ^ k ≤ r * 2 ^ d := by
  have hm : m ≠ 0 := by rintro rfl; simp at hlo
  -- one bit is dropped if there are 54
  obtain ⟨c, hc⟩ : ∃ c, m.log2 = 52 + c := ⟨m.log2 - 52, by omega⟩
  have hm1 := Nat.log2_self_le hm
  have hm2 := Nat.lt_log2_self (n := m)
  rw [hc] at hm1 hm2
  obtain ⟨em, hshift, hem⟩ := shiftToTargetExponent_excess acc hc (by omega) hk'
  obtain ⟨hupper, hlower⟩ := roundedMantissa_scaled (k := k) hem (by omega) (by omega)
  obtain ⟨hlow, hhigh⟩ := roundedMantissa_range hem hm1 hm2
  unfold roundWithAccuracy
  rw [hshift]
  dsimp only
  by_cases hcarry : em.roundedMantissa = 2 ^ 53
  · rw [hcarry] at hupper hlower
    refine ⟨2 ^ 52, c + 1, by decide, by omega, by decide, ?_, ?_, ?_⟩
    · rw [hcarry, shiftToTargetExponent_carry (by omega) (by omega), Nat.sub_sub]
      rfl
    · rw [Nat.pow_succ]
      omega
    · intro q hq
      have hq' := hlower q hq
      rw [Nat.pow_succ]
      omega
  · have hlog : em.roundedMantissa.log2 = 52 :=
      (Nat.log2_eq_iff (by omega)).mpr ⟨hlow, by omega⟩
    refine ⟨em.roundedMantissa, c, by omega, by omega, hlog, ?_, hupper, hlower⟩
    have hcanonical : Canonical em.roundedMantissa (-((k - c : Nat) : Int)) :=
      .inl ⟨hlog, by omega, by omega⟩
    rw [hcanonical.shiftToTargetExponent_self]
    dsimp only
    rw [dif_neg (by omega)]

/-- The quotient of positive whole numbers in units of `2 ^ -k`, with its remainder dropped. -/
theorem divCore_whole (ha0 : a ≠ 0) (hb0 : b ≠ 0) (ha : a ≤ 2 ^ 53) (hb : b ≤ 2 ^ 53) :
    ∃ acc, divCore binary64 (wholeMantissa a) (wholeExponent a) (wholeMantissa b)
      (wholeExponent b) =
        (wholeMantissa a * 2 ^ 53 / wholeMantissa b, (a.log2 : Int) - b.log2 - 53, acc) := by
  have hla := log2_wholeMantissa ha0 ha
  have hlb := log2_wholeMantissa hb0 hb
  have h53a := log2_le_of_le ha
  have h53b := log2_le_of_le hb
  have ht : binary64.targetExponent
      (totalExponent (wholeMantissa a) (wholeExponent a) -
        totalExponent (wholeMantissa b) (wholeExponent b)) = (a.log2 : Int) - b.log2 - 53 := by
    simp only [targetExponent, totalExponent, mantissaBits, minExponent,
      wholeExponent, hla, hlb]
    norm_num
    omega
  have hmin : min (wholeExponent a - wholeExponent b) ((a.log2 : Int) - b.log2 - 53) =
      (a.log2 : Int) - b.log2 - 53 := by
    unfold wholeExponent
    omega
  have hshift : (wholeExponent a - wholeExponent b - ((a.log2 : Int) - b.log2 - 53)).toNat = 53 := by
    unfold wholeExponent
    omega
  unfold divCore
  dsimp only
  rw [ht, hmin, hshift, Nat.shiftLeft_eq]
  exact ⟨_, rfl⟩

theorem wholeMantissa_div (ha : a ≤ 2 ^ 53) (hb : b ≤ 2 ^ 53) (hl : a.log2 ≤ 53 + b.log2) :
    wholeMantissa a * 2 ^ 53 / wholeMantissa b = a * 2 ^ (53 + b.log2 - a.log2) / b := by
  have hnum : wholeMantissa a * 2 ^ 53 * 2 ^ (a.log2 + b.log2) =
      a * 2 ^ (53 + b.log2 - a.log2) * (2 ^ 52 * 2 ^ a.log2) := by
    calc wholeMantissa a * 2 ^ 53 * 2 ^ (a.log2 + b.log2)
        = wholeMantissa a * 2 ^ a.log2 * 2 ^ (53 + b.log2) := by rw [Nat.pow_add, Nat.pow_add]; ring
      _ = a * 2 ^ 52 * 2 ^ (53 + b.log2 - a.log2 + a.log2) := by
          rw [wholeMantissa_mul ha, Nat.sub_add_cancel hl]
      _ = a * 2 ^ (53 + b.log2 - a.log2) * (2 ^ 52 * 2 ^ a.log2) := by rw [Nat.pow_add]; ring
  have hden : wholeMantissa b * 2 ^ (a.log2 + b.log2) = b * (2 ^ 52 * 2 ^ a.log2) := by
    calc wholeMantissa b * 2 ^ (a.log2 + b.log2)
        = wholeMantissa b * 2 ^ b.log2 * 2 ^ a.log2 := by rw [Nat.pow_add]; ring
      _ = b * (2 ^ 52 * 2 ^ a.log2) := by rw [wholeMantissa_mul hb]; ring
  rw [← Nat.mul_div_mul_right _ _ (Nat.two_pow_pos (a.log2 + b.log2)), hnum, hden,
    Nat.mul_div_mul_right _ _ (by positivity)]

/-- The quotient of two mantissas, in units that leave it 53 bits or 54. -/
theorem log2_wholeMantissa_div (ha0 : a ≠ 0) (hb0 : b ≠ 0) (ha : a ≤ 2 ^ 53) (hb : b ≤ 2 ^ 53) :
    52 ≤ (wholeMantissa a * 2 ^ 53 / wholeMantissa b).log2 ∧
      (wholeMantissa a * 2 ^ 53 / wholeMantissa b).log2 ≤ 53 := by
  obtain ⟨h1, h2⟩ := (Nat.log2_eq_iff (wholeMantissa_pos ha0 ha).ne').mp
    (log2_wholeMantissa ha0 ha)
  obtain ⟨h3, h4⟩ := (Nat.log2_eq_iff (wholeMantissa_pos hb0 hb).ne').mp
    (log2_wholeMantissa hb0 hb)
  have hp := wholeMantissa_pos hb0 hb
  have hge : 2 ^ 52 ≤ wholeMantissa a * 2 ^ 53 / wholeMantissa b :=
    (Nat.le_div_iff_mul_le hp).mpr (by omega)
  have hlt : wholeMantissa a * 2 ^ 53 / wholeMantissa b < 2 ^ 54 :=
    (Nat.div_lt_iff_lt_mul hp).mpr (by omega)
  have hlog := (Nat.log2_lt (by omega)).mpr hlt
  exact ⟨(Nat.le_log2 (by omega)).mpr hge, by omega⟩

/-- The whole part of a rounded quotient is that of the true one: this is at least `1 / b` below
the next whole number, and rounding goes less far. -/
theorem rounded_div {r d : Nat} (hb0 : b ≠ 0) (hroom : 2 * b < 2 ^ k) (hd : d ≤ k)
    (hupper : r * 2 ^ d ≤ a * 2 ^ k / b + 2)
    (hlower : ∀ q, q * 2 ^ k ≤ a * 2 ^ k / b → q * 2 ^ k ≤ r * 2 ^ d) :
    r / 2 ^ (k - d) = a / b := by
  have hlow : a / b * 2 ^ k ≤ r * 2 ^ d := by
    apply hlower
    rw [Nat.le_div_iff_mul_le (Nat.pos_of_ne_zero hb0)]
    calc a / b * 2 ^ k * b = a / b * b * 2 ^ k := by ring
      _ ≤ a * 2 ^ k := Nat.mul_le_mul_right _ (Nat.div_mul_le_self a b)
  have hhigh : r * 2 ^ d < (a / b + 1) * 2 ^ k := by
    apply Nat.lt_of_le_of_lt hupper
    apply Nat.lt_of_mul_lt_mul_right (a := b)
    have h1 : a * 2 ^ k / b * b ≤ a * 2 ^ k := Nat.div_mul_le_self _ _
    have h2 : a + 1 ≤ (a / b + 1) * b := Nat.lt_mul_of_div_lt (by omega) (Nat.pos_of_ne_zero hb0)
    have h3 := Nat.mul_le_mul_right (2 ^ k) h2
    calc (a * 2 ^ k / b + 2) * b = a * 2 ^ k / b * b + 2 * b := by ring
      _ < a * 2 ^ k + 2 ^ k := by omega
      _ = (a + 1) * 2 ^ k := by ring
      _ ≤ (a / b + 1) * b * 2 ^ k := h3
      _ = (a / b + 1) * 2 ^ k * b := by ring
  have hsplit : 2 ^ k = 2 ^ (k - d) * 2 ^ d := by rw [← Nat.pow_add, Nat.sub_add_cancel hd]
  rw [hsplit, ← Nat.mul_assoc] at hlow hhigh
  exact Nat.div_eq_of_lt_le (Nat.le_of_mul_le_mul_right hlow (Nat.two_pow_pos d))
    (Nat.lt_of_mul_lt_mul_right hhigh)

/-- The rounded quotient of whole numbers of 31 bits has the whole part of the true quotient. -/
theorem trunc_div (ha : a < 2 ^ 31) (hb0 : b ≠ 0) (hb : b < 2 ^ 31) :
    trunc (Float.ofInt a / Float.ofInt b) = Float.ofInt ((a / b : Nat) : Int) := by
  have hw : ∀ {n : Nat}, n < 2 ^ 31 → ((n : Int)).natAbs ≤ 2 ^ 53 := by
    intro n hn
    rw [Int.natAbs_natCast]
    omega
  have hquot : (Float.ofInt a / Float.ofInt b).toModel =
      Float.Model.pack (div binary64 (whole a) (whole b)) :=
    pack_ofInt (hw ha) (hw hb) (div binary64)
  rw [whole_of_ne_zero (n := (b : Int)) (by omega) (hw hb)] at hquot
  by_cases ha0 : a = 0
  · subst ha0
    have hzero : Float.ofInt 0 / Float.ofInt b = Float.ofInt 0 := by
      apply eq_ofInt (by decide)
      rw [Int.natCast_zero, whole_zero, signOf, if_neg (by omega)] at hquot
      exact hquot
    rw [Int.natCast_zero, hzero, Nat.zero_div]
    decide +kernel
  rw [whole_of_ne_zero (n := (a : Int)) (by omega) (hw ha), signOf, signOf, if_neg (by omega),
    if_neg (by omega)] at hquot
  simp only [UnpackedFloat.div, Int.natAbs_natCast] at hquot
  have hla : a.log2 ≤ 30 := by have := (Nat.log2_lt ha0).mpr ha; omega
  have hlb : b.log2 ≤ 30 := by have := (Nat.log2_lt hb0).mpr hb; omega
  obtain ⟨acc, hcore⟩ := divCore_whole ha0 hb0 (by omega) (by omega : b ≤ 2 ^ 53)
  rw [hcore] at hquot
  simp only at hquot
  obtain ⟨k, hk⟩ : ∃ k, k = 53 + b.log2 - a.log2 := ⟨_, rfl⟩
  have hexp : (a.log2 : Int) - b.log2 - 53 = -(k : Int) := by omega
  have hlog := log2_wholeMantissa_div ha0 hb0 (by omega) (by omega : b ≤ 2 ^ 53)
  rw [wholeMantissa_div (by omega) (by omega) (by omega), ← hk] at hlog hquot
  obtain ⟨r, d, hp, hd, hr, hround, hupper, hlower⟩ :=
    roundWithAccuracy_bounds (.positive / .positive) acc hlog.1 hlog.2 (k := k) (by omega) (by omega)
  rw [hexp, hround] at hquot
  have hroom : 2 * b < 2 ^ k := by
    have hB : b < 2 ^ (b.log2 + 1) := Nat.lt_log2_self
    calc 2 * b < 2 * 2 ^ (b.log2 + 1) := by omega
      _ = 2 ^ (b.log2 + 2) := by ring
      _ ≤ 2 ^ k := Nat.pow_le_pow_right (by decide) (by omega)
  have hcanonical : Canonical r (-((k - d : Nat) : Int)) := .inl ⟨hr, by omega, by omega⟩
  have hunpack := hcanonical.unpack_pack (.positive / .positive)
  rw [← hquot] at hunpack
  rw [trunc_positive hunpack, rounded_div hb0 hroom (by omega) hupper hlower]

/-- A positive whole number below `2 ^ 53` has 53 bits, of which some are behind the point. -/
theorem exists_mantissa (ha0 : a ≠ 0) (ha : a < 2 ^ 53) :
    ∃ m k : Nat, ∃ hp : 0 < m, m / 2 ^ k = a ∧
      (Float.ofInt a).toModel.unpack = .finite .positive m (-(k : Int)) hp := by
  have hl : a.log2 ≤ 52 := by have := (Nat.log2_lt ha0).mpr ha; omega
  have hw : ((a : Int)).natAbs ≤ 2 ^ 53 := by rw [Int.natAbs_natCast]; omega
  have hunpack := unpack_ofInt hw
  have hexp : wholeExponent a = -((52 - a.log2 : Nat) : Int) := by unfold wholeExponent; omega
  rw [whole_of_ne_zero (by omega) hw, signOf, if_neg (by omega)] at hunpack
  simp only [Int.natAbs_natCast, hexp] at hunpack
  have hshift := wholeMantissa_shift (k := 52 - a.log2) (by omega : a ≤ 2 ^ 53) (by omega)
  rw [show a.log2 + (52 - a.log2) - 52 = 0 by omega, Nat.pow_zero, Nat.mul_one] at hshift
  refine ⟨_, _, _, ?_, hunpack⟩
  rw [hshift, Nat.mul_div_cancel _ (Nat.two_pow_pos _)]

theorem trunc_ofInt (ha : a < 2 ^ 53) : trunc (Float.ofInt a) = Float.ofInt a := by
  by_cases ha0 : a = 0
  · subst ha0
    decide +kernel
  obtain ⟨m, k, hp, hdiv, hunpack⟩ := exists_mantissa ha0 ha
  rw [trunc_positive hunpack, hdiv]

theorem toUInt64_ofInt (ha : a < 2 ^ 53) : (Float.ofInt a).toUInt64.toNat = a := by
  by_cases ha0 : a = 0
  · subst ha0
    decide +kernel
  obtain ⟨m, k, hp, hdiv, hunpack⟩ := exists_mantissa ha0 ha
  rw [toUInt64_positive hunpack, hdiv]

end DataMarks.Number
