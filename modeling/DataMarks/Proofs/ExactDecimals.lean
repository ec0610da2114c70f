/-
  Decimal text that a number is read back from.

  A finite number is a whole number of units of `2 ^ -1074`, and such a unit is `5 ^ 1074`
  units of `10 ^ -1074`. So `spelling` writes a number exactly, if not briefly, and reading it
  has nothing to round: the quotient that gives it comes out even (`ofScientific_canonical`).
-/
import DataMarks.Proofs.WholeNumber
import DataMarks.Surface.Parser

namespace DataMarks.Number

open Float.Model Float.Model.UnpackedFloat List Format

/-! ## A number from its bits -/

def biasedExponent (x : Float) : Nat := x.toBits.toNat / 2 ^ 52 % 2 ^ 11

def fraction (x : Float) : Nat := x.toBits.toNat % 2 ^ 52

def signOfBits (x : Float) : Sign := if isNegative x then .negative else .positive

theorem biasedExponent_lt (x : Float) : biasedExponent x < 2 ^ 11 := Nat.mod_lt _ (by decide)

theorem fraction_lt (x : Float) : fraction x < 2 ^ 52 := Nat.mod_lt _ (by decide)

theorem magnitude_eq (x : Float) : magnitude x =
    if biasedExponent x = 0 then ⟨fraction x, -1074⟩
    else ⟨2 ^ 52 + fraction x, (biasedExponent x : Int) - 1075⟩ := by
  unfold magnitude
  dsimp only
  split
  · rename_i h
    exact (if_pos h).symm
  · rename_i h
    exact (if_neg h).symm

theorem ofBitVec_unpackSign (x : Float) :
    Sign.ofBitVec (@unpackSign binary64 x.toBits.toBitVec) = signOfBits x := by
  have hb : x.toBits.toNat < 2 ^ 64 := x.toBits.toNat_lt
  have hbit : @unpackSign binary64 x.toBits.toBitVec = 0#1 ↔ ¬ 2 ^ 63 ≤ x.toBits.toNat := by
    rw [← BitVec.toNat_inj, unpackSign_def, BitVec.extractLsb'_toNat, Nat.shiftRight_eq_div_pow]
    show x.toBits.toNat / 2 ^ 63 % 2 ^ 1 = 0 ↔ _
    omega
  unfold Sign.ofBitVec signOfBits
  rw [isNegative_eq_msb, BitVec.msb_eq_decide]
  show _ = if decide (2 ^ 63 ≤ x.toBits.toNat) = true then Sign.negative else .positive
  simp only [hbit, decide_eq_true_eq, ite_not]

/-- What is packed in the bits of a number: its magnitude with a sign, or no magnitude at all. -/
theorem unpack_toModel (x : Float) : x.toModel.unpack =
    if biasedExponent x = 2047 then
      if fraction x = 0 then .infinity (signOfBits x) else .notANumber
    else if h : (magnitude x).mantissa = 0 then .zero (signOfBits x)
    else .finite (signOfBits x) (magnitude x).mantissa (magnitude x).exponent
      (Nat.pos_of_ne_zero h) := by
  have hexponent : (@unpackExponent binary64 x.toBits.toBitVec).toNat = biasedExponent x := by
    rw [unpackExponent_def, BitVec.extractLsb'_toNat, Nat.shiftRight_eq_div_pow]
    rfl
  have hfraction : (@unpackMantissa binary64 x.toBits.toBitVec).toNat = fraction x := by
    rw [unpackMantissa_def, BitVec.extractLsb'_toNat]
    rfl
  have himplicit : (1#1 ++ @unpackMantissa binary64 x.toBits.toBitVec).toNat =
      2 ^ 52 + fraction x := by
    rw [BitVec.toNat_append, ← Nat.shiftLeft_add_eq_or_of_lt (BitVec.isLt _), hfraction,
      Nat.shiftLeft_eq]
    rfl
  have hbias : ((exponentBias binary64 : Nat) : Int) + ((52 : Nat) : Int) = 1075 := by
    decide
  have hones : (-1#11).toNat = 2047 := by decide
  have hrun : x.toModel.unpack = UnpackedFloat.unpack binary64 x.toBits.toBitVec := rfl
  rw [hrun]
  unfold UnpackedFloat.unpack
  simp only [← BitVec.toNat_inj, ofBitVec_unpackSign, hexponent, hfraction, himplicit, hbias,
    hones]
  by_cases h0 : biasedExponent x = 0
  · have hm : magnitude x = ⟨fraction x, -1074⟩ := by rw [magnitude_eq, if_pos h0]
    simp [h0, hm]
  · have hm : magnitude x = ⟨2 ^ 52 + fraction x, (biasedExponent x : Int) - 1075⟩ := by
      rw [magnitude_eq, if_neg h0]
    simp [h0, hm]

variable {x : Float}

theorem fraction_eq_zero (hnan : x.isNaN = false) (h : biasedExponent x = 2047) :
    fraction x = 0 := by
  by_contra h0
  have hunpack := unpack_toModel x
  rw [if_pos h, if_neg h0] at hunpack
  have hyes : x.isNaN = true := by
    show x.toModel.unpack.isNaN = true
    rw [hunpack]
    rfl
  exact absurd (hyes.symm.trans hnan) (by decide)

/-- Of the numbers proper, the infinite ones have the greatest exponent. -/
theorem isInf_iff (hnan : x.isNaN = false) : x.isInf = true ↔ biasedExponent x = 2047 := by
  show x.toModel.unpack.isInf = true ↔ _
  rw [unpack_toModel]
  by_cases h : biasedExponent x = 2047
  · rw [if_pos h, if_pos (fraction_eq_zero hnan h)]
    exact ⟨fun _ => h, fun _ => rfl⟩
  · rw [if_neg h]
    split
    · exact ⟨fun h' => absurd h' Bool.false_ne_true, fun h' => absurd h' h⟩
    · exact ⟨fun h' => absurd h' Bool.false_ne_true, fun h' => absurd h' h⟩

theorem log2_normal (x : Float) : (2 ^ 52 + fraction x).log2 = 52 := by
  have hfraction := fraction_lt x
  exact (Nat.log2_eq_iff (by omega)).mpr ⟨by omega, by omega⟩

theorem canonical_magnitude (hfinite : biasedExponent x ≠ 2047) (h : (magnitude x).mantissa ≠ 0) :
    Canonical (magnitude x).mantissa (magnitude x).exponent := by
  have hlt := biasedExponent_lt x
  have hfraction := fraction_lt x
  rw [magnitude_eq] at h ⊢
  by_cases h0 : biasedExponent x = 0
  · rw [if_pos h0] at h ⊢
    exact .inr ⟨Nat.pos_of_ne_zero h, hfraction, rfl⟩
  · rw [if_neg h0]
    exact .inl ⟨log2_normal x, by dsimp only; omega, by dsimp only; omega⟩

/-! ## Rounding what needs no rounding -/

namespace Canonical

variable {m : Nat} {e : Int} (h : Canonical m e)
include h

/-- The quotient of a decimal that is a number comes out even. -/
theorem divCore {k : Nat} (hk : k ≤ 1074) (hlow : -(k : Int) ≤ e) :
    ∃ c : Nat, divCore Format.binary64 (m * 2 ^ (e + k).toNat * 5 ^ k) 0 (10 ^ k) 0 =
      (m * 2 ^ c, e - c, .exact) := by
  have hpos := h.pos
  have hfive : 0 < 5 ^ k := Nat.pow_pos (by decide)
  obtain ⟨j, hj⟩ : ∃ j : Nat, e + k = j := ⟨(e + k).toNat, by omega⟩
  have hten : 10 ^ k = 5 ^ k * 2 ^ k := by rw [← Nat.mul_pow]
  have hnum : (m * 2 ^ j * 5 ^ k).log2 = (m * 5 ^ k).log2 + j := by
    rw [show m * 2 ^ j * 5 ^ k = m * 5 ^ k * 2 ^ j by ring,
      log2_mul_two_pow (Nat.mul_pos hpos hfive).ne']
  have hden : (5 ^ k * 2 ^ k).log2 = (5 ^ k).log2 + k := log2_mul_two_pow hfive.ne' k
  -- A product has at most one bit more than its factors together.
  have hbits : (m * 5 ^ k).log2 ≤ m.log2 + (5 ^ k).log2 + 1 := by
    have hm := Nat.lt_log2_self (n := m)
    have hf := Nat.lt_log2_self (n := 5 ^ k)
    have hlt : m * 5 ^ k < 2 ^ (m.log2 + 1 + ((5 ^ k).log2 + 1)) := by
      rw [Nat.pow_add]
      exact Nat.mul_lt_mul'' hm hf
    have := (Nat.log2_lt (Nat.mul_pos hpos hfive).ne').mpr hlt
    omega
  have htarget : min 0 (Format.binary64.targetExponent (totalExponent (m * 2 ^ j * 5 ^ k) 0 -
      totalExponent (10 ^ k) 0)) ≤ e := by
    have hlog := h.log2_cases
    simp only [totalExponent, hten, hnum, hden, Format.targetExponent, Format.mantissaBits,
      Format.minExponent]
    norm_num
    omega
  unfold UnpackedFloat.divCore
  dsimp only
  rw [hj, Int.toNat_natCast, Int.sub_zero]
  generalize hT : min 0 (Format.binary64.targetExponent (totalExponent (m * 2 ^ j * 5 ^ k) 0 -
      totalExponent (10 ^ k) 0)) = T at htarget ⊢
  have hT0 : T ≤ 0 := hT ▸ Int.min_le_left _ _
  obtain ⟨s, rfl⟩ : ∃ s : Nat, T = -(s : Int) := ⟨(-T).toNat, by omega⟩
  obtain ⟨c, hc⟩ : ∃ c : Nat, e + s = c := ⟨(e + s).toNat, by omega⟩
  have hshift : (0 - -(s : Int)).toNat = s := by omega
  have heven : (m * 2 ^ j * 5 ^ k) <<< s = m * 2 ^ c * 10 ^ k := by
    rw [Nat.shiftLeft_eq, hten]
    calc m * 2 ^ j * 5 ^ k * 2 ^ s = m * 5 ^ k * 2 ^ (j + s) := by rw [Nat.pow_add]; ring
      _ = m * 5 ^ k * 2 ^ (c + k) := by rw [show j + s = c + k by omega]
      _ = m * 2 ^ c * (5 ^ k * 2 ^ k) := by rw [Nat.pow_add]; ring
  refine ⟨c, ?_⟩
  rw [hshift, heven, Nat.mul_div_cancel _ (Nat.pow_pos (by decide)), Nat.mul_mod_left]
  refine Prod.ext rfl (Prod.ext ?_ rfl)
  show -(s : Int) = e - c
  omega

/-- A decimal that is a number is read as that number. -/
theorem ofScientific {k : Nat} (hk : k ≤ 1074) (hlow : -(k : Int) ≤ e) (hk0 : 0 < k) :
    UnpackedFloat.ofScientific binary64 (m * 2 ^ (e + k).toNat * 5 ^ k) (-(k : Int)) =
      .finite .positive m e h.pos := by
  have hne : m * 2 ^ (e + k).toNat * 5 ^ k ≠ 0 :=
    (Nat.mul_pos (Nat.mul_pos h.pos (Nat.two_pow_pos _)) (Nat.pow_pos (by decide))).ne'
  obtain ⟨c, hc⟩ := h.divCore hk hlow
  unfold UnpackedFloat.ofScientific
  rw [dif_neg hne, if_neg (by norm_num), if_neg (by norm_num; omega), if_neg (by omega)]
  unfold UnpackedFloat.div
  dsimp only
  rw [Int.neg_neg, Int.toNat_natCast, hc]
  exact h.roundWithAccuracy .positive c

end Canonical

/-! ## Spelling -/

/-- The digits of a number without its sign, as a float literal. -/
def spelling (x : Float) : String :=
  if x.isInf then "1e2049"
  else
    let m := magnitude x
    Nat.repr (m.mantissa * 2 ^ (m.exponent + 1074).toNat * 5 ^ 1074) ++ "e-1074"

theorem digitsValue_repr (n : Nat) : digitsValue (Nat.repr n).toList = n := by
  rw [Nat.toList_repr]
  exact Nat.ofDigitChars_eq_foldl.symm.trans Nat.ofDigitChars_ten_toDigits

theorem takeWhile_repr_append (n : Nat) {c : Char} (hc : c.isDigit = false) (cs : List Char) :
    ((Nat.repr n).toList ++ c :: cs).takeWhile Char.isDigit = (Nat.repr n).toList ∧
      ((Nat.repr n).toList ++ c :: cs).dropWhile Char.isDigit = c :: cs := by
  have hall : ∀ d ∈ (Nat.repr n).toList, d.isDigit = true := by
    intro d hd
    rw [Nat.toList_repr] at hd
    exact Nat.isDigit_of_mem_toDigits (by decide) (by decide) hd
  constructor
  · rw [takeWhile_append_of_pos hall, takeWhile_cons, hc]
    simp
  · rw [dropWhile_append_of_pos hall, dropWhile_cons, hc]
    simp

theorem ofDigits_scaled (n : Nat) :
    ofDigits ((Nat.repr n).toList ++ "e-1074".toList) = Float.ofScientific n true 1074 := by
  obtain ⟨htake, hdrop⟩ := takeWhile_repr_append n (c := 'e') rfl ['-', '1', '0', '7', '4']
  have htext : "e-1074".toList = ['e', '-', '1', '0', '7', '4'] := rfl
  have hparts : ofDigits ((Nat.repr n).toList ++ ['e', '-', '1', '0', '7', '4']) =
      ofDecimal ⟨digitsValue ((Nat.repr n).toList ++ []), -1074⟩ := by
    unfold ofDigits
    rw [htake, hdrop]
    rfl
  have hneg : ¬ (0 : Int) ≤ -1074 := by decide
  rw [htext, hparts, append_nil, digitsValue_repr, ofDecimal, if_neg hneg]
  rfl

theorem unpack_sign (negative : Bool) :
    (Surface.Parser.Numeral.sign negative).toModel.unpack =
      .finite (if negative then .negative else .positive) (2 ^ 52) (-52) (by decide) := by
  have hmantissa : wholeMantissa 1 = 2 ^ 52 := by decide +kernel
  have hexponent : wholeExponent 1 = -52 := by decide +kernel
  cases negative with
  | false =>
    show (Float.ofInt 1).toModel.unpack = _
    rw [unpack_ofInt (by decide), whole_of_ne_zero (by decide) (by decide)]
    simp only [Int.natAbs_one, hmantissa, hexponent]
    rfl
  | true =>
    show (Float.ofInt (-1)).toModel.unpack = _
    rw [unpack_ofInt (by decide), whole_of_ne_zero (by decide) (by decide)]
    simp only [Int.natAbs_neg, Int.natAbs_one, hmantissa, hexponent]
    rfl

/-- The sign is a factor of magnitude one: it changes nothing but the sign. -/
theorem sign_mul_finite (negative : Bool) {m : Nat} {e : Int} (h : Canonical m e) :
    Surface.Parser.Numeral.sign negative * .ofModel (.pack (.finite .positive m e h.pos)) =
      .ofModel (.pack (.finite (if negative then .negative else .positive) m e h.pos)) := by
  have hsign : (if negative then Sign.negative else .positive) * Sign.positive =
      if negative then .negative else .positive := by
    cases negative <;> rfl
  have hexponent : (-52 : Int) + e = e - ((52 : Nat) : Int) := by omega
  show Float.ofModel (.pack (UnpackedFloat.mul binary64 _ _)) = _
  rw [unpack_sign, h.unpack_pack]
  unfold UnpackedFloat.mul
  dsimp only
  rw [hsign, hexponent, Nat.mul_comm, h.roundWithAccuracy]

theorem sign_mul_zero (negative : Bool) :
    Surface.Parser.Numeral.sign negative * .ofModel (.pack (.zero .positive)) =
      .ofModel (.pack (.zero (if negative then .negative else .positive))) := by
  show Float.ofModel (.pack (UnpackedFloat.mul binary64 _ _)) = _
  rw [unpack_sign, unpack_pack_zero]
  cases negative <;> rfl

theorem sign_mul_infinity (negative : Bool) :
    Surface.Parser.Numeral.sign negative * .ofModel (.pack (.infinity .positive)) =
      .ofModel (.pack (.infinity (if negative then .negative else .positive))) := by
  have hunpack : (Float.Model.pack (.infinity .positive)).unpack = .infinity .positive := rfl
  show Float.ofModel (.pack (UnpackedFloat.mul binary64 _ _)) = _
  rw [unpack_sign, hunpack]
  cases negative <;> rfl

/-- From the 23rd power of ten on, numbers are read through the model. -/
theorem ofScientific_eq (n : Nat) : Float.ofScientific n true 1074 =
    .ofModel (.pack (UnpackedFloat.ofScientific binary64 n (-((1074 : Nat) : Int)))) := by
  unfold Float.ofScientific
  rw [dif_neg (by omega)]
  rfl

/-- A spelling is read as the number it was made from. -/
theorem sign_mul_spelling (hnan : x.isNaN = false) :
    Surface.Parser.Numeral.sign (isNegative x) * ofDigits (spelling x).toList = x := by
  have hx := congrArg Float.ofModel (pack_unpack_model x.toModel).symm
  rw [unpack_toModel] at hx
  unfold spelling
  by_cases hinf : x.isInf = true
  · have hexponent := (isInf_iff hnan).mp hinf
    rw [if_pos hexponent, if_pos (fraction_eq_zero hnan hexponent)] at hx
    have hread : ofDigits "1e2049".toList = .ofModel (.pack (.infinity .positive)) := by
      decide +kernel
    rw [if_pos hinf, hread, sign_mul_infinity]
    exact hx.symm
  · have hexponent : biasedExponent x ≠ 2047 := fun h => hinf ((isInf_iff hnan).mpr h)
    rw [if_neg hexponent] at hx
    rw [if_neg hinf]
    dsimp only
    rw [String.toList_append, ofDigits_scaled, ofScientific_eq]
    by_cases h0 : (magnitude x).mantissa = 0
    · rw [dif_pos h0] at hx
      have hzero : UnpackedFloat.ofScientific binary64 0 (-((1074 : Nat) : Int)) =
          .zero .positive := rfl
      rw [h0, Nat.zero_mul, Nat.zero_mul, hzero, sign_mul_zero]
      exact hx.symm
    · rw [dif_neg h0] at hx
      have hcanonical := canonical_magnitude hexponent h0
      have hlow : -((1074 : Nat) : Int) ≤ (magnitude x).exponent := by
        have := hcanonical.log2_cases
        omega
      have hcast : (magnitude x).exponent + 1074 =
          (magnitude x).exponent + ((1074 : Nat) : Int) := rfl
      rw [hcast, hcanonical.ofScientific (le_refl 1074) hlow (by decide),
        sign_mul_finite _ hcanonical]
      exact hx.symm

end DataMarks.Number
