import ChanceProof.Proofs.Probability.Truth
import Mathlib

/-!
# Coins land in possible ways

A coin compares the fraction that a random word stands for with its probability. The fraction is a
quotient of doubles that is never rounded: the 53 bits of the word become the mantissa, and dividing
by `2 ^ 53` moves the exponent (`unpack_fraction`). So it is from zero to below one, and a coin
lands only in ways that its probability allows (`coinWeight_lands_ne_zero`).
-/

namespace ChanceProof

namespace Decimal.Binary

open Float.Model Float.Model.UnpackedFloat

/-! ## Packing what fills a mantissa -/

section

variable {sign : Sign} {m : ℕ} {e : ℤ} (hm : 2 ^ 52 ≤ m) (hlt : m < 2 ^ 53) (he : -1074 ≤ e)

include hm hlt he

/-- The exponent is biased, and the highest bit of the mantissa is left out. -/
theorem pack_full (he' : e ≤ 971) (hpos : 0 < m) :
    UnpackedFloat.pack Format.binary64 (.finite sign m e hpos) = packComponents Format.binary64 sign
      (BitVec.ofNat 11 (e + 1075).toNat) (BitVec.ofNat 52 m) := by
  have hlog : m.log2 = 52 := (Nat.log2_eq_iff hpos.ne').2 ⟨hm, hlt⟩
  have hbiased : (e + (Format.binary64.exponentBias : ℤ)
      + (Format.binary64.mantissaBitsWithoutImplicit : ℤ)).toNat = (e + 1075).toNat := by
    show (e + 1023 + 52).toNat = _
    omega
  unfold UnpackedFloat.pack
  simp only [hbiased, hlog]
  rw [if_neg (by show ¬2 ^ 11 ≤ (e + 1075).toNat + 1; omega)]
  exact if_pos rfl

theorem unpack_pack (he' : e ≤ 971) (hpos : 0 < m) :
    (Float.Model.pack (.finite sign m e hpos)).unpack = .finite sign m e hpos := by
  have hexponent : (BitVec.ofNat 11 (e + 1075).toNat).toNat = (e + 1075).toNat := by
    rw [BitVec.toNat_ofNat, Nat.mod_eq_of_lt (by omega)]
  have hzero : BitVec.ofNat 11 (e + 1075).toNat ≠ 0#11 := by
    rw [Ne, ← BitVec.toNat_inj, hexponent]
    show ¬(e + 1075).toNat = 0
    omega
  have hones : BitVec.ofNat 11 (e + 1075).toNat ≠ -1#11 := by
    rw [Ne, ← BitVec.toNat_inj, hexponent]
    show ¬(e + 1075).toNat = 2047
    omega
  have hmantissa : (1#1 ++ BitVec.ofNat 52 m).toNat = m := by
    rw [BitVec.toNat_append, ← Nat.shiftLeft_add_eq_or_of_lt (BitVec.isLt _), BitVec.toNat_ofNat]
    show 1 <<< 52 + m % 2 ^ 52 = m
    rw [Nat.shiftLeft_eq]
    omega
  have hunbiased : ((BitVec.ofNat 11 (e + 1075).toNat).toNat : ℤ)
      - ((Format.binary64.exponentBias : ℤ)
        + (Format.binary64.mantissaBitsWithoutImplicit : ℤ)) = e := by
    rw [hexponent]
    show ((e + 1075).toNat : ℤ) - (1023 + 52) = e
    omega
  show UnpackedFloat.unpack Format.binary64
    (UInt64.ofBitVec (UnpackedFloat.pack Format.binary64 _)).toBitVec = _
  rw [pack_full hm hlt he he' hpos]
  unfold UnpackedFloat.unpack
  simp only [unpackExponent_packComponents, unpackMantissa_packComponents,
    unpackSign_packComponents, Sign.ofBitVec_toBitVec]
  rw [if_neg hones, if_neg hzero]
  simp only [hmantissa, hunbiased]

/-! ## Rounding what is exact -/

theorem shift_full :
    shiftToTargetExponent Format.binary64 m e .exact = (⟨m, false, false⟩, e) := by
  have hlog : m.log2 = 52 := (Nat.log2_eq_iff (by omega)).2 ⟨hm, hlt⟩
  have htarget : Format.binary64.targetExponent (totalExponent m e) = e := by
    unfold Format.targetExponent totalExponent
    rw [hlog]
    show max ((52 : ℤ) + 1 + e - 53) (-1074) = e
    omega
  unfold shiftToTargetExponent shiftToExponent
  simp only [htarget, Int.sub_self]
  exact Prod.ext rfl (Int.add_zero e)

theorem shift_double :
    shiftToTargetExponent Format.binary64 (2 * m) (e - 1) .exact = (⟨m, false, false⟩, e) := by
  have hlog : (2 * m).log2 = 53 := (Nat.log2_eq_iff (by omega)).2 ⟨by omega, by omega⟩
  have htarget : Format.binary64.targetExponent (totalExponent (2 * m) (e - 1)) = e := by
    unfold Format.targetExponent totalExponent
    rw [hlog]
    show max ((53 : ℤ) + 1 + (e - 1) - 53) (-1074) = e
    omega
  unfold shiftToTargetExponent shiftToExponent
  simp only [htarget]
  rw [show (e - (e - 1)).toNat = 1 by omega]
  refine Prod.ext ?_ (by show e - 1 + 1 = e; omega)
  show ExtendedMantissa.shiftRightOne ⟨2 * m, false, false⟩ = _
  simp [ExtendedMantissa.shiftRightOne]

/-- What is shifted to a full mantissa without a rest is not rounded. -/
theorem round_of_shift {n : ℕ} {f : ℤ} (hpos : 0 < m)
    (h : shiftToTargetExponent Format.binary64 n f .exact = (⟨m, false, false⟩, e)) :
    roundWithAccuracy Format.binary64 sign n f .exact = .finite sign m e hpos := by
  have hround : ExtendedMantissa.roundedMantissa ⟨m, false, false⟩ = m := rfl
  unfold roundWithAccuracy
  simp only [h, hround, shift_full hm hlt he, dif_neg hpos.ne']

end

/-! ## The fraction of a word -/

/-- The bits of a positive number below `2 ^ 53`, moved up until they fill a mantissa. -/
theorem full_mantissa {n : ℕ} (hn : 0 < n) (hlt : n < 2 ^ 53) :
    n.log2 ≤ 52 ∧ 2 ^ 52 ≤ n <<< (52 - n.log2) ∧ n <<< (52 - n.log2) < 2 ^ 53 := by
  have hlog : n.log2 ≤ 52 := Nat.le_of_lt_succ ((Nat.log2_lt hn.ne').2 hlt)
  have hle : 2 ^ n.log2 ≤ n := Nat.log2_self_le hn.ne'
  have hlt' : n < 2 ^ (n.log2 + 1) := Nat.lt_log2_self
  rw [Nat.shiftLeft_eq]
  refine ⟨hlog, ?_, ?_⟩
  · calc 2 ^ 52 = 2 ^ n.log2 * 2 ^ (52 - n.log2) := by rw [← Nat.pow_add]; congr 1; omega
      _ ≤ n * 2 ^ (52 - n.log2) := Nat.mul_le_mul_right _ hle
  · calc n * 2 ^ (52 - n.log2) < 2 ^ (n.log2 + 1) * 2 ^ (52 - n.log2) :=
          Nat.mul_lt_mul_of_pos_right hlt' (Nat.two_pow_pos _)
      _ = 2 ^ 53 := by rw [← Nat.pow_add]; congr 1; omega

theorem unpack_toFloat {n : UInt64} (hn : 0 < n.toNat) (hlt : n.toNat < 2 ^ 53) :
    ∃ hpos, n.toFloat.toModel.unpack
      = .finite .positive (n.toNat <<< (52 - n.toNat.log2)) (n.toNat.log2 - 52) hpos := by
  obtain ⟨hlog, hm, hm'⟩ := full_mantissa hn hlt
  have hpos := Nat.lt_of_lt_of_le (Nat.two_pow_pos 52) hm
  refine ⟨hpos, ?_⟩
  have htarget : Format.binary64.targetExponent (totalExponent n.toNat 0)
      = n.toNat.log2 - 52 := by
    unfold Format.targetExponent totalExponent
    show max ((n.toNat.log2 : ℤ) + 1 + 0 - 53) (-1074) = n.toNat.log2 - 52
    omega
  have hround : UnpackedFloat.ofUInt64 Format.binary64 n
      = .finite .positive (n.toNat <<< (52 - n.toNat.log2)) (n.toNat.log2 - 52) hpos := by
    show UnpackedFloat.normalize Format.binary64 (n.toNat : ℤ) 0 .positive = _
    unfold UnpackedFloat.normalize
    rw [Int.compare_eq_gt.2 (by omega)]
    show UnpackedFloat.round Format.binary64 .positive (n.toNat : ℤ).toNat 0 = _
    unfold UnpackedFloat.round decreaseExponent
    rw [Int.toNat_natCast]
    simp only [htarget]
    rw [show (0 - ((n.toNat.log2 : ℤ) - 52)).toNat = 52 - n.toNat.log2 by omega,
      show (0 : ℤ) - ((52 - n.toNat.log2 : ℕ) : ℤ) = n.toNat.log2 - 52 by omega]
    exact round_of_shift hm hm' (by omega) hpos (shift_full hm hm' (by omega))
  show (Float.Model.pack (UnpackedFloat.ofUInt64 Format.binary64 n)).unpack = _
  rw [hround]
  exact unpack_pack hm hm' (by omega) (by omega) hpos

/-- Dividing by `2 ^ 53` moves the exponent. -/
theorem unpack_div {x : Float} {m : ℕ} {e : ℤ} (hm : 2 ^ 52 ≤ m) (hlt : m < 2 ^ 53)
    (he : -52 ≤ e) (he' : e ≤ 0) (hpos : 0 < m)
    (hx : x.toModel.unpack = .finite .positive m e hpos) :
    (x / 9007199254740992).toModel.unpack = .finite .positive m (e - 53) hpos := by
  have hlog : m.log2 = 52 := (Nat.log2_eq_iff hpos.ne').2 ⟨hm, hlt⟩
  have hcore : divCore Format.binary64 m e (2 ^ 52) 1 = (2 * m, e - 53 - 1, .exact) := by
    have htarget : min (e - 1) (Format.binary64.targetExponent
        (totalExponent m e - totalExponent (2 ^ 52) 1)) = e - 53 - 1 := by
      unfold Format.targetExponent totalExponent
      rw [hlog]
      show min (e - 1) (max ((52 : ℤ) + 1 + e - (52 + 1 + 1) - 53) (-1074)) = e - 53 - 1
      omega
    unfold divCore
    simp only [htarget]
    rw [show (e - 1 - (e - 53 - 1)).toNat = 53 by omega, Nat.shiftLeft_eq,
      show m * 2 ^ 53 = 2 * m * 2 ^ 52 by ring, Nat.mul_div_cancel _ (Nat.two_pow_pos 52),
      Nat.mul_mod_left]
    rfl
  have hdivisor : (9007199254740992 : Float).toModel.unpack
      = .finite .positive (2 ^ 52) 1 (Nat.two_pow_pos 52) := rfl
  show (Float.Model.pack (UnpackedFloat.div Format.binary64 x.toModel.unpack
    (9007199254740992 : Float).toModel.unpack)).unpack = _
  rw [hx, hdivisor, UnpackedFloat.div, hcore]
  show (Float.Model.pack
    (roundWithAccuracy Format.binary64 .positive (2 * m) (e - 53 - 1) .exact)).unpack = _
  rw [round_of_shift hm hlt (by omega) hpos (shift_double hm hlt (by omega))]
  exact unpack_pack hm hlt (by omega) (by omega) hpos

/-- The fraction is zero, or a positive double below one. -/
theorem unpack_fraction (w : UInt64) :
    (Randomness.fraction w).toModel.unpack = .zero .positive ∨
      ∃ m e hpos, e < -52 ∧
        (Randomness.fraction w).toModel.unpack = .finite .positive m e hpos := by
  have hlt : (w >>> 11).toNat < 2 ^ 53 := by
    have hw := w.toNat_lt
    rw [UInt64.toNat_shiftRight]
    show w.toNat >>> 11 < 2 ^ 53
    rw [Nat.shiftRight_eq_div_pow]
    omega
  rcases Nat.eq_zero_or_pos (w >>> 11).toNat with hzero | hpos
  · refine .inl ?_
    have hw : w >>> 11 = 0 := UInt64.toNat_inj.1 hzero
    rw [Randomness.fraction, hw]
    rfl
  · obtain ⟨hlog, hm, hm'⟩ := full_mantissa hpos hlt
    obtain ⟨h, hunpack⟩ := unpack_toFloat hpos hlt
    exact .inr ⟨_, _, h, by omega, unpack_div hm hm' (by omega) (by omega) h hunpack⟩

/-! ## Certain coins -/

/-- One is written in one way. -/
theorem Normal.parts_of_one {b : Binary} (hb : b.Normal) (h : b.magnitude = 1) :
    b.mantissa = 2 ^ 52 ∧ b.exponent = -52 := by
  have htwo : (1 : ℚ) < 2 := by norm_num
  have hpow : (0 : ℚ) < 2 ^ b.exponent := by positivity
  have hlt : (b.mantissa : ℚ) < 2 ^ (53 : ℤ) := by exact_mod_cast hb.mantissa_lt
  rw [magnitude] at h
  have hgt : -53 < b.exponent := by
    have hone : (2 : ℚ) ^ (0 : ℤ) < 2 ^ (53 + b.exponent) := by
      rw [zpow_zero, zpow_add₀ two_ne_zero, ← h]
      exact mul_lt_mul_of_pos_right hlt hpow
    have := (zpow_lt_zpow_iff_right₀ htwo).1 hone
    omega
  have hm : 2 ^ 52 ≤ b.mantissa := hb.full.resolve_left (by omega)
  have hge : (2 : ℚ) ^ (52 : ℤ) ≤ b.mantissa := by exact_mod_cast hm
  have hle : b.exponent ≤ -52 := by
    have hone : (2 : ℚ) ^ (52 + b.exponent) ≤ 2 ^ (0 : ℤ) := by
      rw [zpow_zero, zpow_add₀ two_ne_zero, ← h]
      exact mul_le_mul_of_nonneg_right hge hpow.le
    have := (zpow_le_zpow_iff_right₀ htwo).1 hone
    omega
  have he : b.exponent = -52 := by omega
  refine ⟨?_, he⟩
  have hpower : (2 : ℚ) ^ (-52 : ℤ) * 2 ^ 52 = 1 := by norm_num
  have hq : (b.mantissa : ℚ) = 2 ^ 52 := by
    calc (b.mantissa : ℚ) = b.mantissa * 2 ^ (-52 : ℤ) * 2 ^ 52 := by
          rw [mul_assoc, hpower, mul_one]
      _ = 2 ^ 52 := by rw [← he, h, one_mul]
  exact_mod_cast hq

end Decimal.Binary

open Decimal

/-- A coin never lands in a way that has no probability. -/
theorem coinWeight_lands_ne_zero {p : Float} (hunit : 0 ≤ p ∧ p ≤ 1) (w : UInt64) :
    coinWeight p (Randomness.lands p w) ≠ 0 := by
  obtain ⟨b, hb, -, hneg⟩ := Binary.exists_of_unit hunit.1 hunit.2
  have hweight : weightOf p = b.magnitude := by
    rw [weightOf, hb]
    rfl
  have hunpack := Binary.unpack_of_ofFloat? hb
  have hfraction := Binary.unpack_fraction w
  have hlands : Randomness.lands p w = true ↔ Randomness.fraction w < p := decide_eq_true_iff
  rw [Binary.lt_iff_compare] at hlands
  unfold coinWeight
  split
  · next hl =>
      rw [hweight]
      intro hzero
      have hm : b.mantissa = 0 := by
        rcases mul_eq_zero.1 hzero with h | h
        · exact_mod_cast h
        · exact absurd h (zpow_ne_zero _ two_ne_zero)
      -- No fraction is below zero.
      rw [hlands, hunpack, dif_pos hm] at hl
      rcases hfraction with hf | ⟨m, e, h, -, hf⟩ <;> rw [hf] at hl <;> cases hl
  · next hl =>
      rw [hweight]
      intro hzero
      obtain ⟨hm, he⟩ := (Binary.normal_of_ofFloat? hb).parts_of_one (sub_eq_zero.1 hzero).symm
      have hne : b.mantissa ≠ 0 := by omega
      have hpositive : b.negative = false := by
        cases hn : b.negative with
        | true => exact absurd (hneg hn) hne
        | false => rfl
      -- Every fraction is below one.
      refine hl (hlands.2 ?_)
      rw [hunpack, dif_neg hne, hpositive]
      rcases hfraction with hf | ⟨m, e, h, hlt, hf⟩ <;> rw [hf]
      · rfl
      · rw [he]
        show (some ((compare e (-52)).then (compare m b.mantissa)) == some .lt) = true
        rw [Int.compare_eq_lt.2 hlt]
        rfl

end ChanceProof
