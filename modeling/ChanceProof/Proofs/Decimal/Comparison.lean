import ChanceProof.Proofs.Decimal.Magnitude

/-!
# Comparisons of doubles are comparisons of numbers

Comparisons of doubles are computed on an unpacked form of them. `unpack_of_ofFloat?` says that
`Binary.ofFloat?` takes a finite double apart in the same way, and `unpack_of_ofFloat?_none` that
what it refuses are the infinities and the one NaN.

Two consequences matter for probabilities and for JSON values. A double from zero to one stands for
a rational number from zero to one (`exists_of_unit`), and two finite doubles compare as equal
just when they are one double or zeros of either sign (`beq_iff`).
-/

namespace ChanceProof.Decimal.Binary

open Float.Model Float.Model.UnpackedFloat

def signOf (negative : Bool) : Sign := if negative then .negative else .positive

theorem toNat_unpackExponent (x : Float) :
    (@unpackExponent Format.binary64 x.toBits.toBitVec).toNat
      = x.toBits.toNat / 2 ^ 52 % 2 ^ 11 := by
  simp [unpackExponent, BitVec.extractLsb_toNat, Nat.shiftRight_eq_div_pow]

theorem toNat_unpackMantissa (x : Float) :
    (@unpackMantissa Format.binary64 x.toBits.toBitVec).toNat
      = x.toBits.toNat % 2 ^ 52 := by
  simp [unpackMantissa, BitVec.extractLsb_toNat]

theorem ofBitVec_unpackSign (x : Float) :
    Sign.ofBitVec (@unpackSign Format.binary64 x.toBits.toBitVec)
      = signOf (x.toBits.toNat / 2 ^ 63 == 1) := by
  have hbits := x.toBits.toNat_lt
  have hnat : (@unpackSign Format.binary64 x.toBits.toBitVec).toNat
      = x.toBits.toNat / 2 ^ 63 := by
    have hbit : (@unpackSign Format.binary64 x.toBits.toBitVec).toNat
        = (x.toBits.toBitVec.extractLsb 63 63).toNat := rfl
    rw [hbit, BitVec.extractLsb_toNat, UInt64.toNat_toBitVec, Nat.shiftRight_eq_div_pow]
    omega
  by_cases h : x.toBits.toNat / 2 ^ 63 = 1
  · have hne : @unpackSign Format.binary64 x.toBits.toBitVec ≠ 0#1 := fun e => by
      rw [← BitVec.toNat_inj, hnat, h] at e
      exact absurd e (by decide)
    rw [h, Sign.ofBitVec, if_neg hne]
    rfl
  · have heq : @unpackSign Format.binary64 x.toBits.toBitVec = 0#1 := by
      rw [← BitVec.toNat_inj, hnat, BitVec.toNat_ofNat]
      omega
    have hbool : (x.toBits.toNat / 2 ^ 63 == 1) = false := beq_false_of_ne h
    rw [hbool, Sign.ofBitVec, if_pos heq]
    rfl

theorem unpack_of_ofFloat? {x : Float} {b : Binary} (h : ofFloat? x = some b) :
    x.toModel.unpack =
      if hm : b.mantissa = 0 then .zero (signOf b.negative)
      else .finite (signOf b.negative) b.mantissa b.exponent (Nat.pos_of_ne_zero hm) := by
  have hexp := toNat_unpackExponent x
  have hfrac := toNat_unpackMantissa x
  have hsign := ofBitVec_unpackSign x
  obtain ⟨hs, hcases⟩ := ofFloat?_cases h
  rw [← hs] at hsign
  have hbits : x.toModel.toBits = x.toBits := rfl
  unfold Float.Model.unpack UnpackedFloat.unpack
  rw [hbits]
  dsimp only
  rw [hsign]
  obtain ⟨hzero, hm, he, -⟩ | ⟨hzero, hfull, hm, he, -⟩ := hcases
  · have hexp0 : @unpackExponent Format.binary64 x.toBits.toBitVec = 0#_ := by
      rw [← BitVec.toNat_inj, hexp, hzero]
      rfl
    rw [if_neg (by rw [hexp0]; decide), if_pos hexp0]
    by_cases hm0 : b.mantissa = 0
    · have hf0 : @unpackMantissa Format.binary64 x.toBits.toBitVec = 0#_ := by
        rw [← BitVec.toNat_inj, hfrac, ← hm, hm0]
        rfl
      rw [dif_pos hf0, dif_pos hm0]
    · have hf0 : @unpackMantissa Format.binary64 x.toBits.toBitVec ≠ 0#_ := fun e => by
        rw [← BitVec.toNat_inj, hfrac, ← hm] at e
        exact hm0 e
      rw [dif_neg hf0, dif_neg hm0]
      congr 1
      · rw [hfrac, hm]
      · rw [hexp, hzero, he]
        rfl
  · have hexp1 : @unpackExponent Format.binary64 x.toBits.toBitVec ≠ -1#_ := fun e => by
      rw [← BitVec.toNat_inj, hexp] at e
      exact hfull e
    have hexp0 : @unpackExponent Format.binary64 x.toBits.toBitVec ≠ 0#_ := fun e => by
      rw [← BitVec.toNat_inj, hexp] at e
      exact hzero e
    rw [if_neg hexp1, if_neg hexp0, dif_neg (by omega)]
    congr 1
    · rw [BitVec.toNat_append, ← Nat.shiftLeft_add_eq_or_of_lt (BitVec.isLt _), hfrac, hm]
      rfl
    · rw [hexp, he]
      rfl

theorem unpack_of_ofFloat?_none {x : Float} (h : ofFloat? x = none) :
    x.toModel.unpack =
      if x.toBits.toNat % 2 ^ 52 = 0 then .infinity (signOf (x.toBits.toNat / 2 ^ 63 == 1))
      else .notANumber := by
  have hexp : @unpackExponent Format.binary64 x.toBits.toBitVec = -1#_ := by
    rw [← BitVec.toNat_inj, toNat_unpackExponent]
    simp only [ofFloat?] at h
    split at h
    · next hfull => exact hfull
    · split at h <;> cases h
  have hfrac : @unpackMantissa Format.binary64 x.toBits.toBitVec = 0#_
      ↔ x.toBits.toNat % 2 ^ 52 = 0 := by
    rw [← BitVec.toNat_inj, toNat_unpackMantissa]
    rfl
  have hbits : x.toModel.toBits = x.toBits := rfl
  unfold Float.Model.unpack UnpackedFloat.unpack
  rw [hbits]
  dsimp only
  rw [if_pos hexp, ofBitVec_unpackSign]
  simp only [hfrac]

/-! ## Comparisons -/

theorem le_iff_compare {x y : Float} :
    x ≤ y ↔ (x.toModel.unpack.compare y.toModel.unpack).any (·.isLE) = true :=
  decide_eq_true_iff

theorem lt_iff_compare {x y : Float} :
    x < y ↔ (x.toModel.unpack.compare y.toModel.unpack == some .lt) = true :=
  decide_eq_true_iff

theorem beq_eq_compare (x y : Float) :
    (x == y) = (x.toModel.unpack.compare y.toModel.unpack == some .eq) := rfl

theorem unpack_zero : (0 : Float).toModel.unpack = .zero .positive := rfl

theorem unpack_one : (1 : Float).toModel.unpack
    = .finite (signOf false) (2 ^ 52) (-52) (Nat.two_pow_pos 52) := rfl

section

variable {m n : ℕ} {e f : ℤ} (hm : 0 < m) (hn : 0 < n)

theorem compare_positive :
    (UnpackedFloat.finite (signOf false) m e hm).compare (.finite (signOf false) n f hn)
      = some ((compare e f).then (compare m n)) := rfl

theorem compare_negative :
    (UnpackedFloat.finite (signOf true) m e hm).compare (.finite (signOf true) n f hn)
      = some ((compare e f).then (compare m n)).swap := rfl

end

/-- A double from zero to one stands for a number from zero to one. -/
theorem exists_of_unit {p : Float} (h0 : 0 ≤ p) (h1 : p ≤ 1) :
    ∃ b, ofFloat? p = some b ∧ b.magnitude ≤ 1 ∧ (b.negative = true → b.mantissa = 0) := by
  rw [le_iff_compare, unpack_zero] at h0
  rw [le_iff_compare, unpack_one] at h1
  cases hp : ofFloat? p with
  | none =>
      rw [unpack_of_ofFloat?_none hp] at h0 h1
      split at h0
      · next hinf =>
          rw [if_pos hinf] at h1
          cases hs : signOf (p.toBits.toNat / 2 ^ 63 == 1) with
          | negative => rw [hs] at h0; cases h0
          | positive => rw [hs] at h1; cases h1
      · cases h0
  | some b =>
      refine ⟨b, rfl, ?_⟩
      rw [unpack_of_ofFloat? hp] at h0 h1
      have hn := normal_of_ofFloat? hp
      by_cases hm : b.mantissa = 0
      · exact ⟨by rw [magnitude, hm]; norm_num, fun _ => hm⟩
      · rw [dif_neg hm] at h0 h1
        cases hneg : b.negative with
        | true => rw [hneg] at h0; cases h0
        | false =>
            refine ⟨?_, fun h => absurd h Bool.false_ne_true⟩
            rw [hneg] at h1
            have hcases : b.exponent < -52 ∨ b.exponent = -52 ∧ b.mantissa ≤ 2 ^ 52 := by
              rw [compare_positive, Option.any_some] at h1
              rcases lt_trichotomy b.exponent (-52) with h | h | h
              · exact .inl h
              · refine .inr ⟨h, ?_⟩
                rw [h, Int.compare_eq_eq.2 rfl] at h1
                exact Nat.isLE_compare.1 h1
              · rw [Int.compare_eq_gt.2 h] at h1
                cases h1
            rw [magnitude]
            rcases hcases with he | ⟨he, hle⟩
            · have hlt : (b.mantissa : ℚ) ≤ 2 ^ 53 := by exact_mod_cast hn.mantissa_lt.le
              have hpow : (2 : ℚ) ^ b.exponent ≤ 2 ^ (-53 : ℤ) :=
                zpow_le_zpow_right₀ (by norm_num) (by omega)
              calc (b.mantissa : ℚ) * 2 ^ b.exponent ≤ 2 ^ 53 * 2 ^ (-53 : ℤ) :=
                    mul_le_mul hlt hpow (by positivity) (by positivity)
                _ = 1 := by norm_num
            · have hle' : (b.mantissa : ℚ) ≤ 2 ^ 52 := by exact_mod_cast hle
              rw [he]
              calc (b.mantissa : ℚ) * 2 ^ (-52 : ℤ) ≤ 2 ^ 52 * 2 ^ (-52 : ℤ) :=
                    mul_le_mul_of_nonneg_right hle' (by positivity)
                _ = 1 := by norm_num

/-- Finite doubles compare as equal when they are one double, or zeros of either sign. -/
theorem beq_iff {x y : Float} {b c : Binary} (hx : ofFloat? x = some b)
    (hy : ofFloat? y = some c) :
    (x == y) = true ↔ x = y ∨ b.mantissa = 0 ∧ c.mantissa = 0 := by
  rw [beq_eq_compare, unpack_of_ofFloat? hx, unpack_of_ofFloat? hy]
  constructor
  · intro h
    by_cases hb : b.mantissa = 0
    · by_cases hc : c.mantissa = 0
      · exact .inr ⟨hb, hc⟩
      · rw [dif_pos hb, dif_neg hc] at h
        cases hneg : c.negative <;> rw [hneg] at h <;> cases h
    · by_cases hc : c.mantissa = 0
      · rw [dif_neg hb, dif_pos hc] at h
        cases hneg : b.negative <;> rw [hneg] at h <;> cases h
      · rw [dif_neg hb, dif_neg hc] at h
        refine .inl ?_
        cases hbn : b.negative <;> cases hcn : c.negative <;> rw [hbn, hcn] at h
        · rw [compare_positive, beq_iff_eq, Option.some.injEq, Ordering.then_eq_eq,
            Int.compare_eq_eq, Nat.compare_eq_eq] at h
          exact eq_of_ofFloat? hx hy (hbn.trans hcn.symm) h.2 h.1
        · cases h
        · cases h
        · rw [compare_negative, beq_iff_eq, Option.some.injEq, Ordering.swap_eq_eq,
            Ordering.then_eq_eq, Int.compare_eq_eq, Nat.compare_eq_eq] at h
          exact eq_of_ofFloat? hx hy (hbn.trans hcn.symm) h.2 h.1
  · rintro (rfl | ⟨hb, hc⟩)
    · cases hx.symm.trans hy
      by_cases hb : b.mantissa = 0
      · rw [dif_pos hb]
        rfl
      · rw [dif_neg hb]
        cases hneg : b.negative
        · rw [compare_positive]
          simp
        · rw [compare_negative]
          simp
    · rw [dif_pos hb, dif_pos hc]
      rfl

/-! ## Doubles that are not finite -/

theorem isNaN_iff {x : Float} (h : ofFloat? x = none) :
    (x != x) = true ↔ x.toBits.toNat % 2 ^ 52 ≠ 0 := by
  rw [bne, beq_eq_compare, unpack_of_ofFloat?_none h]
  by_cases hfrac : x.toBits.toNat % 2 ^ 52 = 0
  · have hself : ∀ s,
        (!(UnpackedFloat.compare (.infinity s) (.infinity s) == some .eq)) = false := by
      intro s
      cases s <;> rfl
    rw [if_pos hfrac, hself]
    exact ⟨fun h => (nomatch h), fun h => absurd hfrac h⟩
  · rw [if_neg hfrac]
    exact ⟨fun _ => hfrac, fun _ => rfl⟩

theorem lt_zero_iff {x : Float} (h : ofFloat? x = none) (hfrac : x.toBits.toNat % 2 ^ 52 = 0) :
    x < 0 ↔ x.toBits.toNat / 2 ^ 63 = 1 := by
  rw [lt_iff_compare, unpack_of_ofFloat?_none h, if_pos hfrac, unpack_zero]
  cases hsign : (x.toBits.toNat / 2 ^ 63 == 1) with
  | true => exact ⟨fun _ => beq_iff_eq.1 hsign, fun _ => rfl⟩
  | false => exact ⟨fun h' => (nomatch h'), fun h' => absurd h' (by simpa using hsign)⟩

/-- There is one NaN. -/
theorem eq_of_isNaN {x y : Float} (hx : ofFloat? x = none) (hy : ofFloat? y = none)
    (hx' : (x != x) = true) (hy' : (y != y) = true) : x = y := by
  rw [isNaN_iff hx] at hx'
  rw [isNaN_iff hy] at hy'
  have hbits : ∀ {z : Float}, ofFloat? z = none → z.toBits.toNat % 2 ^ 52 ≠ 0 →
      z.toBits.toBitVec = packedNaN Format.binary64 := by
    intro z hz hz'
    refine z.toModel.valid.eq_packedNaN ?_ fun hzero => hz' ?_
    · rw [← BitVec.toNat_inj]
      refine (toNat_unpackExponent z).trans ?_
      simp only [ofFloat?] at hz
      split at hz
      · next hfull => exact hfull
      · split at hz <;> cases hz
    · rw [← toNat_unpackMantissa]
      exact congrArg BitVec.toNat hzero
  have heq : x.toBits = y.toBits := by
    rw [← UInt64.toBitVec_inj, hbits hx hx', hbits hy hy']
  cases x with | ofModel mx => cases y with | ofModel my =>
  cases mx
  cases my
  cases heq
  rfl

/-- There is one infinity of each sign. -/
theorem eq_of_infinite {x y : Float} (hx : ofFloat? x = none) (hy : ofFloat? y = none)
    (hx' : ¬(x != x) = true) (hy' : ¬(y != y) = true) (hlt : x < 0 ↔ y < 0) : x = y := by
  rw [isNaN_iff hx, not_not] at hx'
  rw [isNaN_iff hy, not_not] at hy'
  rw [lt_zero_iff hx hx', lt_zero_iff hy hy'] at hlt
  have hfull : ∀ {z : Float}, ofFloat? z = none →
      z.toBits.toNat / 2 ^ 52 % 2 ^ 11 = 2 ^ 11 - 1 := by
    intro z hz
    simp only [ofFloat?] at hz
    split at hz
    · next hfull => exact hfull
    · split at hz <;> cases hz
  have hxbits := x.toBits.toNat_lt
  have hybits := y.toBits.toNat_lt
  have hxfull := hfull hx
  have hyfull := hfull hy
  have heq : x.toBits = y.toBits := UInt64.toNat_inj.1 (by omega)
  cases x with | ofModel mx => cases y with | ofModel my =>
  cases mx
  cases my
  cases heq
  rfl

end ChanceProof.Decimal.Binary
