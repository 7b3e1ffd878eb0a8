import ChanceProof.Decimal.Rounding
import ChanceProof.Proofs.Decimal.Magnitude
import Mathlib.Tactic.FieldSimp
import Mathlib.Tactic.GCongr

/-!
# The shortest digits tell doubles apart

Around every double lies the interval of numbers that read back as it. The intervals of two
doubles share no number: where they touch, one of the two mantissas is odd, and its interval leaves
the end out. The digits that `Binary.shortest` chooses stand for a number in the interval
(`covers_shortest`), so they belong to one double only (`eq_of_covers`).
-/

namespace ChanceProof.Decimal

/-- The number that decimal digits stand for. -/
def Digits.value (d : Digits) : ℚ := d.coefficient * 10 ^ d.exponent

namespace Binary

/-! ## The interval that reads back -/

/-- Quarters of the last binary place by which the interval reaches down. -/
def reach (b : Binary) : ℕ := if b.tightBelow then 1 else 2

def lowEnd (b : Binary) : ℚ := (4 * b.mantissa - b.reach) / 4 * 2 ^ b.exponent

def highEnd (b : Binary) : ℚ := (4 * b.mantissa + 2) / 4 * 2 ^ b.exponent

/-- The number reads back as the magnitude of `b`. -/
structure Covers (b : Binary) (q : ℚ) : Prop where
  low_le : b.lowEnd ≤ q
  le_high : q ≤ b.highEnd
  open_of_odd : b.mantissa % 2 = 1 → q ≠ b.lowEnd ∧ q ≠ b.highEnd

theorem Covers.of_lt {b : Binary} {q : ℚ} (hlow : b.lowEnd < q) (hhigh : q < b.highEnd) :
    b.Covers q :=
  ⟨hlow.le, hhigh.le, fun _ => ⟨hlow.ne', hhigh.ne⟩⟩

theorem quarters_div {b : Binary} {d : ℤ} (h : 0 ≤ 4 * (b.mantissa : ℤ) + d) :
    (b.quarters d : ℚ) / (4 * b.denominator) = (4 * b.mantissa + d) / 4 * 2 ^ b.exponent := by
  have hcast : (((4 * (b.mantissa : ℤ) + d).toNat : ℕ) : ℚ) = 4 * b.mantissa + d := by
    have hint : (((4 * (b.mantissa : ℤ) + d).toNat : ℕ) : ℤ) = 4 * b.mantissa + d :=
      Int.toNat_of_nonneg h
    exact_mod_cast congrArg (Int.cast (R := ℚ)) hint
  rw [← pow_toNat_div_pow_toNat b.exponent, quarters]
  push_cast
  rw [hcast, denominator, twoTo_eq, twoTo_eq]
  push_cast
  ring

/-- A fraction is compared with a decimal number by multiplying both out. -/
theorem mul_tenTo_le_iff {n c den : ℕ} {e : ℤ} (hden : (0 : ℚ) < den) :
    n * tenTo (-e).toNat ≤ 4 * c * den * tenTo e.toNat ↔
      (n : ℚ) / (4 * den) ≤ c * 10 ^ e := by
  rw [← pow_toNat_div_pow_toNat e, div_le_iff₀ (by positivity), tenTo_eq, tenTo_eq,
    ← @Nat.cast_le ℚ]
  push_cast
  rw [← le_div_iff₀ (by positivity)]
  have hcomm : (4 * (c : ℚ) * den * 10 ^ e.toNat) / 10 ^ (-e).toNat
      = c * (10 ^ e.toNat / 10 ^ (-e).toNat) * (4 * den) := by ring
  rw [hcomm]

theorem mul_tenTo_ge_iff {n c den : ℕ} {e : ℤ} (hden : (0 : ℚ) < den) :
    4 * c * den * tenTo e.toNat ≤ n * tenTo (-e).toNat ↔
      c * 10 ^ e ≤ (n : ℚ) / (4 * den) := by
  rw [← pow_toNat_div_pow_toNat e, le_div_iff₀ (by positivity), tenTo_eq, tenTo_eq,
    ← @Nat.cast_le ℚ]
  push_cast
  rw [← div_le_iff₀ (by positivity)]
  have hcomm : (4 * (c : ℚ) * den * 10 ^ e.toNat) / 10 ^ (-e).toNat
      = c * (10 ^ e.toNat / 10 ^ (-e).toNat) * (4 * den) := by ring
  rw [hcomm]

theorem quarters_low_div {b : Binary} (hpos : 0 < b.mantissa) :
    (b.quarters (if b.tightBelow then -1 else -2) : ℚ) / (4 * b.denominator) = b.lowEnd := by
  rw [quarters_div (by split <;> omega), lowEnd, reach]
  split <;> push_cast <;> ring

theorem quarters_high_div (b : Binary) :
    (b.quarters 2 : ℚ) / (4 * b.denominator) = b.highEnd := by
  rw [quarters_div (by omega), highEnd]
  push_cast
  ring

/-- What is decided on whole numbers is that the point lies in the interval. -/
theorem covers_of_readsBack {b : Binary} {c : ℕ} {e : ℤ} (hpos : 0 < b.mantissa)
    (h : b.readsBack c e = true) : b.Covers (c * 10 ^ e) := by
  have hden := b.denominator_pos
  have hlow := quarters_low_div hpos
  have hhigh := b.quarters_high_div
  unfold readsBack at h
  simp only at h
  split at h
  · next heven =>
      simp only [Bool.and_eq_true, decide_eq_true_eq] at h
      rw [mul_tenTo_le_iff hden, mul_tenTo_ge_iff hden, hlow, hhigh] at h
      exact ⟨h.1, h.2, fun hodd => by omega⟩
  · simp only [Bool.and_eq_true, decide_eq_true_eq] at h
    rw [← not_le, ← not_le, mul_tenTo_le_iff hden, mul_tenTo_ge_iff hden, hlow, hhigh, not_le,
      not_le] at h
    exact .of_lt h.1 h.2

/-! ## Two doubles share no number -/

theorem two_zpow_pos (e : ℤ) : (0 : ℚ) < 2 ^ e := by positivity

theorem reach_le_two (b : Binary) : (b.reach : ℚ) ≤ 2 := by
  unfold reach
  split <;> norm_num

/-- In quarters of the last place, an interval above the lowest exponent starts a quarter below
`2 ^ 52` or later. -/
theorem Normal.le_start {b : Binary} (hn : b.Normal) (he : -1074 < b.exponent) :
    (2 ^ 54 - 1 : ℚ) ≤ 4 * b.mantissa - b.reach := by
  by_cases htight : b.tightBelow = true
  · have hm : b.mantissa = 2 ^ 52 := (hn.tight_iff.1 htight).1
    rw [reach, if_pos htight, hm]
    norm_num
  · have hfull : 2 ^ 52 ≤ b.mantissa := by
      rcases hn.full with h | h <;> omega
    have hm : 2 ^ 52 + 1 ≤ b.mantissa := by
      rcases Nat.lt_or_ge (2 ^ 52) b.mantissa with h | h
      · omega
      · exact absurd (hn.tight_iff.2 ⟨by omega, he⟩) htight
    have hm' : (2 ^ 52 + 1 : ℚ) ≤ b.mantissa := by exact_mod_cast hm
    rw [reach, if_neg htight]
    push_cast
    linarith

/-- Of two doubles with the same exponent, the interval of the lower one ends where the other
starts or before. -/
theorem not_covers_of_mantissa_lt {b c : Binary} {q : ℚ} (hb : b.Covers q) (hc : c.Covers q)
    (hexp : b.exponent = c.exponent) (hlt : b.mantissa < c.mantissa) : False := by
  have hpow := two_zpow_pos c.exponent
  have hreach := c.reach_le_two
  have hle : (b.mantissa : ℚ) + 1 ≤ c.mantissa := by exact_mod_cast hlt
  have hends : b.highEnd ≤ c.lowEnd := by
    rw [highEnd, lowEnd, hexp]
    exact mul_le_mul_of_nonneg_right (by linarith) hpow.le
  have hqhigh : q = b.highEnd := le_antisymm hb.le_high (hends.trans hc.low_le)
  have hqlow : q = c.lowEnd := le_antisymm (hb.le_high.trans hends) hc.low_le
  -- The ends meet, so one mantissa follows the other and one of them is odd.
  have hmeet : (4 * (b.mantissa : ℚ) + 2) / 4 = (4 * c.mantissa - c.reach) / 4 := by
    refine mul_right_cancel₀ hpow.ne' ?_
    rw [highEnd, hexp] at hqhigh
    rw [← hqhigh, hqlow, lowEnd]
  have hnext : c.mantissa = b.mantissa + 1 := by
    have : (c.mantissa : ℚ) ≤ b.mantissa + 1 := by linarith
    have : c.mantissa ≤ b.mantissa + 1 := by exact_mod_cast this
    omega
  rcases Nat.mod_two_eq_zero_or_one b.mantissa with heven | hodd
  · exact (hc.open_of_odd (by omega)).1 hqlow
  · exact (hb.open_of_odd hodd).2 hqhigh

/-- Of two doubles with different exponents, the interval of the one with the smaller exponent ends
where the other starts or before. -/
theorem not_covers_of_exponent_lt {b c : Binary} {q : ℚ} (hb : b.Covers q) (hc : c.Covers q)
    (hbn : b.Normal) (hcn : c.Normal) (hlt : b.exponent < c.exponent) : False := by
  have hpow := two_zpow_pos b.exponent
  obtain ⟨k, hk⟩ := Int.eq_ofNat_of_zero_le (show 0 ≤ c.exponent - b.exponent - 1 by omega)
  have hscale : (2 : ℚ) ^ c.exponent = 2 ^ (k + 1) * 2 ^ b.exponent := by
    rw [← zpow_natCast, ← zpow_add₀ (by norm_num)]
    congr 1
    push_cast
    omega
  have htwo : (2 : ℚ) ≤ 2 ^ (k + 1) := by
    rw [pow_succ]
    have : (1 : ℚ) ≤ 2 ^ k := one_le_pow₀ (by norm_num)
    linarith
  have hstart := hcn.le_start (by
    have := hbn.exponent_ge
    omega)
  have hbm : (b.mantissa : ℚ) ≤ 2 ^ 53 - 1 := by
    have := hbn.mantissa_lt
    have hle : b.mantissa + 1 ≤ 2 ^ 53 := by omega
    have hcast : (b.mantissa : ℚ) + 1 ≤ 2 ^ 53 := by exact_mod_cast hle
    linarith
  have hlow : (2 ^ 54 - 1) / 4 * (2 * 2 ^ b.exponent) ≤ c.lowEnd := by
    rw [lowEnd, hscale]
    have h1 : (2 : ℚ) * 2 ^ b.exponent ≤ 2 ^ (k + 1) * 2 ^ b.exponent :=
      mul_le_mul_of_nonneg_right htwo hpow.le
    exact mul_le_mul (by linarith) h1 (by positivity) (by linarith)
  have hhigh : b.highEnd ≤ (2 ^ 55 - 2) / 4 * 2 ^ b.exponent := by
    rw [highEnd]
    exact mul_le_mul_of_nonneg_right (by linarith) hpow.le
  have hsame : (2 ^ 54 - 1) / 4 * (2 * (2 : ℚ) ^ b.exponent)
      = (2 ^ 55 - 2) / 4 * 2 ^ b.exponent := by
    ring
  have hqhigh : q = b.highEnd := le_antisymm hb.le_high (by linarith [hc.low_le])
  have hmantissa : (b.mantissa : ℚ) = 2 ^ 53 - 1 := by
    have h1 : (2 ^ 55 - 2) / 4 * (2 : ℚ) ^ b.exponent ≤ b.highEnd := by
      linarith [hc.low_le, hb.le_high]
    rw [highEnd] at h1
    have h2 := le_of_mul_le_mul_right h1 hpow
    linarith
  have hodd : b.mantissa = 2 ^ 53 - 1 := by
    have : ((b.mantissa + 1 : ℕ) : ℚ) = (2 ^ 53 : ℕ) := by
      push_cast
      linarith
    have : b.mantissa + 1 = 2 ^ 53 := by exact_mod_cast this
    omega
  exact (hb.open_of_odd (by omega)).2 hqhigh

/-- A number reads back as one double at most. -/
theorem eq_of_covers {b c : Binary} {q : ℚ} (hb : b.Covers q) (hc : c.Covers q)
    (hbn : b.Normal) (hcn : c.Normal) :
    b.mantissa = c.mantissa ∧ b.exponent = c.exponent := by
  rcases lt_trichotomy b.exponent c.exponent with h | h | h
  · exact (not_covers_of_exponent_lt hb hc hbn hcn h).elim
  · rcases Nat.lt_trichotomy b.mantissa c.mantissa with h' | h' | h'
    · exact (not_covers_of_mantissa_lt hb hc h h').elim
    · exact ⟨h', h⟩
    · exact (not_covers_of_mantissa_lt hc hb h.symm h').elim
  · exact (not_covers_of_exponent_lt hc hb hcn hbn h).elim

/-! ## The shortest digits lie in the interval -/

theorem pow_le_of_length_toDigits {n : ℕ} (h : 0 < n) :
    10 ^ ((Nat.toDigits 10 n).length - 1) ≤ n := by
  by_contra hlt
  have hlen : (Nat.toDigits 10 n).length ≤ (Nat.toDigits 10 n).length - 1 := by
    rcases Nat.eq_zero_or_pos ((Nat.toDigits 10 n).length - 1) with h0 | h0
    · rw [h0] at hlt
      omega
    · exact (Nat.length_toDigits_le_iff (by norm_num) h0).2 (Nat.lt_of_not_le hlt)
  have : 0 < (Nat.toDigits 10 n).length := List.length_pos_of_ne_nil Nat.toDigits_ne_nil
  omega

theorem lt_pow_length_toDigits (n : ℕ) : n < 10 ^ (Nat.toDigits 10 n).length :=
  (Nat.length_toDigits_le_iff (by norm_num)
    (List.length_pos_of_ne_nil Nat.toDigits_ne_nil)).1 le_rfl

theorem magnitude_pos {b : Binary} (h : 0 < b.mantissa) : 0 < b.magnitude := by
  have : (0 : ℚ) < b.mantissa := by exact_mod_cast h
  exact mul_pos this (two_zpow_pos _)

/-- The first digit stands at place `places` or above. -/
theorem pow_places_le {b : Binary} (hpos : 0 < b.mantissa) :
    (10 : ℚ) ^ (b.places - 1) ≤ b.magnitude := by
  have hden : 0 < b.denominator := by exact_mod_cast b.denominator_pos
  have hnum : 0 < b.numerator := Nat.mul_pos hpos (Nat.pos_of_ne_zero (by simp [twoTo_eq]))
  have hdenq := b.denominator_pos
  rw [← numerator_div_denominator]
  unfold places
  simp only
  split
  · next h =>
      rw [add_sub_cancel_right, le_div_iff₀ hdenq]
      rw [← pow_toNat_div_pow_toNat, div_mul_eq_mul_div, div_le_iff₀ (by positivity)]
      rw [tenTo_eq, tenTo_eq] at h
      rw [mul_comm]
      exact_mod_cast h
  · have hn := pow_le_of_length_toDigits hnum
    have hd := lt_pow_length_toDigits b.denominator
    have hlen : 0 < (Nat.toDigits 10 b.numerator).length :=
      List.length_pos_of_ne_nil Nat.toDigits_ne_nil
    rw [le_div_iff₀ hdenq]
    have hexp : (((Nat.toDigits 10 b.numerator).length : ℤ)
          - (Nat.toDigits 10 b.denominator).length - 1)
        = ((Nat.toDigits 10 b.numerator).length - 1 : ℕ)
          - ((Nat.toDigits 10 b.denominator).length : ℕ) := by omega
    rw [hexp, zpow_sub₀ (by norm_num), zpow_natCast, zpow_natCast]
    have hn' : (10 : ℚ) ^ ((Nat.toDigits 10 b.numerator).length - 1) ≤ b.numerator := by
      exact_mod_cast hn
    have hd' : (b.denominator : ℚ) ≤ 10 ^ (Nat.toDigits 10 b.denominator).length := by
      exact_mod_cast hd.le
    rw [div_mul_eq_mul_div, div_le_iff₀ (by positivity)]
    exact mul_le_mul hn' hd' hdenq.le (by positivity)

/-- Rounding to a grid moves by half a grid step at most. -/
theorem inUnits_near (tie : Tie) (b : Binary) (e : ℤ) :
    |(b.inUnits tie e : ℚ) * 10 ^ e - b.magnitude| ≤ 10 ^ e / 2 := by
  have hdenq := b.denominator_pos
  have hden : 0 < b.denominator * tenTo e.toNat := by
    have : 0 < b.denominator := by exact_mod_cast hdenq
    rw [tenTo_eq]
    positivity
  have hup := den_mul_roundDiv_le tie (b.numerator * tenTo (-e).toNat)
    (b.denominator * tenTo e.toNat)
  have hdown := @num_le_den_mul_roundDiv tie (b.numerator * tenTo (-e).toNat) _ hden
  rw [← inUnits] at hup hdown
  generalize b.inUnits tie e = c at hup hdown ⊢
  rw [tenTo_eq, tenTo_eq] at hup hdown
  rw [← numerator_div_denominator, ← pow_toNat_div_pow_toNat e]
  have hup' : 2 * ((b.denominator : ℚ) * 10 ^ e.toNat * c)
      ≤ 2 * (b.numerator * 10 ^ (-e).toNat) + b.denominator * 10 ^ e.toNat := by
    exact_mod_cast hup
  have hdown' : 2 * ((b.numerator : ℚ) * 10 ^ (-e).toNat)
      ≤ 2 * (b.denominator * 10 ^ e.toNat * c) + b.denominator * 10 ^ e.toNat := by
    exact_mod_cast hdown
  have hp : (0 : ℚ) < 10 ^ (-e).toNat := by positivity
  have hscale : (0 : ℚ) < b.denominator * 10 ^ (-e).toNat := by positivity
  have hdiff : (c : ℚ) * (10 ^ e.toNat / 10 ^ (-e).toNat) - b.numerator / b.denominator
      = (b.denominator * 10 ^ e.toNat * c - b.numerator * 10 ^ (-e).toNat)
        / (b.denominator * 10 ^ (-e).toNat) := by
    field_simp
  have hhalf : (10 : ℚ) ^ e.toNat / 10 ^ (-e).toNat / 2
      = (b.denominator * 10 ^ e.toNat / 2) / (b.denominator * 10 ^ (-e).toNat) := by
    field_simp
  rw [hdiff, hhalf, abs_le, ← neg_div]
  constructor
  · exact div_le_div_of_nonneg_right (by linarith) hscale.le
  · exact div_le_div_of_nonneg_right (by linarith) hscale.le

/-- What is nearer to a double than a fourth of its last place, and at most so far above, reads
back. -/
theorem covers_of_near {b : Binary} {q : ℚ} (hn : b.Normal)
    (h : |q - b.magnitude| < b.magnitude / 2 ^ 54) : b.Covers q := by
  have hpow := two_zpow_pos b.exponent
  obtain ⟨hdown, hup⟩ := abs_lt.1 h
  have hm : (b.mantissa : ℚ) < 2 ^ 53 := by exact_mod_cast hn.mantissa_lt
  have hsmall : b.magnitude / 2 ^ 54 ≤ b.reach / 4 * 2 ^ b.exponent := by
    rw [magnitude, mul_div_right_comm]
    refine mul_le_mul_of_nonneg_right ?_ hpow.le
    by_cases htight : b.tightBelow = true
    · rw [reach, if_pos htight, (hn.tight_iff.1 htight).1]
      norm_num
    · rw [reach, if_neg htight]
      push_cast
      linarith
  have hreach := b.reach_le_two
  have hlow : b.lowEnd = b.magnitude - b.reach / 4 * 2 ^ b.exponent := by
    rw [lowEnd, magnitude]
    ring
  have hhigh : b.highEnd = b.magnitude + 2 / 4 * 2 ^ b.exponent := by
    rw [highEnd, magnitude]
    ring
  have hwide : (b.reach : ℚ) / 4 * 2 ^ b.exponent ≤ 2 / 4 * 2 ^ b.exponent :=
    mul_le_mul_of_nonneg_right (by linarith) hpow.le
  exact .of_lt (by linarith) (by linarith)

theorem covers_seventeen {b : Binary} (tie : Tie) (hn : b.Normal) (hpos : 0 < b.mantissa) :
    b.Covers (b.inUnits tie (b.places - 17) * 10 ^ (b.places - 17)) := by
  refine covers_of_near hn (lt_of_le_of_lt (inUnits_near tie b _) ?_)
  have hplaces := pow_places_le hpos
  have hsplit : (10 : ℚ) ^ (b.places - 17) = 10 ^ (b.places - 1) / 10 ^ 16 := by
    rw [← zpow_natCast, ← zpow_sub₀ (by norm_num)]
    congr 1
    push_cast
    ring
  have hmag := magnitude_pos hpos
  calc (10 : ℚ) ^ (b.places - 17) / 2 ≤ b.magnitude / 10 ^ 16 / 2 := by
        rw [hsplit]
        gcongr
    _ < b.magnitude / 2 ^ 54 := by
        rw [div_div]
        exact div_lt_div_of_pos_left hmag (by norm_num) (by norm_num)

theorem inUnits_eq_or (tie : Tie) (b : Binary) (e : ℤ) :
    b.inUnits tie e = b.numerator * tenTo (-e).toNat / (b.denominator * tenTo e.toNat) ∨
      b.inUnits tie e = b.numerator * tenTo (-e).toNat / (b.denominator * tenTo e.toNat) + 1 := by
  unfold inUnits roundDiv
  simp only
  split
  · exact .inl rfl
  · split
    · exact .inr rfl
    · cases tie with
      | up => exact .inr rfl
      | toEven =>
          simp only
          split
          · exact .inl rfl
          · exact .inr rfl

theorem covers_of_onGrid? {b : Binary} {tie : Tie} {e : ℤ} {d : Digits} (hpos : 0 < b.mantissa)
    (h : b.onGrid? tie e = some d) : b.Covers d.value := by
  unfold onGrid? at h
  simp only at h
  split at h
  · next hlow hhigh =>
      cases h
      rcases inUnits_eq_or tie b e with heq | heq
      · rw [Digits.value, heq]
        exact covers_of_readsBack hpos hlow
      · rw [Digits.value, heq]
        exact covers_of_readsBack hpos hhigh
  · next hlow _ =>
      cases h
      exact covers_of_readsBack hpos hlow
  · next _ hhigh =>
      cases h
      exact covers_of_readsBack hpos hhigh
  · cases h

theorem covers_shortestFrom {b : Binary} (tie : Tie) (hn : b.Normal) (hpos : 0 < b.mantissa)
    (more k : ℕ) (hk : more + k = 17) : b.Covers (b.shortestFrom tie more k).value := by
  induction more generalizing k with
  | zero =>
      obtain rfl : k = 17 := by omega
      exact covers_seventeen tie hn hpos
  | succ more ih =>
      rw [shortestFrom]
      cases hgrid : b.onGrid? tie (b.places - k) with
      | some d => exact covers_of_onGrid? hpos hgrid
      | none => exact ih (k + 1) (by omega)

theorem covers_shortest {b : Binary} (tie : Tie) (hn : b.Normal) (hpos : 0 < b.mantissa) :
    b.Covers (b.shortest tie).value :=
  covers_shortestFrom tie hn hpos 16 1 rfl

end Binary

end ChanceProof.Decimal
