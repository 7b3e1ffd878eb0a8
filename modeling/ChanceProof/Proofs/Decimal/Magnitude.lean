import ChanceProof.Decimal.Binary
import Mathlib.Algebra.Order.Field.Power
import Mathlib.Tactic.Linarith
import Mathlib.Tactic.NormNum
import Mathlib.Tactic.Ring

/-!
# Doubles and the numbers they stand for

`Binary.ofFloat?` takes a finite double apart. Nothing is lost on the way: sign, mantissa and
exponent give the double back, and they are bounded as the format says. The magnitude is the
rational number that they stand for; numerator and denominator, with which everything is computed,
are one way to write it.

The comparisons of doubles are computed on an unpacked form. `unpack_of_ofFloat?` says that it is
the same decomposition, so a comparison of doubles becomes one of mantissas and exponents.
-/

namespace ChanceProof.Decimal

theorem twoTo_eq (n : Nat) : twoTo n = 2 ^ n := rfl

theorem tenTo_eq (n : Nat) : tenTo n = 10 ^ n := rfl

/-- A power with an exponent of either sign is a quotient of two whole powers, one of them `1`. -/
theorem pow_toNat_div_pow_toNat {a : ℚ} (e : ℤ) :
    a ^ e.toNat / a ^ (-e).toNat = a ^ e := by
  rcases Int.le_total 0 e with h | h
  · obtain ⟨n, rfl⟩ := Int.eq_ofNat_of_zero_le h
    simp
  · obtain ⟨n, hn⟩ := Int.eq_ofNat_of_zero_le (show 0 ≤ -e by omega)
    obtain rfl : e = -n := by omega
    simp

namespace Binary

/-- The rational number that a finite double stands for, without its sign. -/
def magnitude (b : Binary) : ℚ := b.mantissa * 2 ^ b.exponent

theorem denominator_pos (b : Binary) : (0 : ℚ) < b.denominator := by
  simp [denominator, twoTo_eq]

theorem numerator_div_denominator (b : Binary) :
    (b.numerator : ℚ) / b.denominator = b.magnitude := by
  rw [magnitude, ← pow_toNat_div_pow_toNat b.exponent]
  simp only [numerator, denominator, twoTo_eq]
  push_cast
  ring

/-- What the format says about the parts of a double. -/
structure Normal (b : Binary) : Prop where
  mantissa_lt : b.mantissa < 2 ^ 53
  exponent_ge : -1074 ≤ b.exponent
  full : b.exponent = -1074 ∨ 2 ^ 52 ≤ b.mantissa
  tight_iff : b.tightBelow = true ↔ b.mantissa = 2 ^ 52 ∧ -1074 < b.exponent

/-- A finite double is a least-exponent fraction, or has the hidden bit on top of its fraction. -/
theorem ofFloat?_cases {x : Float} {b : Binary} (h : ofFloat? x = some b) :
    b.negative = (x.toBits.toNat / 2 ^ 63 == 1) ∧
      (x.toBits.toNat / 2 ^ 52 % 2 ^ 11 = 0 ∧ b.mantissa = x.toBits.toNat % 2 ^ 52 ∧
          b.exponent = -1074 ∧ b.tightBelow = false ∨
        x.toBits.toNat / 2 ^ 52 % 2 ^ 11 ≠ 0 ∧ x.toBits.toNat / 2 ^ 52 % 2 ^ 11 ≠ 2 ^ 11 - 1 ∧
          b.mantissa = 2 ^ 52 + x.toBits.toNat % 2 ^ 52 ∧
          b.exponent = ((x.toBits.toNat / 2 ^ 52 % 2 ^ 11 : ℕ) : ℤ) - 1075 ∧
          b.tightBelow =
            (x.toBits.toNat % 2 ^ 52 = 0 && x.toBits.toNat / 2 ^ 52 % 2 ^ 11 > 1)) := by
  simp only [ofFloat?] at h
  split at h
  · cases h
  · next hfull =>
      split at h
      · next hzero =>
          cases h
          exact ⟨rfl, .inl ⟨hzero, rfl, rfl, rfl⟩⟩
      · next hzero =>
          cases h
          exact ⟨rfl, .inr ⟨hzero, hfull, rfl, rfl, rfl⟩⟩

theorem normal_of_ofFloat? {x : Float} {b : Binary} (h : ofFloat? x = some b) : b.Normal := by
  obtain ⟨-, ⟨-, hm, he, ht⟩ | ⟨hzero, hfull, hm, he, ht⟩⟩ := ofFloat?_cases h
  · refine ⟨by omega, by omega, .inl he, ?_⟩
    rw [ht, he]
    simp
  · refine ⟨by omega, by omega, .inr (by omega), ?_⟩
    rw [ht, Bool.and_eq_true, decide_eq_true_eq, decide_eq_true_eq]
    omega

/-- The parts of a double give the double back. -/
theorem eq_of_ofFloat? {x y : Float} {b c : Binary} (hx : ofFloat? x = some b)
    (hy : ofFloat? y = some c) (hsign : b.negative = c.negative)
    (hmantissa : b.mantissa = c.mantissa) (hexponent : b.exponent = c.exponent) : x = y := by
  have hxbits := x.toBits.toNat_lt
  have hybits := y.toBits.toNat_lt
  obtain ⟨hxs, hx⟩ := ofFloat?_cases hx
  obtain ⟨hys, hy⟩ := ofFloat?_cases hy
  have htop : x.toBits.toNat / 2 ^ 63 = 1 ↔ y.toBits.toNat / 2 ^ 63 = 1 := by
    rw [hxs, hys] at hsign
    simpa using congrArg (· = true) hsign
  have hbits : x.toBits = y.toBits := UInt64.toNat_inj.1 (by omega)
  cases x with | ofModel mx => cases y with | ofModel my =>
  cases mx
  cases my
  cases hbits
  rfl

end Binary

end ChanceProof.Decimal
