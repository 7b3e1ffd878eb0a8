import ChanceProof.Decimal.Binary

/-!
# Rounding to a decimal grid

`roundDiv` is the one rounding of this library. Fixed places, a fixed number of significant
digits and the shortest digits that read back are all a choice of grid and then a `roundDiv`.

The shortest digits are searched for grid by grid: one digit, two digits, and so on to seventeen.
On each grid only the two neighbours of the value can lie in the interval of reals that read back
as the value, so the first grid with a neighbour in the interval has the fewest digits, and of two
neighbours in it the nearer is the better one.
-/

namespace ChanceProof.Decimal

/-- Which neighbour a value exactly half way between two of them takes. -/
inductive Tie
  | toEven
  | up
deriving DecidableEq, Repr

/-- The quotient `num / den` rounded to the nearest whole number. -/
def roundDiv (tie : Tie) (num den : Nat) : Nat :=
  let q := num / den
  let r := num % den
  if 2 * r < den then q
  else if den < 2 * r then q + 1
  else match tie with
    | .toEven => if q % 2 = 0 then q else q + 1
    | .up => q + 1

/-- Rounding goes up by half a unit at most. -/
theorem den_mul_roundDiv_le (tie : Tie) (num den : Nat) :
    2 * (den * roundDiv tie num den) ≤ 2 * num + den := by
  have hdiv := Nat.div_add_mod num den
  have hsucc : den * (num / den + 1) = den * (num / den) + den := Nat.mul_succ den (num / den)
  unfold roundDiv
  simp only
  split
  · omega
  · split
    · rw [hsucc]
      omega
    · cases tie with
      | up =>
        simp only [hsucc]
        omega
      | toEven =>
        simp only
        split
        · omega
        · rw [hsucc]
          omega

/-- Rounding goes down by half a unit at most. -/
theorem num_le_den_mul_roundDiv (tie : Tie) {num den : Nat} (h : 0 < den) :
    2 * num ≤ 2 * (den * roundDiv tie num den) + den := by
  have hdiv := Nat.div_add_mod num den
  have hmod := Nat.mod_lt num h
  have hsucc : den * (num / den + 1) = den * (num / den) + den := Nat.mul_succ den (num / den)
  unfold roundDiv
  simp only
  split
  · omega
  · split
    · rw [hsucc]
      omega
    · cases tie with
      | up =>
        simp only [hsucc]
        omega
      | toEven =>
        simp only
        split
        · omega
        · rw [hsucc]
          omega

/-- A positive decimal number `coefficient · 10 ^ exponent`. -/
structure Digits where
  coefficient : Nat
  exponent : Int
deriving DecidableEq, Repr

namespace Digits

/-- The digits of the coefficient, most significant first. -/
def chars (d : Digits) : List Char := Nat.toDigits 10 d.coefficient

/-- How many places the first digit stands left of the units: `0` for `1.5`, `-3` for `0.002`. -/
def magnitude (d : Digits) : Int := (d.chars.length : Int) - 1 + d.exponent

end Digits

namespace Binary

/-- The `k` with `10 ^ (k - 1) ≤ |b| < 10 ^ k`, for a `b` that is not zero. The
digit counts of numerator and denominator fix it up to one, and a comparison decides. -/
def places (b : Binary) : Int :=
  let num := b.numerator
  let den := b.denominator
  let guess := ((Nat.toDigits 10 num).length : Int) - (Nat.toDigits 10 den).length
  if den * tenTo guess.toNat ≤ num * tenTo (-guess).toNat then guess + 1 else guess

/-- The magnitude of `b` in units of `10 ^ e`, rounded. -/
def inUnits (tie : Tie) (b : Binary) (e : Int) : Nat :=
  roundDiv tie (b.numerator * tenTo (-e).toNat) (b.denominator * tenTo e.toNat)

/-- Does `c · 10 ^ e` read back as the magnitude of `b`? It does inside the interval that ends half
way to the neighbouring doubles, and at its ends when the mantissa is even. -/
def readsBack (b : Binary) (c : Nat) (e : Int) : Bool :=
  let below := b.quarters (if b.tightBelow then -1 else -2) * tenTo (-e).toNat
  let above := b.quarters 2 * tenTo (-e).toNat
  let point := 4 * c * b.denominator * tenTo e.toNat
  if b.mantissa % 2 = 0 then below ≤ point && point ≤ above else below < point && point < above

/-- The point of the grid `10 ^ e` next to the magnitude of `b` that reads back as `b`. -/
def onGrid? (tie : Tie) (b : Binary) (e : Int) : Option Digits :=
  let low := b.numerator * tenTo (-e).toNat / (b.denominator * tenTo e.toNat)
  match b.readsBack low e, b.readsBack (low + 1) e with
  | true, true => some ⟨b.inUnits tie e, e⟩
  | true, false => some ⟨low, e⟩
  | false, true => some ⟨low + 1, e⟩
  | false, false => none

/-- The first of the grids with `k`, `k + 1`, … digits on which `b` has a point that reads back. -/
def shortestFrom (tie : Tie) (b : Binary) : (more k : Nat) → Digits
  | 0, k => ⟨b.inUnits tie (b.places - k), b.places - k⟩
  | more + 1, k => (b.onGrid? tie (b.places - k)).getD (shortestFrom tie b more (k + 1))

/-- The fewest digits that read back as the magnitude of `b`, which is not zero, and of those the
nearest. Seventeen digits always do. -/
def shortest (tie : Tie) (b : Binary) : Digits := shortestFrom tie b 16 1

/-- The magnitude of `b`, which is not zero, with `n` significant digits. -/
def significant (tie : Tie) (n : Nat) (b : Binary) : Digits :=
  ⟨b.inUnits tie (b.places - n), b.places - n⟩

end Binary

end ChanceProof.Decimal
