import ChanceProof.Proofs.Decimal.Comparison
import ChanceProof.Proofs.Sampling.Interpreter
import Mathlib.Algebra.Order.BigOperators.Group.List

/-!
# Expectations over trials

A coin lands true with exactly the probability that its double stands for, and coins are
independent. What a trial is worth on average is computed along its tree: `Trial.expect`. The mass
of a set of values is the expectation of its indicator; what a trial misses to one is the
probability of failing or of not ending within its depth.
-/

namespace ChanceProof

open Decimal (Binary)

/-- The number that a finite double from zero on stands for. -/
def weightOf (x : Float) : ℚ := ((Binary.ofFloat? x).map Binary.magnitude).getD 0

theorem weightOf_unit {x : Float} (h : 0 ≤ x ∧ x ≤ 1) : 0 ≤ weightOf x ∧ weightOf x ≤ 1 := by
  obtain ⟨b, hb, hle, -⟩ := Binary.exists_of_unit h.1 h.2
  unfold weightOf
  rw [hb, Option.map_some, Option.getD_some]
  refine ⟨?_, hle⟩
  unfold Binary.magnitude
  positivity

/-- A finite double that is not zero or less stands for a positive number. -/
theorem weightOf_pos {x : Float} (hfinite : x.isFinite = true) (hpos : ¬x ≤ 0) :
    0 < weightOf x := by
  have hmodel : x.toModel.unpack.isFinite = true := hfinite
  rw [Binary.le_iff_compare, Binary.unpack_zero] at hpos
  cases hb : Binary.ofFloat? x with
  | none =>
      rw [Binary.unpack_of_ofFloat?_none hb] at hmodel
      split at hmodel <;> cases hmodel
  | some b =>
      rw [Binary.unpack_of_ofFloat? hb] at hpos
      by_cases hm : b.mantissa = 0
      · rw [dif_pos hm] at hpos
        exact absurd rfl hpos
      · rw [weightOf, hb, Option.map_some, Option.getD_some, Binary.magnitude]
        have hmantissa : (0 : ℚ) < b.mantissa := by exact_mod_cast Nat.pos_of_ne_zero hm
        positivity

namespace Probability

/-- The probability of landing true. -/
def weight (p : Probability) : ℚ := weightOf p.value

theorem weight_nonneg (p : Probability) : 0 ≤ p.weight := (weightOf_unit p.unit).1

theorem weight_le_one (p : Probability) : p.weight ≤ 1 := (weightOf_unit p.unit).2

end Probability

namespace Trial

variable {α β : Type}

/-- The expectation of `f` over the values of a trial. Without a value there is nothing. -/
def expect : Trial α → (α → ℚ) → ℚ
  | done x, f => f x
  | fail _, _ => 0
  | unfinished, _ => 0
  | flip p next, f => p.weight * (next true).expect f + (1 - p.weight) * (next false).expect f

theorem expect_nonneg {t : Trial α} {f : α → ℚ} (h : ∀ x, 0 ≤ f x) : 0 ≤ t.expect f := by
  induction t with
  | done x => exact h x
  | fail _ => exact le_refl 0
  | unfinished => exact le_refl 0
  | flip p next ih =>
      exact add_nonneg (mul_nonneg p.weight_nonneg (ih true))
        (mul_nonneg (sub_nonneg.2 p.weight_le_one) (ih false))

theorem expect_mono {t : Trial α} {f g : α → ℚ} (h : ∀ x, f x ≤ g x) :
    t.expect f ≤ t.expect g := by
  induction t with
  | done x => exact h x
  | fail _ => exact le_refl 0
  | unfinished => exact le_refl 0
  | flip p next ih =>
      exact add_le_add (mul_le_mul_of_nonneg_left (ih true) p.weight_nonneg)
        (mul_le_mul_of_nonneg_left (ih false) (sub_nonneg.2 p.weight_le_one))

theorem expect_zero (t : Trial α) : t.expect (fun _ => 0) = 0 := by
  induction t with
  | done x => rfl
  | fail _ => rfl
  | unfinished => rfl
  | flip p next ih => rw [expect, ih, ih, mul_zero, mul_zero, add_zero]

theorem expect_add (t : Trial α) (f g : α → ℚ) :
    t.expect (fun x => f x + g x) = t.expect f + t.expect g := by
  induction t with
  | done x => rfl
  | fail _ => exact (add_zero 0).symm
  | unfinished => exact (add_zero 0).symm
  | flip p next ih =>
      rw [expect, ih, ih, expect, expect]
      ring

theorem expect_mul (t : Trial α) (f : α → ℚ) (c : ℚ) :
    t.expect (fun x => f x * c) = t.expect f * c := by
  induction t with
  | done x => rfl
  | fail _ => exact (zero_mul c).symm
  | unfinished => exact (zero_mul c).symm
  | flip p next ih =>
      rw [expect, ih, ih, expect]
      ring

theorem expect_sum {ι : Type} (t : Trial α) (is : List ι) (f : ι → α → ℚ) :
    t.expect (fun x => (is.map fun i => f i x).sum) = (is.map fun i => t.expect (f i)).sum := by
  induction is with
  | nil => exact t.expect_zero
  | cons i is ih =>
      simp only [List.map_cons, List.sum_cons]
      rw [expect_add, ih]

/-- The expectation of a trial that goes on is the expectation of how it goes on. -/
theorem expect_bind (t : Trial α) (k : α → Trial β) (f : β → ℚ) :
    (t.bind k).expect f = t.expect fun x => (k x).expect f := by
  induction t with
  | done x => rfl
  | fail _ => rfl
  | unfinished => rfl
  | flip p next ih => rw [bind, expect, ih, ih, expect]

theorem expect_le_one (t : Trial α) : t.expect (fun _ => 1) ≤ 1 := by
  induction t with
  | done x => exact le_refl 1
  | fail _ => exact zero_le_one
  | unfinished => exact zero_le_one
  | flip p next ih =>
      calc p.weight * (next true).expect (fun _ => 1)
            + (1 - p.weight) * (next false).expect (fun _ => 1)
          ≤ p.weight * 1 + (1 - p.weight) * 1 :=
            add_le_add (mul_le_mul_of_nonneg_left (ih true) p.weight_nonneg)
              (mul_le_mul_of_nonneg_left (ih false) (sub_nonneg.2 p.weight_le_one))
        _ = 1 := by ring

/-! ## Masses -/

/-- One on a set, zero elsewhere. -/
def indicator (S : α → Prop) [DecidablePred S] (x : α) : ℚ := if S x then 1 else 0

/-- The probability that a trial has a value in a set. -/
def mass (t : Trial α) (S : α → Prop) [DecidablePred S] : ℚ := t.expect (indicator S)

section

variable {S T : α → Prop} [DecidablePred S] [DecidablePred T]

theorem indicator_nonneg (x : α) : 0 ≤ indicator S x := by
  unfold indicator
  split
  · exact zero_le_one
  · exact le_refl 0

theorem indicator_le_one (x : α) : indicator S x ≤ 1 := by
  unfold indicator
  split
  · exact le_refl 1
  · exact zero_le_one

theorem indicator_mono (h : ∀ x, S x → T x) (x : α) : indicator S x ≤ indicator T x := by
  unfold indicator
  by_cases hS : S x
  · rw [if_pos hS, if_pos (h x hS)]
  · rw [if_neg hS]
    exact indicator_nonneg (S := T) x

theorem mass_nonneg (t : Trial α) : 0 ≤ t.mass S := expect_nonneg indicator_nonneg

theorem mass_le_one (t : Trial α) : t.mass S ≤ 1 :=
  (expect_mono indicator_le_one).trans t.expect_le_one

theorem mass_mono (t : Trial α) (h : ∀ x, S x → T x) : t.mass S ≤ t.mass T :=
  expect_mono (indicator_mono h)

end

/-- Different values in a set have no more mass together than the set. -/
theorem sum_mass_le [DecidableEq α] (t : Trial α) {S : α → Prop} [DecidablePred S] {xs : List α}
    (hS : ∀ x ∈ xs, S x) (hxs : xs.Pairwise (· ≠ ·)) :
    (xs.map fun x => t.mass (· = x)).sum ≤ t.mass S := by
  unfold mass
  rw [← t.expect_sum xs fun x => indicator (· = x)]
  refine expect_mono fun y => ?_
  have hcount : (xs.map fun x => indicator (· = x) y).sum = if y ∈ xs then 1 else 0 := by
    clear hS
    induction xs with
    | nil => rfl
    | cons x xs ih =>
        obtain ⟨hhead, htail⟩ := List.pairwise_cons.1 hxs
        rw [List.map_cons, List.sum_cons, ih htail, indicator]
        by_cases hyx : y = x
        · have hnot : y ∉ xs := fun hy => hhead y hy hyx.symm
          simp [hyx ▸ hnot, hyx]
        · simp [hyx]
  rw [hcount]
  unfold indicator
  by_cases hy : y ∈ xs
  · rw [if_pos hy, if_pos (hS y hy)]
  · rw [if_neg hy]
    exact indicator_nonneg (S := S) y

/-- The expectation of what is nothing but at one value. -/
theorem expect_single [DecidableEq α] (t : Trial α) {f : α → ℚ} {x : α}
    (h : ∀ y, y ≠ x → f y = 0) : t.expect f = t.mass (· = x) * f x := by
  have hf : f = fun y => indicator (· = x) y * f x := by
    funext y
    unfold indicator
    by_cases hy : y = x
    · rw [if_pos hy, one_mul, hy]
    · rw [if_neg hy, zero_mul, h y hy]
  rw [mass, ← expect_mul, ← hf]

theorem exists_of_expect_ne_zero {t : Trial α} {f : α → ℚ} (h : t.expect f ≠ 0) :
    ∃ x, f x ≠ 0 := by
  by_contra hnone
  push Not at hnone
  refine h ?_
  rw [funext hnone, expect_zero]

/-- Only values that have mass matter to an expectation. -/
theorem expect_le_of_mass [DecidableEq α] {t : Trial α} {f g : α → ℚ}
    (h : ∀ x, t.mass (· = x) ≠ 0 → f x ≤ g x) : t.expect f ≤ t.expect g := by
  induction t with
  | done x =>
      have hone : (done x).mass (· = x) = 1 := if_pos rfl
      exact h x (hone ▸ one_ne_zero)
  | fail _ => exact le_refl 0
  | unfinished => exact le_refl 0
  | flip p next ih =>
      have hscale : ∀ (b : Bool) {q : ℚ}, 0 ≤ q →
          (∀ x, 0 < q * (next b).mass (· = x) → (flip p next).mass (· = x) ≠ 0) →
          q * (next b).expect f ≤ q * (next b).expect g := by
        intro b q hq hmass
        rcases hq.eq_or_lt with rfl | hpos
        · rw [zero_mul, zero_mul]
        · refine mul_le_mul_of_nonneg_left (ih b fun x hx => h x (hmass x ?_)) hq
          exact mul_pos hpos (lt_of_le_of_ne (mass_nonneg _) hx.symm)
      refine add_le_add (hscale true p.weight_nonneg fun x hx => ?_)
        (hscale false (sub_nonneg.2 p.weight_le_one) fun x hx => ?_)
      · exact (add_pos_of_pos_of_nonneg hx
          (mul_nonneg (sub_nonneg.2 p.weight_le_one) (mass_nonneg _))).ne'
      · exact (add_pos_of_nonneg_of_pos (mul_nonneg p.weight_nonneg (mass_nonneg _)) hx).ne'

/-- A set has no more mass than the values in it that have any. -/
theorem mass_le_sum [DecidableEq α] {t : Trial α} {S : α → Prop} [DecidablePred S] (xs : List α)
    (h : ∀ x, S x → t.mass (· = x) ≠ 0 → x ∈ xs) :
    t.mass S ≤ (xs.map fun x => t.mass (· = x)).sum := by
  unfold mass
  rw [← t.expect_sum xs fun x => indicator (· = x)]
  refine expect_le_of_mass fun y hy => ?_
  have hnonneg : ∀ q ∈ xs.map fun x => indicator (· = x) y, 0 ≤ q := fun q hq => by
    obtain ⟨x, -, rfl⟩ := List.mem_map.1 hq
    exact indicator_nonneg (S := (· = x)) y
  by_cases hS : S y
  · have hone : indicator (· = y) y ∈ xs.map fun x => indicator (· = x) y :=
      List.mem_map_of_mem (f := fun x => indicator (· = x) y) (h y hS hy)
    calc indicator S y = indicator (· = y) y := by rw [indicator, indicator, if_pos hS, if_pos rfl]
      _ ≤ _ := List.single_le_sum hnonneg _ hone
  · rw [indicator, if_neg hS]
    exact List.sum_nonneg hnonneg

/-! ## Going deeper -/

/-- The trial goes at least as deep as another: they differ at most where that one did not end. -/
inductive Within : Trial α → Trial α → Prop
  | done (x : α) : Within (done x) (done x)
  | fail (f : Failure) : Within (fail f) (fail f)
  | unfinished (t : Trial α) : Within unfinished t
  | flip (p : Probability) {next next' : Bool → Trial α} (h : ∀ b, Within (next b) (next' b)) :
    Within (flip p next) (flip p next')

theorem Within.refl (t : Trial α) : t.Within t := by
  induction t with
  | done x => exact .done x
  | fail f => exact .fail f
  | unfinished => exact .unfinished _
  | flip p next ih => exact .flip p ih

theorem Within.bind {t t' : Trial α} {k k' : α → Trial β} (h : t.Within t')
    (hk : ∀ x, (k x).Within (k' x)) : (t.bind k).Within (t'.bind k') := by
  induction h with
  | done x => exact hk x
  | fail f => exact .fail f
  | unfinished t => exact .unfinished _
  | flip p _ ih => exact .flip p ih

theorem Within.expect_le {t t' : Trial α} (h : t.Within t') {f : α → ℚ} (hf : ∀ x, 0 ≤ f x) :
    t.expect f ≤ t'.expect f := by
  induction h with
  | done x => exact le_refl _
  | fail g => exact le_refl _
  | unfinished t => exact expect_nonneg hf
  | flip p _ ih =>
      exact add_le_add (mul_le_mul_of_nonneg_left (ih true) p.weight_nonneg)
        (mul_le_mul_of_nonneg_left (ih false) (sub_nonneg.2 p.weight_le_one))

end Trial

end ChanceProof
