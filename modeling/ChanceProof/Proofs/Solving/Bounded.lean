import ChanceProof.Proofs.Probability.Truth
import ChanceProof.Solving.System

/-!
# The solver stays below

The solver only ever replaces a value by the value of an equation, or by the larger of both. So
values that start below a family of bounds, of which each equation leads from one to the next, stay
below one of the family, in whatever order components come and however often they are passed:
`solve_under`.

This is said for exact arithmetic on rationals. When values count as settled does not matter to it.
-/

namespace ChanceProof

/-- Exact arithmetic of numbers that can be added, multiplied and compared. -/
def Arithmetic.exact {α : Type} [CommSemiring α] [LinearOrder α] (coin : Float → Bool → α)
    (settled : α → α → Bool) : Arithmetic α where
  impossible := 0
  certain := 1
  times := (· * ·)
  sum := List.sum
  larger := max
  coin := coin
  settled := settled

/-- Exact probabilities. -/
abbrev exactArithmetic (settled : ℚ → ℚ → Bool) : Arithmetic ℚ := .exact coinWeight settled

namespace System

/-! ## Terms -/

section

variable {α : Type} [CommSemiring α] [LinearOrder α] {coin : Float → Bool → α}
  {settled : α → α → Bool} (values : Array α)

theorem termValue_exact (t : Term α) : termValue (.exact coin settled) values t
    = t.coefficient * (t.dependencies.map (valueAt (.exact coin settled) values)).prod := by
  unfold termValue
  generalize t.coefficient = x
  induction t.dependencies generalizing x with
  | nil => exact (mul_one x).symm
  | cons d ds ih =>
      rw [List.foldl_cons, ih, List.map_cons, List.prod_cons, ← mul_assoc]
      rfl

theorem termValue_times (t : Term α) (p : α) :
    termValue (.exact coin settled) values { t with coefficient := t.coefficient * p }
      = termValue (.exact coin settled) values t * p := by
  rw [termValue_exact, termValue_exact]
  ring

theorem termValue_depend (t : Term α) (i : Nat) :
    termValue (.exact coin settled) values { t with dependencies := t.dependencies ++ [i] }
      = termValue (.exact coin settled) values t * valueAt (.exact coin settled) values i := by
  rw [termValue_exact, termValue_exact, List.map_append, List.prod_append, List.map_singleton,
    List.prod_singleton]
  ring

theorem termValue_impossible (t : Term α) :
    termValue (.exact coin settled) values { t with coefficient := 0 } = 0 := by
  rw [termValue_exact, zero_mul]

theorem sumValue_exact (terms : List (Term α)) : sumValue (.exact coin settled) values terms
    = (terms.map (termValue (.exact coin settled) values)).sum := rfl

end

/-! ## Values below bounds -/

variable (settled : ℚ → ℚ → Bool)

/-- Every value is a number from zero to its bound. -/
def Under (bound : Nat → ℚ) (values : Array ℚ) : Prop :=
  ∀ i, 0 ≤ valueAt (exactArithmetic settled) values i ∧
    valueAt (exactArithmetic settled) values i ≤ bound i

/-- Bounds that grow, and that the equations lead up. -/
structure Ascends (system : System ℚ) (bound : Nat → Nat → ℚ) : Prop where
  mono : ∀ n i, bound n i ≤ bound (n + 1) i
  nonneg : ∀ n i, 0 ≤ bound n i
  step : ∀ n values, Under settled (bound n) values → ∀ i,
    0 ≤ newValue (exactArithmetic settled) system values i ∧
      newValue (exactArithmetic settled) system values i ≤ bound (n + 1) i

variable {settled} {system : System ℚ} {bound : Nat → Nat → ℚ}

/-- Before anything is evaluated, everything is impossible. -/
theorem valueAt_start {α : Type} (A : Arithmetic α) (n i : Nat) :
    valueAt A (Array.replicate n A.impossible) i = A.impossible := by
  unfold valueAt
  rw [Array.getElem?_replicate]
  split <;> rfl

theorem valueAt_set {α : Type} {A : Arithmetic α} (values : Array α) (i j : Nat) (x : α) :
    valueAt A (values.setIfInBounds i x) j =
      if i = j ∧ i < values.size then x else valueAt A values j := by
  unfold valueAt
  rw [Array.getElem?_setIfInBounds]
  by_cases hij : i = j
  · subst hij
    by_cases hi : i < values.size
    · simp [hi]
    · simp [hi]
  · simp [hij]

/-- A value may be replaced by anything below its next bound. -/
theorem Under.set (h : Ascends settled system bound) {n : Nat} {values : Array ℚ}
    (hv : Under settled (bound n) values) {i : Nat} {x : ℚ} (hx : 0 ≤ x ∧ x ≤ bound (n + 1) i) :
    Under settled (bound (n + 1)) (values.setIfInBounds i x) := by
  intro j
  rw [valueAt_set]
  split
  · next hij =>
      rw [← hij.1]
      exact hx
  · exact ⟨(hv j).1, (hv j).2.trans (h.mono n j)⟩

theorem evaluate_under (h : Ascends settled system bound) {n : Nat} {values : Array ℚ}
    (hv : Under settled (bound n) values) (component : List Nat) :
    ∃ m, Under settled (bound m) (evaluate (exactArithmetic settled) system values component) := by
  unfold evaluate
  induction component generalizing n values with
  | nil => exact ⟨n, hv⟩
  | cons i rest ih => exact ih (hv.set h (h.step n values hv i))

theorem pass_under (h : Ascends settled system bound) {n : Nat} {values : Array ℚ}
    (hv : Under settled (bound n) values) (calm : Bool) (component : List Nat) :
    ∃ m, Under settled (bound m)
      (pass (exactArithmetic settled) system calm values component).1 := by
  induction component generalizing n values calm with
  | nil => exact ⟨n, hv⟩
  | cons i rest ih =>
      have hnew := h.step n values hv i
      have hlarger : 0 ≤ max (valueAt (exactArithmetic settled) values i)
            (newValue (exactArithmetic settled) system values i) ∧
          max (valueAt (exactArithmetic settled) values i)
            (newValue (exactArithmetic settled) system values i) ≤ bound (n + 1) i :=
        ⟨le_max_of_le_left (hv i).1, max_le ((hv i).2.trans (h.mono n i)) hnew.2⟩
      exact ih (hv.set h hlarger) _

theorem iterate_under (h : Ascends settled system bound) {component : List Nat}
    {budget : Option Nat} {limit passes passes' n : Nat} {values values' : Array ℚ}
    (hv : Under settled (bound n) values)
    (hr : iterate (exactArithmetic settled) system component budget limit passes values
      = some (.ok (values', passes'))) : ∃ m, Under settled (bound m) values' := by
  induction limit generalizing n passes values with
  | zero => cases hr
  | succ limit ih =>
      unfold iterate at hr
      split at hr
      · cases hr
      · obtain ⟨m, hm⟩ := pass_under h hv true component
        split at hr
        · next hpass =>
            rw [hpass] at hm
            cases hr
            exact ⟨m, hm⟩
        · next hpass =>
            rw [hpass] at hm
            exact ih hm hr

theorem solveComponents_under (h : Ascends settled system bound) {g : Graph} {budget : Option Nat}
    {limit passes passes' n : Nat} {values values' : Array ℚ} {components : List (List Nat)}
    (hv : Under settled (bound n) values)
    (hr : solveComponents (exactArithmetic settled) system g budget limit passes values components
      = some (.ok (values', passes'))) : ∃ m, Under settled (bound m) values' := by
  induction components generalizing n passes values with
  | nil =>
      cases hr
      exact ⟨n, hv⟩
  | cons c rest ih =>
      unfold solveComponents at hr
      split at hr
      · split at hr
        · cases hr
        · cases hr
        · next hit =>
            obtain ⟨m, hm⟩ := iterate_under h hv hit
            exact ih hm hr
      · obtain ⟨m, hm⟩ := evaluate_under h hv c
        exact ih hm hr

/-- Whatever is solved is below one of the bounds. -/
theorem solve_under (h : Ascends settled system bound) {g : Graph} {components : List (List Nat)}
    {budget : Option Nat} {limit passes : Nat} {values : Array ℚ}
    (hr : solve (exactArithmetic settled) system g components budget limit
      = some (.ok (values, passes))) : ∃ n, Under settled (bound n) values := by
  refine solveComponents_under (n := 0) h (fun i => ?_) hr
  rw [valueAt_start]
  exact ⟨le_refl 0, h.nonneg 0 i⟩

end System

end ChanceProof
