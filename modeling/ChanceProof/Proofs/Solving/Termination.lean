import ChanceProof.Proofs.Solving.Bounded
import ChanceProof.Proofs.Solving.Budget
import Mathlib.Order.Monotone.Basic

/-!
# Bounded values settle

Nothing about a system tells how many passes a recursive component takes. What ends them is that
values never fall and never exceed one: of values that rise from pass to pass and stay below a
bound, all growth is tolerable in the end (`Tolerates`), so there is a pass in which no label of the
component grows by more (`exists_settles`). What the components before have left is bounded again,
so the run over all components ends (`exists_runs`).
-/

namespace ChanceProof.System

/-- Numbers that rise and stay below one grow only tolerably in the end, even from any number
between two of them on to any other. -/
def Tolerates (settled : ℚ → ℚ → Bool) : Prop :=
  ∀ x : ℕ → ℚ, Monotone x → (∀ n, 0 ≤ x n) → (∀ n, x n ≤ 1) →
    ∃ N, ∀ n, N ≤ n → ∀ present new, x n ≤ present → new ≤ x (n + 1) →
      settled present new = true

variable {settled : ℚ → ℚ → Bool} {system : System ℚ} {c : List Nat} {values : Array ℚ}

/-! ## One pass -/

theorem size_pass (calm : Bool) :
    (pass (exactArithmetic settled) system calm values c).1.size = values.size :=
  (sameOutside_pass calm values c).size

/-- A pass lowers no value. -/
theorem le_pass (calm : Bool) (j : Nat) :
    valueAt (exactArithmetic settled) values j ≤ valueAt (exactArithmetic settled)
      (pass (exactArithmetic settled) system calm values c).1 j := by
  induction c generalizing calm values with
  | nil => exact le_rfl
  | cons i rest ih =>
      refine le_trans ?_ (ih _)
      rw [valueAt_set]
      split
      · next hij => exact hij.1 ▸ le_max_left _ _
      · exact le_rfl

/-- What a label grows by when it is evaluated lies between its values before and after the pass. So
the pass settles if all of that is tolerated. -/
theorem pass_calm (hlt : ∀ i ∈ c, i < values.size)
    (h : ∀ i ∈ c, ∀ present new, valueAt (exactArithmetic settled) values i ≤ present →
      new ≤ valueAt (exactArithmetic settled)
        (pass (exactArithmetic settled) system true values c).1 i → settled present new = true) :
    (pass (exactArithmetic settled) system true values c).2 = true := by
  induction c generalizing values with
  | nil => rfl
  | cons i rest ih =>
      have hi := hlt i List.mem_cons_self
      have hkept : ∀ j, valueAt (exactArithmetic settled) values j ≤ valueAt
          (exactArithmetic settled) (values.setIfInBounds i
            (max (valueAt (exactArithmetic settled) values i)
              (newValue (exactArithmetic settled) system values i))) j :=
        le_pass (c := [i]) true
      have hnew : newValue (exactArithmetic settled) system values i ≤ valueAt
          (exactArithmetic settled) (values.setIfInBounds i
            (max (valueAt (exactArithmetic settled) values i)
              (newValue (exactArithmetic settled) system values i))) i := by
        rw [valueAt_set, if_pos ⟨rfl, hi⟩]
        exact le_max_right _ _
      have hsettled : settled (valueAt (exactArithmetic settled) values i)
          (newValue (exactArithmetic settled) system values i) = true :=
        h i List.mem_cons_self _ _ le_rfl (hnew.trans (le_pass _ i))
      -- The rest of the pass goes on from the larger value, as calm as it was.
      have hpass : pass (exactArithmetic settled) system true values (i :: rest)
          = pass (exactArithmetic settled) system true (values.setIfInBounds i
            (max (valueAt (exactArithmetic settled) values i)
              (newValue (exactArithmetic settled) system values i))) rest := by
        show pass (exactArithmetic settled) system (true && settled _ _) _ rest = _
        rw [hsettled]
        rfl
      rw [hpass] at h ⊢
      refine ih (fun j hj => ?_) fun j hj present new hpresent hnew => ?_
      · rw [Array.size_setIfInBounds]
        exact hlt j (List.mem_cons_of_mem _ hj)
      · exact h j (List.mem_cons_of_mem _ hj) present new ((hkept j).trans hpresent) hnew

/-! ## Pass after pass -/

/-- The values after one pass and another. -/
def passed (settled : ℚ → ℚ → Bool) (system : System ℚ) (c : List Nat) (values : Array ℚ)
    (n : Nat) : Array ℚ :=
  (fun v => (pass (exactArithmetic settled) system true v c).1)^[n] values

theorem passed_succ (n : Nat) : passed settled system c values (n + 1)
    = (pass (exactArithmetic settled) system true (passed settled system c values n) c).1 :=
  Function.iterate_succ_apply' _ _ _

theorem size_passed (n : Nat) : (passed settled system c values n).size = values.size := by
  induction n with
  | zero => rfl
  | succ n ih => rw [passed_succ, size_pass, ih]

/-- A pass that settles is reached, or one before it is that settles already. -/
theorem settles_of_calm {n : Nat} (h : (pass (exactArithmetic settled) system true
      (passed settled system c values n) c).2 = true) :
    ∃ m after, Settles (exactArithmetic settled) system c values m after := by
  induction n generalizing values with
  | zero => exact ⟨1, _, .last (Prod.ext rfl h)⟩
  | succ n ih =>
      rcases hpass : pass (exactArithmetic settled) system true values c with ⟨next, calm⟩
      cases calm with
      | true => exact ⟨1, next, .last hpass⟩
      | false =>
          have hnext : next = (pass (exactArithmetic settled) system true values c).1 := by
            rw [hpass]
          have hrest : (pass (exactArithmetic settled) system true
              (passed settled system c next n) c).2 = true := by
            rw [hnext]
            exact h
          obtain ⟨m, after, hsettles⟩ := ih hrest
          exact ⟨m + 1, after, .more hpass hsettles⟩

variable {bound : Nat → Nat → ℚ}

theorem passed_under (h : Ascends settled system bound) {k : Nat}
    (hv : Under settled (bound k) values) (n : Nat) :
    ∃ m, Under settled (bound m) (passed settled system c values n) := by
  induction n with
  | zero => exact ⟨k, hv⟩
  | succ n ih =>
      obtain ⟨m, hm⟩ := ih
      rw [passed_succ]
      exact pass_under h hm true c

section

variable (hsettled : Tolerates settled) (h : Ascends settled system bound)
  (hone : ∀ n i, bound n i ≤ 1)

include hsettled h hone

/-- Values below one settle in some pass. -/
theorem exists_settles {k : Nat} (hv : Under settled (bound k) values)
    (hlt : ∀ i ∈ c, i < values.size) :
    ∃ n after, Settles (exactArithmetic settled) system c values n after := by
  have hrest : ∀ i, ∃ N, ∀ n, N ≤ n → ∀ present new,
      valueAt (exactArithmetic settled) (passed settled system c values n) i ≤ present →
      new ≤ valueAt (exactArithmetic settled) (passed settled system c values (n + 1)) i →
      settled present new = true := by
    intro i
    refine hsettled _ (monotone_nat_of_le_succ fun n => ?_) (fun n => ?_) fun n => ?_
    · rw [passed_succ]
      exact le_pass true i
    · obtain ⟨m, hm⟩ := passed_under (c := c) h hv n
      exact (hm i).1
    · obtain ⟨m, hm⟩ := passed_under (c := c) h hv n
      exact (hm i).2.trans (hone m i)
  choose N hN using hrest
  -- From the last of these passes on, all labels of the component are at rest.
  obtain ⟨n, hn⟩ : ∃ n, ∀ i ∈ c, N i ≤ n :=
    ⟨(c.map N).sum, fun i hi => List.le_sum_of_mem (List.mem_map_of_mem hi)⟩
  refine settles_of_calm (n := n) (pass_calm (fun i hi => ?_) fun i hi present new hp hnew => ?_)
  · rw [size_passed]
    exact hlt i hi
  · refine hN i n (hn i hi) present new hp ?_
    rw [passed_succ]
    exact hnew

/-- So the run over all components ends, whatever its passes start from. -/
theorem exists_runs (g : Graph) {cs : List (List Nat)} {k : Nat}
    (hv : Under settled (bound k) values) (hlt : ∀ c ∈ cs, ∀ i ∈ c, i < values.size) :
    ∃ turns last, Runs (exactArithmetic settled) system g values cs turns last := by
  induction cs generalizing k values with
  | nil => exact ⟨[], values, .done values⟩
  | cons c cs ih =>
      obtain ⟨hc, hcs⟩ := List.forall_mem_cons.1 hlt
      by_cases hcyclic : g.isRecursive c = true
      · obtain ⟨n, next, hsettles⟩ := exists_settles hsettled h hone hv hc
        have hiterate : iterate (exactArithmetic settled) system c none n 0 values
            = some (.ok (next, 0 + n)) :=
          iterate_of_settles hsettles (fun k hk => absurd hk (Option.not_mem_none k)) le_rfl
        obtain ⟨m, hm⟩ := iterate_under h hv hiterate
        obtain ⟨turns, last, hruns⟩ := ih hm fun d hd i hi => by
          rw [(sameOutside_iterate hiterate).size]
          exact hcs d hd i hi
        exact ⟨(c, n) :: turns, last, .recursive hcyclic hsettles hruns⟩
      · obtain ⟨m, hm⟩ := evaluate_under h hv c
        obtain ⟨turns, last, hruns⟩ := ih hm fun d hd i hi => by
          rw [(sameOutside_evaluate values c).size]
          exact hcs d hd i hi
        exact ⟨(c, 1) :: turns, last, .once (Bool.eq_false_iff.2 hcyclic) hruns⟩

end

end ChanceProof.System
