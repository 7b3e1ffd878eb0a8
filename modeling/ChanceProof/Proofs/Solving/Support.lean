import ChanceProof.Proofs.Solving.Monotone
import Mathlib.Algebra.BigOperators.Ring.List
import Mathlib.Algebra.Order.BigOperators.Group.List

/-!
# Impossible labels are those that cannot be derived

Which values are zero is a question of its own: a new value is zero or not by which of the values at
hand are. So a value other than zero has been derived from terms without a zero. For the converse,
a pass that settles has found no value other than zero for a label whose value was zero, as such a
rise never counts as settled. Then it has changed nothing about which values are zero, and whatever
can be derived from them is already there. This is true of every component when its turn is over,
and what it reads does not change any more, so it is true in the end (`solve_support`). How far the
other values are from a solution has no part in it.
-/

namespace ChanceProof.System

variable {α : Type} [CommSemiring α] [LinearOrder α]

/-- The label has a term whose coefficient is not zero and whose dependencies can all be derived. -/
inductive Derivable (system : System α) : Nat → Prop
  | intro {i : Nat} {t : Term α} (ht : t ∈ system[i]?.getD []) (hcoefficient : t.coefficient ≠ 0)
    (hdependencies : ∀ d ∈ t.dependencies, Derivable system d) : Derivable system i

variable [IsOrderedRing α]

theorem sum_ne_zero_iff {xs : List α} (h : ∀ x ∈ xs, 0 ≤ x) : xs.sum ≠ 0 ↔ ∃ x ∈ xs, x ≠ 0 := by
  constructor
  · intro hsum
    by_contra hzero
    push Not at hzero
    exact hsum (List.sum_eq_zero hzero)
  · rintro ⟨x, hx, hne⟩ hsum
    exact hne (le_antisymm (hsum ▸ List.single_le_sum h x hx) (h x hx))

variable [NoZeroDivisors α] [Nontrivial α] {coin : Float → Bool → α} {settled : α → α → Bool}
  {system : System α}

theorem polynomial_ne_zero_iff (hsystem : system.Nonneg) {v : Nat → α} (hv : ∀ i, 0 ≤ v i)
    (i : Nat) : system.polynomial v i ≠ 0 ↔
      ∃ t ∈ system[i]?.getD [], t.coefficient ≠ 0 ∧ ∀ d ∈ t.dependencies, v d ≠ 0 := by
  have hterm : ∀ t ∈ system[i]?.getD [], 0 ≤ t.coefficient * (t.dependencies.map v).prod := by
    refine fun t ht => mul_nonneg (hsystem.coefficient ht) (List.prod_nonneg fun y hy => ?_)
    obtain ⟨d, -, rfl⟩ := List.mem_map.1 hy
    exact hv d
  rw [polynomial, sum_ne_zero_iff (List.forall_mem_map.2 hterm)]
  simp only [List.mem_map, exists_exists_and_eq_and, mul_ne_zero_iff, Ne, List.prod_eq_zero_iff,
    not_exists, not_and]

section

variable (hsystem : system.Nonneg) {values : Array α} (h : Rising coin settled system values)

include hsystem h

/-- A new value is zero or not by which of the values are. -/
theorem Rising.newValue_ne_zero_iff (i : Nat) :
    newValue (.exact coin settled) system values i ≠ 0 ↔
      ∃ t ∈ system[i]?.getD [], t.coefficient ≠ 0 ∧
        ∀ d ∈ t.dependencies, valueAt (.exact coin settled) values d ≠ 0 := by
  rw [newValue_exact]
  exact polynomial_ne_zero_iff hsystem (fun j => (h j).1) i

theorem Rising.newValue_ne_zero_congr {values' : Array α}
    (h' : Rising coin settled system values')
    (hsame : ∀ j, valueAt (.exact coin settled) values' j ≠ 0 ↔
      valueAt (.exact coin settled) values j ≠ 0) (i : Nat) :
    newValue (.exact coin settled) system values' i ≠ 0 ↔
      newValue (.exact coin settled) system values i ≠ 0 := by
  rw [h.newValue_ne_zero_iff hsystem, h'.newValue_ne_zero_iff hsystem]
  simp only [hsame]

/-- Only labels that can be derived get a value other than zero. -/
theorem Rising.derivable_once
    (hderived : ∀ j, valueAt (.exact coin settled) values j ≠ 0 → system.Derivable j) (i j : Nat)
    (hj : valueAt (.exact coin settled) (System.once (.exact coin settled) system values i) j ≠ 0) :
    system.Derivable j := by
  rw [once_eq, valueAt_set] at hj
  split at hj
  · next hij =>
      obtain ⟨rfl, -⟩ := hij
      obtain ⟨t, ht, hcoefficient, hdependencies⟩ := (h.newValue_ne_zero_iff hsystem i).1 hj
      exact .intro ht hcoefficient fun d hd => hderived d (hdependencies d hd)
  · exact hderived j hj

omit [NoZeroDivisors α] [Nontrivial α]

theorem Rising.pass (calm : Bool) (vs : List Nat) :
    Rising coin settled system (System.pass (.exact coin settled) system calm values vs).1 := by
  rw [← foldl_grow]
  induction vs generalizing values with
  | nil => exact h
  | cons i vs ih =>
      rw [List.foldl_cons, h.grow]
      exact ih (h.once hsystem i)

end

/-! ## Passes that settle -/

/-- No value that can be derived at once from these is missing. -/
def ClosedAt (coin : Float → Bool → α) (settled : α → α → Bool) (system : System α)
    (values : Array α) (i : Nat) : Prop :=
  newValue (.exact coin settled) system values i ≠ 0 → valueAt (.exact coin settled) values i ≠ 0

section

variable (hsystem : system.Nonneg) (hsettled : ∀ x, 0 < x → settled 0 x = false)

include hsystem hsettled

omit [IsOrderedRing α] [NoZeroDivisors α] [Nontrivial α] hsystem in
/-- An evaluation that counts as settled does not change which values are zero. -/
theorem once_settled {values : Array α} (h : Rising coin settled system values) {i : Nat}
    (hi : settled (valueAt (.exact coin settled) values i)
      (newValue (.exact coin settled) system values i) = true) :
    ClosedAt coin settled system values i ∧
    ∀ j, valueAt (.exact coin settled) (once (.exact coin settled) system values i) j ≠ 0 ↔
      valueAt (.exact coin settled) values j ≠ 0 := by
  have hclosed : ClosedAt coin settled system values i := by
    intro hnew hzero
    rw [hzero, hsettled _ (lt_of_le_of_ne ((h i).1.trans (h i).2) hnew.symm)] at hi
    cases hi
  refine ⟨hclosed, fun j => ?_⟩
  rw [once_eq, valueAt_set]
  split
  · next hij =>
      obtain ⟨rfl, -⟩ := hij
      refine ⟨hclosed, fun hne => ?_⟩
      exact (lt_of_lt_of_le (lt_of_le_of_ne (h i).1 hne.symm) (h i).2).ne'
  · rfl

theorem pass_settled {calm : Bool} {values after : Array α} {vs : List Nat}
    (h : Rising coin settled system values)
    (hpass : pass (.exact coin settled) system calm values vs = (after, true)) :
    calm = true ∧
    (∀ j, valueAt (.exact coin settled) after j ≠ 0 ↔ valueAt (.exact coin settled) values j ≠ 0) ∧
    ∀ i ∈ vs, ClosedAt coin settled system after i := by
  have hafter : Rising coin settled system after := by
    have hrising := h.pass hsystem calm vs
    rwa [hpass] at hrising
  induction vs generalizing calm values with
  | nil =>
      cases hpass
      exact ⟨rfl, fun _ => Iff.rfl, fun _ hi => absurd hi List.not_mem_nil⟩
  | cons i vs ih =>
      have hrest : pass (.exact coin settled) system
          (calm && settled (valueAt (.exact coin settled) values i)
            (newValue (.exact coin settled) system values i))
          (grow (.exact coin settled) system values i) vs = (after, true) := hpass
      rw [h.grow] at hrest
      obtain ⟨hcalm, hsame, hclosed⟩ := ih (h.once hsystem i) hrest
      obtain ⟨hcalm, hi⟩ := Bool.and_eq_true_iff.1 hcalm
      obtain ⟨hclosedAt, honce⟩ := once_settled hsettled h hi
      have hall : ∀ j, valueAt (.exact coin settled) after j ≠ 0 ↔
          valueAt (.exact coin settled) values j ≠ 0 := fun j => (hsame j).trans (honce j)
      refine ⟨hcalm, hall, List.forall_mem_cons.2 ⟨fun hnew => ?_, hclosed⟩⟩
      exact (hall i).2 (hclosedAt ((h.newValue_ne_zero_congr hsystem hafter hall i).1 hnew))

theorem iterate_settled {c : List Nat} {budget : Option Nat} {limit passes n : Nat}
    {values after : Array α} (h : Rising coin settled system values)
    (hiterate : iterate (.exact coin settled) system c budget limit passes values
      = some (.ok (after, n))) : ∀ i ∈ c, ClosedAt coin settled system after i := by
  induction limit generalizing passes values with
  | zero => cases hiterate
  | succ limit ih =>
      have hrising := h.pass hsystem true c
      rw [iterate] at hiterate
      split at hiterate
      · cases hiterate
      · split at hiterate
        · next hpass =>
            cases hiterate
            exact (pass_settled hsystem hsettled h hpass).2.2
        · next hpass =>
            rw [hpass] at hrising
            exact ih hrising hiterate

end

/-! ## Whole runs -/

/-- Values that are reached rise, and those other than zero are derived. -/
theorem Linked.derivable (hsystem : system.Nonneg) {log : List (Evaluation α)} {reached : Array α}
    (h : Linked (.exact coin settled) system
      (Array.replicate system.size (Arithmetic.exact coin settled).impossible) log reached) :
    Rising coin settled system reached ∧
      ∀ j, valueAt (.exact coin settled) reached j ≠ 0 → system.Derivable j := by
  have honce : ∀ values i, (Rising coin settled system values ∧
        ∀ j, valueAt (.exact coin settled) values j ≠ 0 → system.Derivable j) →
      Rising coin settled system (once (.exact coin settled) system values i) ∧
        ∀ j, valueAt (.exact coin settled) (once (.exact coin settled) system values i) j ≠ 0 →
          system.Derivable j := fun values i h =>
    ⟨h.1.once hsystem i, fun j => h.1.derivable_once hsystem h.2 i j⟩
  exact (h.invariant honce (fun values i h => h.1.grow i ▸ honce values i h)
    ⟨rising_start coin settled hsystem system.size,
      fun j hj => absurd (valueAt_start (.exact coin settled) system.size j) hj⟩).2

section

variable (hsystem : system.Nonneg) (hsettled : ∀ x, 0 < x → settled 0 x = false) {g : Graph}
  (hg : g.Proper) (hsize : g.size = system.size)
  (hdependencies : ∀ i, ∀ t ∈ system[i]?.getD [], ∀ d ∈ t.dependencies,
    Graph.Leads g.successors i d)
  {budget : Option Nat} {limit n : Nat} {values : Array α}
  (h : solve (.exact coin settled) system g g.components budget limit = some (.ok (values, n)))

include hsystem hsettled hg hsize hdependencies h

/-- In the end no value that could be derived at once is missing. -/
theorem solve_closed {v : Nat} (hv : v < g.size) : ClosedAt coin settled system values v := by
  have hreads := readsAlong_of_dependencies (A := .exact coin settled) hdependencies
  obtain ⟨c, hc, hvc⟩ := List.mem_flatten.1 (hg.mem_components.2 hv)
  cases hrecursive : g.isRecursive c with
  | false =>
      have hnot : ¬g.Recurs v := fun hrecurs => by
        rw [(hg.isRecursive_iff hc hvc).2 hrecurs] at hrecursive
        cases hrecursive
      intro hnew
      rwa [(solve_outside hg hsize hreads h).2 v hv hnot]
  | true =>
      -- Neither the label nor what it reads has changed since its component settled.
      obtain ⟨before, after, hturn⟩ := exists_turn hg h hc
      obtain ⟨earlier, hreached⟩ := hturn.reached
      obtain ⟨passes, m, hsolves⟩ := hturn.solves
      have hfound : ∀ w, values[w]? = after[w]? →
          valueAt (.exact coin settled) values w = valueAt (.exact coin settled) after w := by
        intro w hw
        rw [valueAt, valueAt, hw]
      rw [ClosedAt, hfound v (hturn.found v hvc),
        hreads v values after fun w hlead => hfound w (hturn.reads v hvc w hlead)]
      rw [solveComponents, if_pos hrecursive] at hsolves
      split at hsolves
      · cases hsolves
      · cases hsolves
      · next hiterate =>
          cases hsolves
          exact iterate_settled hsystem hsettled (hreached.derivable hsystem).1 hiterate v hvc

/-- In exact arithmetic without negative coefficients, for which no rise from zero counts as
settled, the labels whose values are not zero in the end are those that can be derived. -/
theorem solve_support (i : Nat) :
    valueAt (.exact coin settled) values i ≠ 0 ↔ system.Derivable i := by
  obtain ⟨last, hlinked, hlast⟩ := linked_trace (.exact coin settled) system g budget limit
    g.components
  obtain rfl := hlast values n h
  obtain ⟨hrising, hderived⟩ := hlinked.derivable hsystem
  refine ⟨hderived i, fun hderivable => ?_⟩
  induction hderivable with
  | @intro i t ht hcoefficient _ ih =>
      have hi : i < g.size := by
        by_contra hnot
        rw [Array.getElem?_eq_none (by omega)] at ht
        exact absurd ht List.not_mem_nil
      exact solve_closed hsystem hsettled hg hsize hdependencies h hi
        ((hrising.newValue_ne_zero_iff hsystem i).2 ⟨t, ht, hcoefficient, ih⟩)

end

end ChanceProof.System
