import ChanceProof.Proofs.Solving.Trace
import Mathlib.Algebra.Order.BigOperators.Group.List
import Mathlib.Algebra.Order.BigOperators.GroupWithZero.List

/-!
# Values grow towards the least solution

Solving starts from nothing, and no equation ever takes a value back: in exact arithmetic every
value is at most what its equation makes of the values at hand, whichever of them were renewed
already in the same pass. So a new value is at least the present one, and to keep the larger of both
is to take the new one.

No value overshoots either. Numbers that their equations do not lead above themselves, as those of
any solution, bound the values of all labels at all times, and so does the least solution. Together
this is `solve_ascends`. It needs no negative coefficients, and neither components that fit the
equations nor passes that settle.
-/

namespace ChanceProof.System

section

variable {α : Type} [CommSemiring α] [LinearOrder α]

/-- The right-hand side of the equation of a label at some values. -/
def polynomial (system : System α) (v : Nat → α) (i : Nat) : α :=
  ((system[i]?.getD []).map fun t => t.coefficient * (t.dependencies.map v).prod).sum

/-- No coefficient is negative. -/
def Nonneg (system : System α) : Prop := ∀ terms ∈ system, ∀ t ∈ terms, 0 ≤ t.coefficient

variable {coin : Float → Bool → α} {settled : α → α → Bool} {system : System α}

theorem newValue_exact (values : Array α) (i : Nat) :
    newValue (.exact coin settled) system values i
      = system.polynomial (valueAt (.exact coin settled) values) i :=
  congrArg List.sum (List.map_congr_left fun t _ => termValue_exact values t)

theorem Nonneg.coefficient (h : system.Nonneg) {i : Nat} {t : Term α}
    (ht : t ∈ system[i]?.getD []) : 0 ≤ t.coefficient := by
  cases hi : system[i]? with
  | none =>
      rw [hi] at ht
      exact absurd ht List.not_mem_nil
  | some terms =>
      rw [hi] at ht
      exact h terms (Array.mem_of_getElem? hi) t ht

variable [IsOrderedRing α]

section

variable (hsystem : system.Nonneg) {v w : Nat → α} (hv : ∀ i, 0 ≤ v i)

include hsystem hv

theorem polynomial_nonneg (i : Nat) : 0 ≤ system.polynomial v i := by
  refine List.sum_nonneg fun x hx => ?_
  obtain ⟨t, ht, rfl⟩ := List.mem_map.1 hx
  refine mul_nonneg (hsystem.coefficient ht) (List.prod_nonneg fun y hy => ?_)
  obtain ⟨d, -, rfl⟩ := List.mem_map.1 hy
  exact hv d

theorem polynomial_mono (h : ∀ i, v i ≤ w i) (i : Nat) :
    system.polynomial v i ≤ system.polynomial w i := by
  refine List.sum_le_sum fun t ht => ?_
  exact mul_le_mul_of_nonneg_left (List.prod_map_le_prod_map₀ _ _ (fun d _ => hv d) fun d _ => h d)
    (hsystem.coefficient ht)

end

/-! ## Rising values -/

/-- No value is above what its equation makes of the values. -/
def Rising (coin : Float → Bool → α) (settled : α → α → Bool) (system : System α)
    (values : Array α) : Prop :=
  ∀ i, 0 ≤ valueAt (.exact coin settled) values i ∧
    valueAt (.exact coin settled) values i ≤ newValue (.exact coin settled) system values i

omit [IsOrderedRing α] in
/-- The larger value of both is the new one. -/
theorem Rising.grow {values : Array α} (h : Rising coin settled system values) (i : Nat) :
    grow (.exact coin settled) system values i = once (.exact coin settled) system values i :=
  congrArg (values.setIfInBounds i) (max_eq_right (h i).2)

theorem rising_start (coin : Float → Bool → α) (settled : α → α → Bool)
    (hsystem : system.Nonneg) (n : Nat) : Rising coin settled system
    (Array.replicate n (Arithmetic.exact coin settled).impossible) := by
  have hzero : ∀ i, 0 ≤ valueAt (.exact coin settled)
      (Array.replicate n (Arithmetic.exact coin settled).impossible) i := fun i =>
    (valueAt_start (.exact coin settled) n i).ge
  intro i
  refine ⟨hzero i, ?_⟩
  rw [newValue_exact, valueAt_start]
  exact polynomial_nonneg hsystem hzero i

section

variable (hsystem : system.Nonneg) {values : Array α} (h : Rising coin settled system values)

include hsystem h

/-- Renewing a value raises it and with it all that is made of the values. -/
theorem Rising.once (i : Nat) :
    Rising coin settled system (once (.exact coin settled) system values i) := by
  have hle : ∀ j, valueAt (.exact coin settled) values j
      ≤ valueAt (.exact coin settled) (System.once (.exact coin settled) system values i) j := by
    intro j
    rw [once_eq, valueAt_set]
    split
    · next hij => exact hij.1 ▸ (h i).2
    · exact le_refl _
  have hnew : ∀ j, newValue (.exact coin settled) system values j
      ≤ newValue (.exact coin settled) system
        (System.once (.exact coin settled) system values i) j := by
    intro j
    rw [newValue_exact, newValue_exact]
    exact polynomial_mono hsystem (fun k => (h k).1) hle j
  refine fun j => ⟨(h j).1.trans (hle j), le_trans ?_ (hnew j)⟩
  rw [once_eq, valueAt_set]
  split
  · next hij => rw [hij.1]
  · exact (h j).2

/-- Bounds that their equations do not lead above themselves bound a new value, too. -/
theorem Rising.bounded {v : Nat → α} (hv : ∀ i, system.polynomial v i ≤ v i)
    (hle : ∀ i, valueAt (.exact coin settled) values i ≤ v i) (i j : Nat) :
    valueAt (.exact coin settled) (System.once (.exact coin settled) system values i) j ≤ v j := by
  rw [once_eq, valueAt_set]
  split
  · next hij =>
      rw [← hij.1, newValue_exact]
      exact (polynomial_mono hsystem (fun k => (h k).1) hle i).trans (hv i)
  · exact hle j

end

/-! ## Whole runs -/

/-- In exact arithmetic without negative coefficients, whatever the components, the budget and the
limit are: the evaluations lead from impossible labels to the values found. None of them finds less
than the present value, so it always takes the new one, and at all times the values are at most
those of any assignment that no equation leads above itself. -/
theorem solve_ascends (coin : Float → Bool → α) (settled : α → α → Bool) {system : System α}
    (hsystem : system.Nonneg) (g : Graph) (components : List (List Nat)) (budget : Option Nat)
    (limit : Nat) :
    ∃ last, Linked (.exact coin settled) system
        (Array.replicate system.size (Arithmetic.exact coin settled).impossible)
        (trace (.exact coin settled) system g components budget limit) last ∧
      (∀ values n, solve (.exact coin settled) system g components budget limit
        = some (.ok (values, n)) → values = last) ∧
      (∀ e ∈ trace (.exact coin settled) system g components budget limit,
        valueAt (.exact coin settled) e.before e.label
            ≤ newValue (.exact coin settled) system e.before e.label ∧
          e.after = e.before.setIfInBounds e.label
            (newValue (.exact coin settled) system e.before e.label)) ∧
      ∀ v : Nat → α, (∀ i, 0 ≤ v i) → (∀ i, system.polynomial v i ≤ v i) →
        (∀ e ∈ trace (.exact coin settled) system g components budget limit, ∀ i,
          valueAt (.exact coin settled) e.before i ≤ v i ∧
            valueAt (.exact coin settled) e.after i ≤ v i) ∧
        ∀ i, valueAt (.exact coin settled) last i ≤ v i := by
  obtain ⟨last, hlinked, hlast⟩ := linked_trace (.exact coin settled) system g budget limit
    components
  have hstart := rising_start coin settled hsystem system.size
  have hkept : ∀ values i, Rising coin settled system values →
      Rising coin settled system (grow (.exact coin settled) system values i) :=
    fun values i h => h.grow i ▸ h.once hsystem i
  refine ⟨last, hlinked, hlast, fun e he => ?_, fun v hv hprefixed => ?_⟩
  · obtain ⟨hbefore, -, hstep⟩ := (hlinked.invariant (fun values i h => h.once hsystem i) hkept
      hstart).1 e he
    refine ⟨(hbefore e.label).2, ?_⟩
    rw [← once_eq]
    exact hstep.elim id fun heq => heq.trans (hbefore.grow e.label)
  -- Values that rise and are bounded stay so, whichever label is evaluated.
  · have honce : ∀ values i, (Rising coin settled system values ∧
          ∀ j, valueAt (.exact coin settled) values j ≤ v j) →
        Rising coin settled system (once (.exact coin settled) system values i) ∧
          ∀ j, valueAt (.exact coin settled) (once (.exact coin settled) system values i) j
            ≤ v j := fun values i h =>
      ⟨h.1.once hsystem i, h.1.bounded hsystem hprefixed h.2 i⟩
    obtain ⟨hall, hend⟩ := hlinked.invariant honce
      (fun values i h => h.1.grow i ▸ honce values i h)
      ⟨hstart, fun i => (valueAt_start (.exact coin settled) system.size i).trans_le (hv i)⟩
    exact ⟨fun e he i => ⟨(hall e he).1.2 i, (hall e he).2.1.2 i⟩, hend.2⟩

end

/-! ## Two labels that need each other -/

namespace entangled

def system : System ℚ := #[[⟨1 / 2, []⟩, ⟨1 / 4, [0, 1]⟩], [⟨1 / 2, [0]⟩]]

def graph : Graph := .ofEdges 2 [(0, 0), (0, 1), (1, 0)]

def settled (present new : ℚ) : Bool := new - present ≤ 1 / 16

/-- Numbers that are above those of a solution. -/
def above (i : Nat) : ℚ := if i = 0 then 3 / 4 else 1 / 2

theorem polynomial_above_le (i : Nat) : system.polynomial above i ≤ above i := by
  match i with
  | 0 => decide +kernel
  | 1 => decide +kernel
  | i + 2 =>
      have hnone : system[i + 2]? = none := Array.getElem?_eq_none (Nat.le_add_left 2 i)
      rw [polynomial, hnone, above, if_neg (by omega)]
      decide +kernel

end entangled

theorem entangled_ascends : ∃ (values : Array ℚ) (n : Nat),
    solve (.exact coinWeight entangled.settled) entangled.system entangled.graph [[0, 1]] none 5
      = some (.ok (values, n)) ∧
    (trace (.exact coinWeight entangled.settled) entangled.system entangled.graph [[0, 1]] none
      5).map (·.label) = [0, 1, 0, 1] ∧
    (∀ e ∈ trace (.exact coinWeight entangled.settled) entangled.system entangled.graph [[0, 1]]
      none 5, valueAt (.exact coinWeight entangled.settled) e.before e.label
        ≤ newValue (.exact coinWeight entangled.settled) entangled.system e.before e.label) ∧
    ∀ i, valueAt (.exact coinWeight entangled.settled) values i ≤ entangled.above i := by
  have hnonneg : entangled.system.Nonneg := by
    unfold Nonneg
    decide +kernel
  obtain ⟨last, -, hlast, hrises, hbounded⟩ := solve_ascends coinWeight entangled.settled hnonneg
    entangled.graph [[0, 1]] none 5
  have hsolve : solve (.exact coinWeight entangled.settled) entangled.system entangled.graph
      [[0, 1]] none 5 = some (.ok (#[17 / 32, 17 / 64], 2)) := by
    decide +kernel
  have habove : ∀ i, 0 ≤ entangled.above i := by
    intro i
    unfold entangled.above
    split <;> norm_num
  obtain rfl := hlast _ _ hsolve
  exact ⟨_, _, hsolve, by decide +kernel, fun e he => (hrises e he).1,
    (hbounded entangled.above habove entangled.polynomial_above_le).2⟩

end ChanceProof.System
