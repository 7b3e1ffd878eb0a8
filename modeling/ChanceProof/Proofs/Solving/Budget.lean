import ChanceProof.Proofs.Solving.Outside
import ChanceProof.Solving.Limit

/-!
# A budget only truncates

Without a budget a recursive component is passed until a pass settles (`Settles`), and components
are solved one after another, each from what those before it have left (`Runs`). This is what the
solver does under a large enough limit (`solve_iff_runs`), and it may go on for ever.

A budget changes none of the passes that are made. Where all recursive components stay within it,
the answer is that of the run without a budget, passes counted alike (`solve_of_runs`). Otherwise
there is a first component that needs more passes, and the solver stops there when the budget is
used up, having made exactly so many passes over it (`solve_of_overruns`).
-/

namespace ChanceProof.System

variable {α : Type}

section

variable (A : Arithmetic α) (system : System α)

/-- From these values the first pass over the component that settles has this number, and leaves
these values. -/
inductive Settles (c : List Nat) : Array α → Nat → Array α → Prop
  | last {values after : Array α} (calm : pass A system true values c = (after, true)) :
    Settles c values 1 after
  | more {values next after : Array α} {n : Nat}
    (grew : pass A system true values c = (next, false)) (rest : Settles c next n after) :
    Settles c values (n + 1) after

variable (g : Graph)

/-- The run over components without a budget: how many passes each of them takes, and the values in
the end. -/
inductive Runs : Array α → List (List Nat) → List (List Nat × Nat) → Array α → Prop
  | done (values : Array α) : Runs values [] [] values
  | once {values last : Array α} {c : List Nat} {cs : List (List Nat)}
    {turns : List (List Nat × Nat)} (single : g.isRecursive c = false)
    (rest : Runs (evaluate A system values c) cs turns last) :
    Runs values (c :: cs) ((c, 1) :: turns) last
  | recursive {values next last : Array α} {c : List Nat} {n : Nat} {cs : List (List Nat)}
    {turns : List (List Nat × Nat)} (cyclic : g.isRecursive c = true)
    (settles : Settles A system c values n next) (rest : Runs next cs turns last) :
    Runs values (c :: cs) ((c, n) :: turns) last

end

/-- All passes of a run. -/
def totalPasses (turns : List (List Nat × Nat)) : Nat := (turns.map (·.2)).sum

/-- No recursive component takes more passes than this. -/
def Within (g : Graph) (k : Nat) (turns : List (List Nat × Nat)) : Prop :=
  ∀ t ∈ turns, g.isRecursive t.1 = true → t.2 ≤ k

instance (g : Graph) (k : Nat) (turns : List (List Nat × Nat)) : Decidable (Within g k turns) :=
  inferInstanceAs (Decidable (∀ t ∈ turns, g.isRecursive t.1 = true → t.2 ≤ k))

theorem Within.mono {g : Graph} {k k' : Nat} {turns : List (List Nat × Nat)}
    (h : Within g k turns) (hle : k ≤ k') : Within g k' turns :=
  fun t ht hrecursive => (h t ht hrecursive).trans hle

theorem Within.tail {g : Graph} {k : Nat} {t : List Nat × Nat} {turns : List (List Nat × Nat)}
    (h : Within g k (t :: turns)) : Within g k turns :=
  fun t' ht' => h t' (List.mem_cons_of_mem _ ht')

/-- Behind components that stay within the budget, this recursive component takes more passes than
that, if it ever settles. -/
def Overruns (A : Arithmetic α) (system : System α) (g : Graph) (k : Nat) (values : Array α)
    (cs : List (List Nat)) (c : List Nat) : Prop :=
  ∃ (before after : List (List Nat)) (turns : List (List Nat × Nat)) (mid : Array α),
    cs = before ++ c :: after ∧ Runs A system g values before turns mid ∧ Within g k turns ∧
      g.isRecursive c = true ∧ ∀ n last, Settles A system c mid n last → k < n

variable {A : Arithmetic α} {system : System α} {g : Graph} {values : Array α} {c : List Nat}
  {budget : Option Nat} {limit passes : Nat}

/-! ## Turns -/

section

variable {cs : List (List Nat)} {turns : List (List Nat × Nat)} {last : Array α}
  (h : Runs A system g values cs turns last)

include h

/-- In a run each component has its turn. -/
theorem Runs.components : turns.map Prod.fst = cs := by
  induction h with
  | done => rfl
  | once _ _ ih => rw [List.map_cons, ih]
  | recursive _ _ _ ih => rw [List.map_cons, ih]

/-- A component without recursion is passed once. -/
theorem Runs.passed_once {t : List Nat × Nat} (ht : t ∈ turns)
    (hsingle : g.isRecursive t.1 = false) : t.2 = 1 := by
  induction h with
  | done => exact absurd ht List.not_mem_nil
  | once _ _ ih =>
      rcases List.mem_cons.1 ht with rfl | ht
      · rfl
      · exact ih ht
  | recursive hcyclic _ _ ih =>
      rcases List.mem_cons.1 ht with rfl | ht
      · exact absurd hcyclic (Bool.eq_false_iff.1 hsingle)
      · exact ih ht

end

/-! ## One component -/

theorem used_up_iff : budget.any (· ≤ passes) = true ↔ ∃ k ∈ budget, k ≤ passes := by
  cases budget <;> simp

theorem not_used_up_iff : ¬budget.any (· ≤ passes) = true ↔ ∀ k ∈ budget, passes < k := by
  rw [used_up_iff]
  push Not
  rfl

theorem iterate_of_settles {n : Nat} {after : Array α} (h : Settles A system c values n after)
    (hbudget : ∀ k ∈ budget, passes + n ≤ k) (hlimit : n ≤ limit) :
    iterate A system c budget limit passes values = some (.ok (after, passes + n)) := by
  induction h generalizing limit passes with
  | last hcalm =>
      have hgoes := not_used_up_iff.2 hbudget
      obtain ⟨limit, rfl⟩ : ∃ m, limit = m + 1 := ⟨limit - 1, by omega⟩
      rw [iterate, if_neg hgoes, hcalm]
  | @more values next after n hgrew _ ih =>
      have hgoes : ¬budget.any (· ≤ passes) = true :=
        not_used_up_iff.2 fun k hk => by have := hbudget k hk; omega
      obtain ⟨limit, rfl⟩ : ∃ m, limit = m + 1 := ⟨limit - 1, by omega⟩
      have hrest : iterate A system c budget limit (passes + 1) next
          = some (.ok (after, passes + 1 + n)) :=
        ih (fun k hk => by have := hbudget k hk; omega) (by omega)
      rw [iterate, if_neg hgoes, hgrew]
      simp only
      rw [hrest, Nat.add_assoc, Nat.add_comm 1 n]

theorem settles_of_iterate {m : Nat} {after : Array α}
    (h : iterate A system c budget limit passes values = some (.ok (after, m))) :
    ∃ n, Settles A system c values n after ∧ m = passes + n ∧ n ≤ limit ∧
      ∀ k ∈ budget, m ≤ k := by
  induction limit generalizing passes values with
  | zero => cases h
  | succ limit ih =>
      rw [iterate] at h
      split at h
      · cases h
      · next hgoes =>
          split at h
          · next hcalm =>
              cases h
              exact ⟨1, .last hcalm, rfl, by omega, not_used_up_iff.1 hgoes⟩
          · next hgrew =>
              obtain ⟨n, hsettles, rfl, hle, hbudget⟩ := ih h
              exact ⟨n + 1, .more hgrew hsettles, by omega, by omega, hbudget⟩

/-- A component that needs more passes uses the budget up, to the last pass. -/
theorem iterate_of_overrun {k : Nat}
    (h : ∀ n last, Settles A system c values n last → k < passes + n) (hle : passes ≤ k)
    (hlimit : k < passes + limit) :
    iterate A system c (some k) limit passes values = some (.error k) := by
  induction limit generalizing passes values with
  | zero => omega
  | succ limit ih =>
      rw [iterate]
      split
      · next hused =>
          obtain ⟨k', hk', hle'⟩ := used_up_iff.1 hused
          cases hk'
          rw [Nat.le_antisymm hle hle']
      · next hgoes =>
          have hlt := not_used_up_iff.1 hgoes k rfl
          split
          · next last hcalm =>
              have := h 1 last (.last hcalm)
              omega
          · next next hgrew =>
              refine ih (fun n last hsettles => ?_) hlt (by omega)
              have := h (n + 1) last (.more hgrew hsettles)
              omega

/-! ## One component after another -/

theorem solveComponents_of_runs {cs : List (List Nat)} {turns : List (List Nat × Nat)}
    {last : Array α} (h : Runs A system g values cs turns last)
    (hbudget : ∀ k ∈ budget, Within g k turns) (hlimit : Within g limit turns) :
    solveComponents A system g budget limit passes values cs
      = some (.ok (last, passes + totalPasses turns)) := by
  have htotal : ∀ (p n : Nat) (c : List Nat) (turns : List (List Nat × Nat)),
      p + n + totalPasses turns = p + totalPasses ((c, n) :: turns) := by
    intro p n c turns
    rw [totalPasses, totalPasses, List.map_cons, List.sum_cons, Nat.add_assoc]
  induction h generalizing passes with
  | done => rfl
  | @once values last c cs turns hsingle _ ih =>
      rw [solveComponents, if_neg (Bool.eq_false_iff.1 hsingle),
        ih (fun k hk => (hbudget k hk).tail) hlimit.tail, htotal]
  | @recursive values next last c n cs turns hcyclic hsettles _ ih =>
      have hiterate : iterate A system c budget limit 0 values = some (.ok (next, 0 + n)) :=
        iterate_of_settles hsettles
          (fun k hk => by
            rw [Nat.zero_add]
            exact hbudget k hk _ List.mem_cons_self hcyclic)
          (hlimit _ List.mem_cons_self hcyclic)
      rw [Nat.zero_add] at hiterate
      rw [solveComponents, if_pos hcyclic, hiterate]
      simp only
      rw [ih (fun k hk => (hbudget k hk).tail) hlimit.tail, htotal]

theorem runs_of_solveComponents {cs : List (List Nat)} {m : Nat} {last : Array α}
    (h : solveComponents A system g budget limit passes values cs = some (.ok (last, m))) :
    ∃ turns, Runs A system g values cs turns last ∧ m = passes + totalPasses turns ∧
      Within g limit turns ∧ ∀ k ∈ budget, Within g k turns := by
  induction cs generalizing passes values with
  | nil =>
      cases h
      exact ⟨[], .done _, rfl, fun _ ht => absurd ht List.not_mem_nil,
        fun _ _ _ ht => absurd ht List.not_mem_nil⟩
  | cons c cs ih =>
      rw [solveComponents] at h
      split at h
      · next hcyclic =>
          split at h
          · cases h
          · cases h
          · next next n hiterate =>
              obtain ⟨n', hsettles, rfl, hle, hk⟩ := settles_of_iterate hiterate
              rw [Nat.zero_add] at h hk
              obtain ⟨turns, hruns, rfl, hlimit, hbudget⟩ := ih h
              refine ⟨(c, n') :: turns, .recursive hcyclic hsettles hruns, ?_, ?_, ?_⟩
              · rw [totalPasses, totalPasses, List.map_cons, List.sum_cons, Nat.add_assoc]
              · exact List.forall_mem_cons.2 ⟨fun _ => hle, hlimit⟩
              · exact fun k hmem => List.forall_mem_cons.2 ⟨fun _ => hk k hmem, hbudget k hmem⟩
      · next hsingle =>
          obtain ⟨turns, hruns, rfl, hlimit, hbudget⟩ := ih h
          refine ⟨(c, 1) :: turns, .once (Bool.eq_false_iff.2 hsingle) hruns, ?_, ?_, ?_⟩
          · rw [totalPasses, totalPasses, List.map_cons, List.sum_cons, Nat.add_assoc]
          · exact List.forall_mem_cons.2 ⟨fun hcyclic => absurd hcyclic hsingle, hlimit⟩
          · exact fun k hmem => List.forall_mem_cons.2
              ⟨fun hcyclic => absurd hcyclic hsingle, hbudget k hmem⟩

/-- Either all recursive components stay within the budget, or one of them is the first that does
not. -/
theorem runs_or_overruns (k : Nat) (values : Array α) (cs : List (List Nat)) :
    (∃ turns last, Runs A system g values cs turns last ∧ Within g k turns) ∨
      ∃ c, Overruns A system g k values cs c := by
  induction cs generalizing values with
  | nil => exact .inl ⟨[], values, .done values, fun _ ht => absurd ht List.not_mem_nil⟩
  | cons c cs ih =>
      by_cases hcyclic : g.isRecursive c = true
      · by_cases hsettles : ∃ n next, Settles A system c values n next ∧ n ≤ k
        · obtain ⟨n, next, hsettles, hle⟩ := hsettles
          rcases ih next with ⟨turns, last, hruns, hwithin⟩ |
            ⟨d, before, after, turns, mid, rfl, hruns, hwithin, hoverruns⟩
          · exact .inl ⟨(c, n) :: turns, last, .recursive hcyclic hsettles hruns,
              List.forall_mem_cons.2 ⟨fun _ => hle, hwithin⟩⟩
          · exact .inr ⟨d, c :: before, after, (c, n) :: turns, mid, rfl,
              .recursive hcyclic hsettles hruns,
              List.forall_mem_cons.2 ⟨fun _ => hle, hwithin⟩, hoverruns⟩
        · refine .inr ⟨c, [], cs, [], values, rfl, .done values,
            fun _ ht => absurd ht List.not_mem_nil, hcyclic, fun n next h => ?_⟩
          by_contra hle
          exact hsettles ⟨n, next, h, by omega⟩
      · have hsingle := Bool.eq_false_iff.2 hcyclic
        rcases ih (evaluate A system values c) with ⟨turns, last, hruns, hwithin⟩ |
          ⟨d, before, after, turns, mid, rfl, hruns, hwithin, hoverruns⟩
        · exact .inl ⟨(c, 1) :: turns, last, .once hsingle hruns,
            List.forall_mem_cons.2 ⟨fun h => absurd h hcyclic, hwithin⟩⟩
        · exact .inr ⟨d, c :: before, after, (c, 1) :: turns, mid, rfl, .once hsingle hruns,
            List.forall_mem_cons.2 ⟨fun h => absurd h hcyclic, hwithin⟩, hoverruns⟩

theorem solveComponents_of_overruns {k : Nat} {cs : List (List Nat)}
    (h : Overruns A system g k values cs c) (hlimit : k < limit) :
    solveComponents A system g (some k) limit passes values cs = some (.error ⟨c, k⟩) := by
  obtain ⟨before, after, turns, mid, rfl, hruns, hwithin, hcyclic, hoverruns⟩ := h
  have hbudget : ∀ k' ∈ some k, Within g k' turns := fun k' hk' => by
    cases hk'
    exact hwithin
  rw [solveComponents_append,
    solveComponents_of_runs hruns hbudget (hwithin.mono (Nat.le_of_lt hlimit))]
  simp only
  have hiterate : iterate A system c (some k) limit 0 mid = some (.error k) := by
    refine iterate_of_overrun (fun n last hsettles => ?_) (Nat.zero_le k) (by omega)
    rw [Nat.zero_add]
    exact hoverruns n last hsettles
  rw [solveComponents, if_pos hcyclic, hiterate]

/-! ## Whole runs -/

section

variable {components : List (List Nat)} {turns : List (List Nat × Nat)} {last : Array α}

/-- An answer within a budget is the answer of a run that stays within it. -/
theorem runs_of_solve {n : Nat} (h : solve A system g components budget limit
      = some (.ok (last, n))) :
    ∃ turns, Runs A system g (Array.replicate system.size A.impossible) components.reverse
      turns last ∧ n = totalPasses turns ∧ Within g limit turns ∧
      ∀ k ∈ budget, Within g k turns := by
  obtain ⟨turns, hruns, rfl, hlimit, hbudget⟩ := runs_of_solveComponents h
  exact ⟨turns, hruns, Nat.zero_add _, hlimit, hbudget⟩

/-- A run that stays within budget and limit is what the solver does. -/
theorem solve_of_within (h : Runs A system g (Array.replicate system.size A.impossible)
      components.reverse turns last) (hbudget : ∀ k ∈ budget, Within g k turns)
    (hlimit : Within g limit turns) :
    solve A system g components budget limit = some (.ok (last, totalPasses turns)) := by
  have hsolve : solve A system g components budget limit
      = some (.ok (last, 0 + totalPasses turns)) := solveComponents_of_runs h hbudget hlimit
  rwa [Nat.zero_add] at hsolve

/-- No component takes more passes than all of them together. -/
theorem within_totalPasses (g : Graph) (turns : List (List Nat × Nat)) :
    Within g (totalPasses turns) turns :=
  fun _ ht _ => List.le_sum_of_mem (List.mem_map_of_mem ht)

/-- The run without a budget is what the solver does under a large enough limit. -/
theorem solve_iff_runs {n : Nat} :
    (∃ limit, solve A system g components none limit = some (.ok (last, n))) ↔
      ∃ turns, Runs A system g (Array.replicate system.size A.impossible) components.reverse
        turns last ∧ n = totalPasses turns := by
  constructor
  · rintro ⟨limit, h⟩
    obtain ⟨turns, hruns, hn, -⟩ := runs_of_solve h
    exact ⟨turns, hruns, hn⟩
  · rintro ⟨turns, hruns, rfl⟩
    exact ⟨totalPasses turns, solve_of_within hruns (fun k hk => absurd hk (Option.not_mem_none k))
      (within_totalPasses g turns)⟩

/-- Where all recursive components stay within the budget, it makes no difference. -/
theorem solve_of_runs {k : Nat} (h : Runs A system g
      (Array.replicate system.size A.impossible) components.reverse turns last)
    (hwithin : Within g k turns) (hlimit : k ≤ limit) (hbudget : ∀ k' ∈ budget, k ≤ k') :
    solve A system g components budget limit = some (.ok (last, totalPasses turns)) :=
  solve_of_within h (fun k' hk' => hwithin.mono (hbudget k' hk')) (hwithin.mono hlimit)

/-- Where they do not, the first that does not ends the run. -/
theorem solve_of_overruns {k : Nat} (h : Overruns A system g k
      (Array.replicate system.size A.impossible) components.reverse c) (hlimit : k < limit) :
    solve A system g components (some k) limit = some (.error ⟨c, k⟩) :=
  solveComponents_of_overruns h hlimit

end

end ChanceProof.System
