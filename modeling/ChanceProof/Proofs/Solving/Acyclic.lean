import ChanceProof.Proofs.Graph.Components
import ChanceProof.Proofs.Solving.Bounded

/-!
# Systems without recursion are solved

When no component is recursive, each is one label that does not depend on itself. The solver then
evaluates every label once, after all those that it depends on. Nothing that a label was evaluated
from changes any more, so in the end every value is what its equation says: `solve_acyclic`. There
is nothing to pass again, hence neither a budget nor a limit to be exceeded.
-/

namespace ChanceProof

namespace Graph

/-! ## The order of the labels -/

/-- Every node stands once, before all those that it leads to. -/
def Descends (g : Graph) : List Nat → Prop
  | [] => True
  | v :: rest => v ∉ rest ∧ (∀ w, Leads g.successors v w → w ∈ rest) ∧ g.Descends rest

variable {g : Graph}

theorem Descends.leads_mem {vs : List Nat} (h : g.Descends vs) {v w : Nat} (hv : v ∈ vs)
    (hlead : Leads g.successors v w) : w ∈ vs := by
  induction vs with
  | nil => cases hv
  | cons u vs ih =>
      obtain ⟨-, hleads, hrest⟩ := h
      rcases List.mem_cons.1 hv with rfl | hv
      · exact List.mem_cons_of_mem _ (hleads w hlead)
      · exact List.mem_cons_of_mem _ (ih hrest hv)

theorem descends_of_getElem? {vs : List Nat} (hnodup : vs.Nodup)
    (h : ∀ (i : Nat) (v w : Nat), vs[i]? = some v → Leads g.successors v w →
      ∃ j, i < j ∧ vs[j]? = some w) : g.Descends vs := by
  induction vs with
  | nil => trivial
  | cons v vs ih =>
      obtain ⟨hnot, hnodup⟩ := List.nodup_cons.1 hnodup
      refine ⟨hnot, fun w hlead => ?_, ih hnodup fun i u w hu hlead => ?_⟩
      · obtain ⟨j, hj, hw⟩ := h 0 v w rfl hlead
        obtain ⟨k, rfl⟩ : ∃ k, j = k + 1 := ⟨j - 1, by omega⟩
        exact List.mem_of_getElem? hw
      · obtain ⟨j, hj, hw⟩ := h (i + 1) u w hu hlead
        obtain ⟨k, rfl⟩ : ∃ k, j = k + 1 := ⟨j - 1, by omega⟩
        exact ⟨k, by omega, hw⟩

theorem single_of_not_recursive {c : List Nat} (h : g.isRecursive c = false) :
    ∃ v, c = [v] ∧ ¬Leads g.successors v v := by
  unfold isRecursive at h
  split at h
  · next v =>
      refine ⟨v, rfl, fun hlead => ?_⟩
      unfold hasSelfLoop at h
      rw [List.contains_iff_mem.2 hlead] at h
      cases h
  · cases h

theorem map_single_flatten {cs : List (List Nat)} (h : ∀ c ∈ cs, ∃ v, c = [v]) :
    cs.flatten.map ([·]) = cs := by
  induction cs with
  | nil => rfl
  | cons c cs ih =>
      obtain ⟨v, rfl⟩ := h c List.mem_cons_self
      rw [List.flatten_cons, List.map_append, ih fun c hc => h c (List.mem_cons_of_mem _ hc)]
      rfl

/-- Without recursion the components are the nodes, each before all those that it leads to. -/
theorem Proper.descends_components (hg : g.Proper)
    (hacyclic : ∀ c ∈ g.components, g.isRecursive c = false) :
    g.components.flatten.map ([·]) = g.components ∧ g.Descends g.components.flatten := by
  have hsingle := map_single_flatten fun c hc =>
    (single_of_not_recursive (hacyclic c hc)).imp fun _ h => h.1
  obtain ⟨-, hcollected⟩ := hg.components_collected
  -- A node and the component that it makes have one place.
  have hplace : ∀ (i : Nat) (v : Nat), g.components.flatten[i]? = some v ↔
      g.components[i]? = some [v] := by
    intro i v
    conv => rhs; rw [← hsingle, List.getElem?_map]
    cases g.components.flatten[i]? <;> simp
  refine ⟨hsingle, descends_of_getElem? hcollected.nodup fun i v w hv hlead => ?_⟩
  obtain ⟨j, hj⟩ := List.mem_iff_getElem?.1 (hg.mem_components.2 (hg.leads_lt hlead).2)
  obtain ⟨i', c, hle, hc, hvc⟩ := (hcollected.ordered j [w] ((hplace j w).1 hj) w
    List.mem_cons_self v hlead).resolve_left fun h => (nomatch h)
  obtain ⟨u, rfl, hself⟩ := single_of_not_recursive (hacyclic c (List.mem_of_getElem? hc))
  obtain rfl := List.mem_singleton.1 hvc
  obtain rfl : i' = i := by
    have hlt := (List.getElem?_eq_some_iff.1 ((hplace i' v).2 hc)).1
    exact (List.getElem?_inj hlt hcollected.nodup).1 (((hplace i' v).2 hc).trans hv.symm)
  refine ⟨j, lt_of_le_of_ne hle ?_, hj⟩
  rintro rfl
  cases hv.symm.trans hj
  exact hself hlead

end Graph

namespace System

variable {α : Type} (A : Arithmetic α) (system : System α)

/-! ## Evaluating once -/

/-- Each equation reads only values of labels that its own label leads to. -/
def ReadsAlong (g : Graph) : Prop :=
  ∀ i values values',
    (∀ j, Graph.Leads g.successors i j → valueAt A values j = valueAt A values' j) →
      newValue A system values i = newValue A system values' i

theorem size_evaluate (values : Array α) (vs : List Nat) :
    (evaluate A system values vs).size = values.size := by
  unfold evaluate
  induction vs generalizing values with
  | nil => rfl
  | cons v vs ih => rw [List.foldl_cons, ih, Array.size_setIfInBounds]

theorem evaluate_append (values : Array α) (vs ws : List Nat) :
    evaluate A system values (vs ++ ws) = evaluate A system (evaluate A system values vs) ws := by
  unfold evaluate
  rw [List.foldl_append]

theorem solveComponents_acyclic {g : Graph} (budget : Option Nat) (limit : Nat)
    {cs : List (List Nat)} (h : ∀ c ∈ cs, g.isRecursive c = false) (passes : Nat)
    (values : Array α) : solveComponents A system g budget limit passes values cs =
      some (.ok (evaluate A system values cs.flatten, passes + cs.length)) := by
  induction cs generalizing passes values with
  | nil => rfl
  | cons c cs ih =>
      rw [solveComponents, if_neg (by rw [h c List.mem_cons_self]; exact Bool.false_ne_true),
        ih fun c hc => h c (List.mem_cons_of_mem _ hc), List.flatten_cons, evaluate_append,
        List.length_cons]
      congr 3
      omega

variable {A system}

/-- Labels that are evaluated after all they lead to have the values of their equations. -/
theorem evaluate_reverse {g : Graph} (hreads : ReadsAlong A system g) {vs : List Nat}
    (hvs : g.Descends vs) {values : Array α} (hlt : ∀ v ∈ vs, v < values.size) :
    ∀ v ∈ vs, valueAt A (evaluate A system values vs.reverse) v =
      newValue A system (evaluate A system values vs.reverse) v := by
  induction vs with
  | nil => exact fun _ h => (nomatch h)
  | cons v vs ih =>
      obtain ⟨hnot, hleads, hrest⟩ := hvs
      have hbefore := ih hrest fun w hw => hlt w (List.mem_cons_of_mem _ hw)
      rw [List.reverse_cons, evaluate_append]
      generalize hevaluated : evaluate A system values vs.reverse = evaluated at hbefore
      have hsize : v < evaluated.size := by
        rw [← hevaluated, size_evaluate]
        exact hlt v List.mem_cons_self
      have hlast : evaluate A system evaluated [v] =
          evaluated.setIfInBounds v (newValue A system evaluated v) := rfl
      -- The labels behind do not read the one that is evaluated last.
      have hsame : ∀ w ∈ vs,
          valueAt A (evaluated.setIfInBounds v (newValue A system evaluated v)) w
            = valueAt A evaluated w := by
        intro w hw
        rw [valueAt_set, if_neg]
        rintro ⟨rfl, -⟩
        exact hnot hw
      rw [hlast]
      intro w hw
      rcases List.mem_cons.1 hw with rfl | hw
      · rw [valueAt_set, if_pos ⟨rfl, hsize⟩]
        exact hreads w _ _ fun j hj => (hsame j (hleads j hj)).symm
      · rw [hsame w hw, hbefore w hw]
        exact hreads w _ _ fun j hj => (hsame j (hrest.leads_mem hw hj)).symm

/-- A system without recursion is solved whatever the budget and the limit, and every value is what
its equation says. -/
theorem solve_acyclic {g : Graph} (hg : g.Proper) (hsize : g.size = system.size)
    (hacyclic : ∀ c ∈ g.components, g.isRecursive c = false) (hreads : ReadsAlong A system g)
    (budget : Option Nat) (limit : Nat) :
    ∃ values, solve A system g g.components budget limit
        = some (.ok (values, g.components.length)) ∧ values.size = system.size ∧
      ∀ i < system.size, valueAt A values i = newValue A system values i := by
  obtain ⟨hsingle, hdescends⟩ := hg.descends_components hacyclic
  have horder : g.components.reverse.flatten = g.components.flatten.reverse := by
    conv => lhs; rw [← hsingle]
    rw [← List.map_reverse, ← List.flatMap_def, List.flatMap_singleton']
  have hlt : ∀ v ∈ g.components.flatten,
      v < (Array.replicate system.size A.impossible).size := fun v hv => by
    rw [Array.size_replicate, ← hsize]
    exact hg.mem_components.1 hv
  refine ⟨evaluate A system (Array.replicate system.size A.impossible)
    g.components.flatten.reverse, ?_, ?_, fun i hi => ?_⟩
  · rw [solve, solveComponents_acyclic A system budget limit
      fun c hc => hacyclic c (List.mem_reverse.1 hc), horder, List.length_reverse, Nat.zero_add]
  · rw [size_evaluate, Array.size_replicate]
  · exact evaluate_reverse hreads hdescends hlt i (hg.mem_components.2 (hsize ▸ hi))

end System

end ChanceProof
