import ChanceProof.Proofs.Evaluation.Terms
import ChanceProof.Proofs.Solving.Trace

/-!
# What is used is final

The dependencies in the terms of a session are the edges of its graph, so the components come in an
order that serves the equations: whenever a label is evaluated, what it takes from other components
is already what will be reported. A label that does not depend on itself is evaluated a single time,
and what is reported for it is the value of its equation at all that is reported
(`SortedSession.solve_final`). There are as many evaluations as the passes that are reported make
(`SortedSession.solve_passes`). None of this looks into the arithmetic.
-/

namespace ChanceProof

variable {σ α : Type} {M : Model σ} {A : Arithmetic α}

namespace SortedSession

/-- The evaluations of solving a system for a sorted session. -/
def trace (A : Arithmetic α) (system : System α) (limit : Nat) (s : SortedSession σ) :
    List (System.Evaluation α) :=
  System.trace A system s.graph s.components s.session.settings.maxPasses limit

/-- Solving sets up the system and solves it. -/
theorem solve_ok {s : SortedSession σ} {limit : Nat} {t t' : Session σ} {r : Results α}
    (h : s.solve M A limit t = some (.ok r, t')) :
    ∃ system values passes, (Session.system M A).run t = (.ok system, t') ∧
      system.solve A s.graph s.components s.session.settings.maxPasses limit
        = some (.ok (values, passes)) ∧ r = s.results values passes := by
  unfold solve at h
  obtain ⟨system, t₁, hsystem, h⟩ := Run.bind_ok.1 h
  rcases hsolve : system.solve A s.graph s.components s.session.settings.maxPasses limit with
    _ | f | ⟨values, passes⟩ <;> rw [hsolve] at h
  · cases h
  · cases h
  · cases h
    exact ⟨system, values, passes, Option.some.inj hsystem, hsolve, rfl⟩

/-- The passes that are reported are those of the evaluations: each component has its turn, and its
labels are evaluated once for each pass of its turn. -/
theorem solve_passes {s : SortedSession σ} {limit : Nat} {t t' : Session σ} {r : Results α}
    (h : s.solve M A limit t = some (.ok r, t')) :
    ∃ (system : System α) (turns : List (List Nat × Nat)),
      (Session.system M A).run t = (.ok system, t') ∧
      turns.map Prod.fst = s.components.reverse ∧ r.stats.passes = System.totalPasses turns ∧
      (s.trace A system limit).map (·.label) = System.passedLabels turns := by
  obtain ⟨system, values, passes, hsystem, hsolve, rfl⟩ := solve_ok h
  obtain ⟨turns, hruns, hpasses, hlabels⟩ := System.labels_trace hsolve
  exact ⟨system, turns, hsystem, hruns.components, hpasses, hlabels⟩

/-- The evaluations lead from impossible labels to the values that are reported. When a label is
evaluated, the labels of other components that its terms depend on, which are those that it needs,
have these values already. A label that does not need itself is evaluated once, and its value is
that of its terms at the values that are reported. -/
theorem solve_final {I : σ → Prop} {s s' : Session σ} (hs : Session.Reachable M I s) {limit : Nat}
    {r : Results α} (h : s.sort.solve M A limit s = some (.ok r, s')) :
    ∃ (system : System α) (values : Array α),
      (Session.system M A).run s = (.ok system, s') ∧
      r.labels = s.labels.zip values.toList ∧ values.size = s.labels.length ∧
      System.Linked A system (Array.replicate system.size A.impossible)
        (s.sort.trace A system limit) values ∧
      (∀ (i : Nat) (x : Label), s.labels[i]? = some x → ∀ j,
        (∃ t : Term α, t ∈ system[i]?.getD [] ∧ j ∈ t.dependencies) ↔
          ∃ y, s.labels[j]? = some y ∧ s.Needs x y) ∧
      (∀ e ∈ s.sort.trace A system limit, ∀ j,
        (∃ t : Term α, t ∈ system[e.label]?.getD [] ∧ j ∈ t.dependencies) →
        (∀ c ∈ s.sort.components, e.label ∈ c → j ∉ c) → e.before[j]? = values[j]?) ∧
      ∀ (i : Nat) (x : Label), s.labels[i]? = some x → ¬Relation.TransGen s.Needs x x →
        System.valueAt A values i = System.newValue A system values i ∧
          ((s.sort.trace A system limit).map (·.label)).count i = 1 := by
  obtain ⟨system, values, passes, hsystem, hsolve, rfl⟩ := solve_ok h
  have hd := hs.distinct_labels
  have hnumbers := Session.numbers_graph hd
  have hdependencies := Session.leads_dependencies hsystem hd
  obtain ⟨hvalues, hsolved⟩ := System.solve_outside hnumbers.proper
    (Session.size_graph_eq_system hsystem) (System.readsAlong_of_dependencies hdependencies) hsolve
  obtain ⟨last, hlinked, hlast⟩ := System.linked_trace A system s.graph s.settings.maxPasses limit
    s.graph.components
  obtain rfl := hlast values passes hsolve
  refine ⟨system, values, hsystem, rfl, hvalues.trans (Session.size_system hsystem), hlinked,
    fun i x hx j => ?_, fun e he j hj hother => ?_, fun i x hx hfree => ?_⟩
  · rw [Session.dependencies_iff hsystem hd, hnumbers.leads hx]
  · obtain ⟨t, ht, hj⟩ := hj
    exact System.final_when_read hnumbers.proper hsolve he (hdependencies _ t ht j hj) hother
  · have hnot : ¬s.graph.Recurs i := fun hrecurs => hfree ((hnumbers.recurs_iff hx).1 hrecurs)
    exact ⟨hsolved i (hnumbers.lt_size hx) hnot,
      System.evaluated_once hnumbers.proper hsolve (hnumbers.lt_size hx) hnot⟩

end SortedSession

/-! ## Tossing until tails, from the last toss to the first -/

namespace untilTails

def expanded : Session Store :=
  ((proofs.forM fun p => do let _ ← Session.expand untilTails.model p :
    Action (Session Store) Unit).run (.start .standard Library.truths)).2

theorem reachable : Session.Reachable untilTails.model (fun _ => True) expanded :=
  Action.forM_invariant (fun _ p h => h.expand p) proofs (.start .standard trivial)

/-- Tossing goes on with one half and ends with the other. -/
def system : System ℚ := #[[⟨1 / 2, [0]⟩, ⟨1 / 2, [1]⟩], [⟨1, []⟩]]

/-- What ends the tossing needs nothing. -/
theorem ends_alone : ¬Relation.TransGen expanded.Needs (label 1 1) (label 1 1) := by
  intro h
  obtain ⟨y, ⟨-, -, ls, hls, hy⟩, -⟩ := Relation.TransGen.head'_iff.1 h
  have hnone : expanded.alternativesOf (label 1 1) = [[]] := by decide +kernel
  rw [hnone, List.mem_singleton] at hls
  rw [hls] at hy
  exact absurd hy List.not_mem_nil

end untilTails

/-- Tossing is evaluated twice, after its end. -/
theorem untilTails_final : ∃ (r : Results ℚ) (s' : Session Store) (values : Array ℚ),
    untilTails.expanded.sort.solve untilTails.model (exactArithmetic fun x y => y - x ≤ 1 / 4) 10
      untilTails.expanded = some (.ok r, s') ∧
    r.labels = [untilTails.label 0 1, untilTails.label 1 1].zip values.toList ∧
    (untilTails.expanded.sort.trace (exactArithmetic fun x y => y - x ≤ 1 / 4) untilTails.system
      10).map (·.label) = [1, 0, 0] ∧
    (∀ e ∈ untilTails.expanded.sort.trace (exactArithmetic fun x y => y - x ≤ 1 / 4)
      untilTails.system 10, e.label = 0 → e.before[1]? = values[1]?) ∧
    System.valueAt (exactArithmetic fun x y => y - x ≤ 1 / 4) values 1
      = System.newValue (exactArithmetic fun x y => y - x ≤ 1 / 4) untilTails.system values 1 := by
  have hlabels : untilTails.expanded.labels = [untilTails.label 0 1, untilTails.label 1 1] := by
    decide +kernel
  have hsolved : (untilTails.expanded.sort.solve untilTails.model
      (exactArithmetic fun x y => y - x ≤ 1 / 4) 10 untilTails.expanded).map
        (fun x => x.1.toOption.isSome) = some true := by
    decide +kernel
  have hsystem : ((Session.system untilTails.model (exactArithmetic fun x y => y - x ≤ 1 / 4)).run
      untilTails.expanded).1 = .ok untilTails.system := by
    decide +kernel
  rcases hr : untilTails.expanded.sort.solve untilTails.model
    (exactArithmetic fun x y => y - x ≤ 1 / 4) 10 untilTails.expanded with _ | ⟨f | r, s'⟩ <;>
    rw [hr] at hsolved
  · cases hsolved
  · cases hsolved
  obtain ⟨system, values, hrun, hreported, -, -, -, hfinal, honce⟩ :=
    SortedSession.solve_final untilTails.reachable hr
  rw [hrun] at hsystem
  obtain rfl := Except.ok.inj hsystem
  have hlabel : untilTails.expanded.labels[1]? = some (untilTails.label 1 1) := by rw [hlabels]; rfl
  refine ⟨r, s', values, rfl, hlabels ▸ hreported, by decide +kernel, fun e he h0 => ?_,
    (honce 1 _ hlabel untilTails.ends_alone).1⟩
  refine hfinal e he 1 ?_ ?_
  · rw [h0]
    exact ⟨⟨1 / 2, [1]⟩, by decide +kernel, by decide⟩
  · have hcomponents : untilTails.expanded.sort.components = [[0], [1]] := by decide +kernel
    rw [hcomponents, h0]
    decide

end ChanceProof
