import ChanceProof.Proofs.Evaluation.Final
import ChanceProof.Proofs.Solving.Budget

/-!
# Solving within a budget

The budget of a session is read in one place only, where the passes over a recursive component are
counted. So the equations are the same under every budget (`Session.solveWithin_eq`), and a budget
truncates the solving of a session as it does the solving of a system: it gives the results of the
run without a budget, or names the first label of the first component that needs more passes.
-/

namespace ChanceProof

namespace Session

variable {σ α β : Type} {M : Model σ} {A : Arithmetic α}

/-- The session with another budget. -/
def withBudget (s : Session σ) (budget : Option Nat) : Session σ :=
  { s with settings := { s.settings with maxPasses := budget } }

/-- Solve a session within a budget of its own choice. -/
def solveWithin (M : Model σ) (A : Arithmetic α) (s : Session σ) (budget : Option Nat)
    (limit : Nat) : Option (Except Failure (Results α) × Session σ) :=
  (s.withBudget budget).sort.solve M A limit (s.withBudget budget)

/-! ## What does not read the budget -/

/-- The operation does the same under every budget. -/
def IgnoresBudget (x : Action (Session σ) β) : Prop :=
  ∀ s budget, x.run (s.withBudget budget) = ((x.run s).1, (x.run s).2.withBudget budget)

namespace IgnoresBudget

theorem pure (u : β) : IgnoresBudget (pure u : Action (Session σ) β) := fun _ _ => rfl

theorem throw (f : Failure) : IgnoresBudget (throw f : Action (Session σ) β) := fun _ _ => rfl

theorem ask (x : Action σ β) : IgnoresBudget (ask x) := fun _ _ => rfl

theorem bind {γ : Type} {x : Action (Session σ) β} {f : β → Action (Session σ) γ}
    (hx : IgnoresBudget x) (hf : ∀ u, IgnoresBudget (f u)) : IgnoresBudget (x >>= f) := by
  intro s budget
  rw [Action.run_bind, Action.run_bind, hx s budget]
  rcases x.run s with ⟨f | u, s'⟩
  · rfl
  · exact hf u s' budget

theorem tryCatch {x : Action (Session σ) β} {f : Failure → Action (Session σ) β}
    (hx : IgnoresBudget x) (hf : ∀ e, IgnoresBudget (f e)) : IgnoresBudget (tryCatch x f) := by
  intro s budget
  rw [Action.run_tryCatch, Action.run_tryCatch, hx s budget]
  rcases x.run s with ⟨e | u, s'⟩
  · exact hf e s' budget
  · rfl

/-- The session may be read, but not its budget. -/
theorem get {f : Session σ → Action (Session σ) β} (hf : ∀ s, IgnoresBudget (f s))
    (hsame : ∀ s budget, f (s.withBudget budget) = f s) : IgnoresBudget (get >>= f) := by
  intro s budget
  rw [Action.run_bind_of_ok (Action.run_get _), Action.run_bind_of_ok (Action.run_get _), hsame]
  exact hf s s budget

theorem display (h : Handle) : IgnoresBudget (Session.display M h) :=
  .tryCatch ((ask _).bind fun _ => pure _) fun _ => pure _

theorem coinValue (l : Label) : IgnoresBudget (Session.coinValue M A l) := by
  unfold Session.coinValue
  split
  · refine (ask _).bind fun p => ?_
    split
    · refine (ask _).bind fun v => ?_
      split
      · exact pure _
      · exact (display _).bind fun _ => throw _
    · exact throw _
  · exact throw _

theorem termOf (known : List (Label × α)) (t : Term α) (ls : List Label) :
    IgnoresBudget (Session.termOf M A known t ls) := by
  induction ls generalizing known t with
  | nil => exact pure _
  | cons l ls ih =>
      unfold Session.termOf
      split
      · split
        · exact ih _ _
        · exact (coinValue l).bind fun p => ih _ _
      · refine get (fun s => ?_) fun s budget => rfl
        split
        · exact ih _ _
        · exact ih _ _

theorem termsOf (known : List (Label × α)) (as : List (List Label)) :
    IgnoresBudget (Session.termsOf M A known as) := by
  induction as generalizing known with
  | nil => exact pure _
  | cons a as ih => exact (termOf _ _ a).bind fun r => (ih _).bind fun r' => pure _

theorem equationsOf (known : List (Label × α)) (es : List Entry) :
    IgnoresBudget (Session.equationsOf M A known es) := by
  induction es generalizing known with
  | nil => exact pure _
  | cons e es ih => exact (termsOf _ e.alternatives).bind fun r => (ih _).bind fun ts => pure _

theorem system : IgnoresBudget (Session.system M A) :=
  get (fun s => (equationsOf [] s.entries).bind fun _ => pure _) fun _ _ => rfl

end IgnoresBudget

/-- Whatever the budget, the same system is solved over the same graph. -/
theorem solveWithin_eq {s s' : Session σ} {system : System α}
    (hsystem : (Session.system M A).run s = (.ok system, s')) (budget : Option Nat) (limit : Nat) :
    s.solveWithin M A budget limit =
      match system.solve A s.graph s.graph.components budget limit with
      | none => none
      | some (.error e) => some (.error (s.sort.notSettled e), s'.withBudget budget)
      | some (.ok (values, passes)) => some (.ok (s.sort.results values passes),
          s'.withBudget budget) := by
  have hrun : Run.ofAction (Session.system M A) (s.withBudget budget)
      = some (.ok system, s'.withBudget budget) := by
    rw [Run.ofAction, IgnoresBudget.system s budget, hsystem]
  unfold solveWithin SortedSession.solve
  rw [Run.bind_apply, hrun]
  have hsolve : system.solve A (s.withBudget budget).sort.graph
      (s.withBudget budget).sort.components (s.withBudget budget).sort.session.settings.maxPasses
      limit = system.solve A s.graph s.graph.components budget limit := rfl
  simp only [hsolve]
  rcases system.solve A s.graph s.graph.components budget limit with _ | e | ⟨values, passes⟩
  · rfl
  · rfl
  · rfl

/-- A component is named by its label of the least number. -/
theorem notSettled_eq {s : Session σ} {c : List Nat} (hc : c ∈ s.graph.components) (k : Nat) :
    ∃ i x, i ∈ c ∧ (∀ j ∈ c, i ≤ j) ∧ s.labels[i]? = some x ∧
      s.sort.notSettled ⟨c, k⟩ = .didNotConverge x.display k := by
  obtain ⟨-, hcollected⟩ := s.proper_graph.components_collected
  have hcomponent := hcollected.component c hc
  cases c with
  | nil =>
      obtain ⟨v, hv, -⟩ := hcomponent.node
      exact absurd hv List.not_mem_nil
  | cons i rest =>
      have hi : i < s.labels.length := by
        have hlt := hcollected.within i (List.mem_flatten.2 ⟨_, hc, List.mem_cons_self⟩)
        rwa [size_graph, ← List.length_map (·.label)] at hlt
      have hx : s.labels[i]? = some s.labels[i] := List.getElem?_eq_getElem hi
      refine ⟨i, s.labels[i], List.mem_cons_self, List.forall_mem_cons.2 ⟨Nat.le_refl i,
        fun j hj => Nat.le_of_lt ((List.pairwise_cons.1 hcomponent.ascends).1 j hj)⟩, hx, ?_⟩
      show Failure.didNotConverge ((s.labels[i]?).elim "" Label.display) k = _
      rw [hx]
      rfl

/-! ## The budget -/

/-- The run over the components of a session without a budget. -/
def Runs (A : Arithmetic α) (s : Session σ) (system : System α) (turns : List (List Nat × Nat))
    (last : Array α) : Prop :=
  System.Runs A system s.graph (Array.replicate system.size A.impossible) s.graph.components.reverse
    turns last

/-- The component is the first that takes more passes than the budget has. -/
def Overruns (A : Arithmetic α) (s : Session σ) (system : System α) (k : Nat) (c : List Nat) :
    Prop :=
  System.Overruns A system s.graph k (Array.replicate system.size A.impossible)
    s.graph.components.reverse c

theorem Overruns.mem {s : Session σ} {system : System α} {k : Nat} {c : List Nat}
    (h : s.Overruns A system k c) : c ∈ s.graph.components := by
  obtain ⟨before, after, -, -, heq, -⟩ := h
  rw [← List.mem_reverse, heq]
  exact List.mem_append_right _ List.mem_cons_self

/-- The run without a budget is what solving leads to under a large limit. A budget that no
recursive component exceeds gives the results of that run. Any other ends the solving in the first
component that exceeds it, with a failure that shows the budget and the component's first label. So
results stay the same under every larger budget. -/
theorem solve_budget (M : Model σ) (A : Arithmetic α) {s s' : Session σ} {system : System α}
    (hsystem : (Session.system M A).run s = (.ok system, s')) (k : Nat) :
    (∀ last n, (∃ limit, system.solve A s.graph s.graph.components none limit
        = some (.ok (last, n))) ↔
      ∃ turns, s.Runs A system turns last ∧ n = System.totalPasses turns) ∧
    (∀ turns last, s.Runs A system turns last → System.Within s.graph k turns →
      ∀ limit, k < limit → ∀ budget ∈ [some k, none], s.solveWithin M A budget limit
        = some (.ok (s.sort.results last (System.totalPasses turns)), s'.withBudget budget)) ∧
    ((¬∃ turns last, s.Runs A system turns last ∧ System.Within s.graph k turns) →
      ∃ c i x, s.Overruns A system k c ∧ i ∈ c ∧ (∀ j ∈ c, i ≤ j) ∧ s.labels[i]? = some x ∧
        ∀ limit, k < limit → s.solveWithin M A (some k) limit
          = some (.error (.didNotConverge x.display k), s'.withBudget (some k))) ∧
    ∀ limit r t, s.solveWithin M A (some k) limit = some (.ok r, t) →
      ∀ k' limit', k ≤ k' → limit ≤ limit' →
        s.solveWithin M A (some k') limit' = some (.ok r, s'.withBudget (some k')) := by
  refine ⟨fun last n => System.solve_iff_runs, fun turns last hruns hwithin limit hlimit budget
    hbudget => ?_, fun hnot => ?_, fun limit r t hr k' limit' hk hlimit => ?_⟩
  · have hle : ∀ k' ∈ budget, k ≤ k' := by
      intro k' hk'
      rcases List.mem_pair.1 hbudget with rfl | rfl
      · cases hk'
        exact Nat.le_refl k
      · cases hk'
    rw [solveWithin_eq hsystem, System.solve_of_runs hruns hwithin (Nat.le_of_lt hlimit) hle]
  · obtain ⟨c, hoverruns⟩ := (System.runs_or_overruns k _ _).resolve_left hnot
    have hmem : c ∈ s.graph.components := Overruns.mem hoverruns
    obtain ⟨i, x, hi, hleast, hx, hname⟩ := notSettled_eq hmem k
    refine ⟨c, i, x, hoverruns, hi, hleast, hx, fun limit hlimit => ?_⟩
    rw [solveWithin_eq hsystem, System.solve_of_overruns hoverruns hlimit]
    simp only
    rw [hname]
  · rw [solveWithin_eq hsystem] at hr ⊢
    split at hr
    · cases hr
    · cases hr
    · next values passes hsolve =>
        cases hr
        obtain ⟨turns, hruns, rfl, hwithin, hbudget⟩ := System.runs_of_solve hsolve
        have hbudget' : ∀ k'' ∈ some k', System.Within s.graph k'' turns := fun k'' hk'' => by
          cases hk''
          exact (hbudget k rfl).mono hk
        rw [System.solve_of_within hruns hbudget' (hwithin.mono hlimit)]

end Session

namespace untilTails

/-- Without a budget the end of the tossing is evaluated once, and the tossing is passed twice. -/
theorem runs : expanded.Runs (exactArithmetic fun x y => y - x ≤ 1 / 4) system
    [([1], 1), ([0], 2)] #[3 / 4, 1] := by
  have hcomponents : expanded.graph.components.reverse = [[1], [0]] := by decide +kernel
  have hfirst : System.pass (exactArithmetic fun x y => y - x ≤ 1 / 4) system true #[0, 1] [0]
      = (#[1 / 2, 1], false) := by decide +kernel
  have hsecond : System.pass (exactArithmetic fun x y => y - x ≤ 1 / 4) system true #[1 / 2, 1] [0]
      = (#[3 / 4, 1], true) := by decide +kernel
  have hend : System.evaluate (exactArithmetic fun x y => y - x ≤ 1 / 4) system
      (Array.replicate system.size 0) [1] = #[0, 1] := by decide +kernel
  have hrest : System.Runs (exactArithmetic fun x y => y - x ≤ 1 / 4) system expanded.graph
      #[0, 1] [[0]] [([0], 2)] #[3 / 4, 1] :=
    .recursive (by decide +kernel) (.more hfirst (.last hsecond)) (.done _)
  rw [← hend] at hrest
  rw [Session.Runs, hcomponents]
  exact .once (by decide +kernel) hrest

end untilTails

/-- So a budget of two is enough for the tossing, and a budget of one is not. -/
theorem untilTails_budget : ∃ s' : Session Store,
    untilTails.expanded.solveWithin untilTails.model (exactArithmetic fun x y => y - x ≤ 1 / 4)
        (some 2) 3
      = some (.ok (untilTails.expanded.sort.results #[3 / 4, 1] 3), s'.withBudget (some 2)) ∧
    ∃ x ∈ untilTails.expanded.labels,
      untilTails.expanded.solveWithin untilTails.model (exactArithmetic fun x y => y - x ≤ 1 / 4)
          (some 1) 2
        = some (.error (.didNotConverge x.display 1), s'.withBudget (some 1)) := by
  have hsystem : ((Session.system untilTails.model (exactArithmetic fun x y => y - x ≤ 1 / 4)).run
      untilTails.expanded).1 = .ok untilTails.system := by
    decide +kernel
  rcases hr : (Session.system untilTails.model (exactArithmetic fun x y => y - x ≤ 1 / 4)).run
    untilTails.expanded with ⟨answer, s'⟩
  rw [hr] at hsystem
  obtain rfl : answer = .ok untilTails.system := hsystem
  have hfails : (untilTails.expanded.solveWithin untilTails.model
      (exactArithmetic fun x y => y - x ≤ 1 / 4) (some 1) 2).map (·.1.isOk) = some false := by
    decide +kernel
  obtain ⟨-, hwithin, -, -⟩ := Session.solve_budget untilTails.model _ hr 2
  obtain ⟨-, hwithin', hoverruns, -⟩ := Session.solve_budget untilTails.model _ hr 1
  refine ⟨s', hwithin _ _ untilTails.runs (by decide +kernel) 3 (by decide) (some 2) (by simp), ?_⟩
  obtain ⟨c, i, x, -, -, -, hx, hlimit⟩ := hoverruns fun ⟨turns, last, hruns, hle⟩ => by
    rw [hwithin' turns last hruns hle 2 (by decide) (some 1) (by simp)] at hfails
    cases hfails
  exact ⟨x, List.mem_of_getElem? hx, hlimit 2 (by decide)⟩

end ChanceProof
