import ChanceProof.CommandLine.Run
import ChanceProof.Proofs.Evaluation.Impossible
import ChanceProof.Proofs.Evaluation.Remembered
import ChanceProof.Proofs.Evaluation.Truncated
import ChanceProof.Proofs.Solving.Termination

/-!
# Solving without a budget ends

Settings that are accepted have a positive tolerance (`CommandLine.tolerance_pos`). Probabilities of
a session whose alternatives exclude each other stay below what is true, and so below one. As
bounded values settle within any positive tolerance, every recursive component is solved after
finitely many passes, though nothing bounds them beforehand: `Model.evaluate_ends`. This is said of
exact probabilities, and of a model that keeps its promises.
-/

namespace ChanceProof

open CommandLine (Files ProveCommand loadSettings checkSettings)

/-- A positive tolerance is reached in the end. -/
theorem tolerates_withinTolerance {tolerance : ℝ} (h : 0 < tolerance) :
    System.Tolerates (withinTolerance tolerance) := by
  intro x hmono hnonneg hone
  by_cases hzero : ∀ n, x n ≤ 0
  · exact ⟨0, fun n _ present new _ hnew =>
      (withinTolerance_iff h.le).2 (.inl (hnew.trans (hzero (n + 1))))⟩
  push Not at hzero
  obtain ⟨k, hk⟩ := hzero
  have hbounded : BddAbove (Set.range fun n => (x n : ℝ)) := by
    refine ⟨1, ?_⟩
    rintro _ ⟨n, rfl⟩
    show (x n : ℝ) ≤ 1
    exact_mod_cast hone n
  have hle : ∀ n, (x n : ℝ) ≤ ⨆ n, (x n : ℝ) := le_ciSup hbounded
  have hpos : (0 : ℝ) < ⨆ n, (x n : ℝ) := lt_of_lt_of_le (by exact_mod_cast hk) (hle k)
  -- Some number misses the supremum by less than the tolerance, and so do all after it.
  obtain ⟨N, hN⟩ : ∃ N, Real.exp (-tolerance) * ⨆ n, (x n : ℝ) < x N :=
    exists_lt_of_lt_ciSup (mul_lt_of_lt_one_left hpos (Real.exp_lt_one_iff.2 (neg_lt_zero.2 h)))
  refine ⟨N, fun n hn present new hpresent hnew => (withinTolerance_iff h.le).2 (.inr ?_)⟩
  calc (new : ℝ) ≤ x (n + 1) := by exact_mod_cast hnew
    _ ≤ ⨆ n, (x n : ℝ) := hle (n + 1)
    _ = Real.exp tolerance * (Real.exp (-tolerance) * ⨆ n, (x n : ℝ)) := by
        rw [← mul_assoc, ← Real.exp_add, add_neg_cancel, Real.exp_zero, one_mul]
    _ ≤ Real.exp tolerance * present :=
        mul_le_mul_of_nonneg_left (hN.le.trans (by exact_mod_cast (hmono hn).trans hpresent))
          (Real.exp_pos tolerance).le

/-- Settings are accepted only with a positive tolerance. -/
theorem CommandLine.tolerance_pos {files : Files} {c : ProveCommand} {settings : Settings}
    (h : loadSettings files c = .ok settings) : 0 < weightOf settings.tolerance := by
  obtain ⟨checked, h⟩ : ∃ checked, checkSettings checked = .ok settings := by
    unfold loadSettings at h
    split at h
    · obtain ⟨s, -, h⟩ := bind_eq_ok_iff.1 h
      exact ⟨_, h⟩
    · exact ⟨_, h⟩
  unfold checkSettings at h
  split at h
  · cases h
  · next htolerance =>
      split at h
      · cases h
      · cases h
        rw [Bool.or_eq_true, not_or, Bool.not_eq_true', Bool.not_eq_false, decide_eq_true_iff]
          at htolerance
        exact weightOf_pos htolerance.1 htolerance.2

namespace Session

variable {σ : Type} {M : Model σ} {I : σ → Prop} {expand : Expander}

/-- The run over the components of a session that can be reached ends. -/
theorem Reachable.exists_runs (hM : M.Lawful I expand) {settled : ℚ → ℚ → Bool}
    (hsettled : System.Tolerates settled) {s s' : Session σ} (hs : Reachable M I s)
    {system : System ℚ}
    (hsystem : (Session.system M (exactArithmetic settled)).run s = (.ok system, s')) :
    ∃ turns last, s.Runs (exactArithmetic settled) system turns last := by
  have hsound := hs.sound hM
  obtain ⟨-, hequations⟩ := (system_ends hM hsound settled).of_run_ok hsystem
  obtain ⟨pls, hpls⟩ := exists_forall₂ fun e he =>
    hsound.coherent.exists_reads (hsound.recorded e he).label
  have hascends := ascends_bounds hsound hpls hequations
  refine System.exists_runs hsettled hascends (fun n i => ?_) s.graph (k := 0) (fun i => ?_)
    fun c hc i hi => ?_
  · unfold bounds
    cases pls[i]? with
    | none => exact zero_le_one
    | some pl => exact pl.truthWithin_le_one expand _
  · rw [System.valueAt_start]
    exact ⟨le_rfl, hascends.nonneg 0 i⟩
  · rw [Array.size_replicate, ← size_graph_eq_system hsystem]
    exact s.proper_graph.mem_components.1 (List.mem_flatten.2 ⟨c, List.mem_reverse.1 hc, hi⟩)

/-- The settings are what they were. -/
def SameSettings (s s' : Session σ) : Prop := s'.settings = s.settings

instance : Std.Refl (SameSettings (σ := σ)) := ⟨fun _ => rfl⟩

instance : IsTrans (Session σ) SameSettings := ⟨fun _ _ _ h h' => h'.trans h⟩

theorem sameSettings_frame (M : Model σ) : Frame id M M SameSettings where
  toExternal _ _ := rfl
  isEqual _ _ _ _ := rfl
  keeps_toExternal _ _ := rfl
  keeps_isEqual _ _ _ _ := rfl
  canonicalOf _ _ _ _ _ := rfl
  bindings _ _ := rfl
  records _ _ _ := rfl

theorem keeps_settings (ps : List Proof) : (expandAll M ps).Keeps SameSettings := by
  refine ((sameSettings_frame M).expandAll (fun c _ _ s => ⟨?_, rfl⟩) ps).keeps
  rw [run_distribution]
  cases s.expansions.lookup c with
  | some e => rfl
  | none => rcases (M.getDistribution c).run s.world with ⟨f | e, w⟩ <;> rfl

end Session

open Session

/-- Over a model that keeps its promises, with settings that are accepted and bound no passes: once
the proofs are expanded, whatever system is read from the session, all its components are solved
after finitely many passes each. So there is a limit from which on the evaluation ends with one and
the same answer. -/
theorem Model.evaluate_ends {σ : Type} {M : Model σ} {I : σ → Prop} {expand : Expander}
    (hM : M.Lawful I expand) {files : Files} {c : ProveCommand} {settings : Settings}
    (hload : loadSettings files c = .ok settings) (hpasses : settings.maxPasses = none)
    {proofs : List Proof} {world : σ} (hw : I world) {s : Session σ}
    (hexpand : (expandAll M proofs).run (start settings world) = (.ok (), s)) :
    (∀ system s', (Session.system M (exactArithmetic
        (withinTolerance (weightOf settings.tolerance : ℝ)))).run s = (.ok system, s') →
      ∃ turns last, s.Runs (exactArithmetic (withinTolerance (weightOf settings.tolerance : ℝ)))
        system turns last) ∧
    ∃ limit answer, ∀ limit', limit ≤ limit' →
      M.evaluate (exactArithmetic (withinTolerance (weightOf settings.tolerance : ℝ))) settings
        limit' proofs world = some answer := by
  have htolerance : (0 : ℝ) < weightOf settings.tolerance := by
    exact_mod_cast CommandLine.tolerance_pos hload
  have hreach : Reachable M I s := Reachable.forM_expand (.start settings hw) hexpand
  have hruns : ∀ system s', (Session.system M (exactArithmetic
      (withinTolerance (weightOf settings.tolerance : ℝ)))).run s = (.ok system, s') →
      ∃ turns last, s.Runs _ system turns last := fun system s' hsystem =>
    hreach.exists_runs hM (tolerates_withinTolerance htolerance) hsystem
  refine ⟨hruns, ?_⟩
  have hbudget : s.settings.maxPasses = none := by
    rw [show s.settings = settings from (keeps_settings proofs).of_run hexpand, hpasses]
  simp only [Model.evaluate_eq, hexpand, conclude_eq]
  rcases hsystem : (Session.system M (exactArithmetic
    (withinTolerance (weightOf settings.tolerance : ℝ)))).run s with ⟨f | system, s'⟩
  · exact ⟨0, (.error f, s'.world), fun _ _ => rfl⟩
  · obtain ⟨turns, last, hrun⟩ := hruns system s' hsystem
    have hwithin := System.within_totalPasses s.graph turns
    refine ⟨System.totalPasses turns, (.ok (s.sort.results last (System.totalPasses turns)),
      s'.world), fun limit hlimit => ?_⟩
    simp only [hbudget]
    rw [System.solve_of_runs hrun hwithin hlimit fun k hk => absurd hk (Option.not_mem_none k)]
    rfl

/-- Tossing until tails settles under the settings of a command that names none. -/
theorem untilTails_ends : ∃ turns last,
    untilTails.expanded.Runs
      (exactArithmetic (withinTolerance (weightOf Settings.standard.tolerance : ℝ)))
      untilTails.system turns last ∧
    ∃ limit answer, ∀ limit', limit ≤ limit' → untilTails.model.evaluate
      (exactArithmetic (withinTolerance (weightOf Settings.standard.tolerance : ℝ))) .standard
      limit' untilTails.proofs Library.truths = some answer := by
  have hload : loadSettings (fun _ => .error "missing")
      ⟨"model", "proofs", none, none, none, "text"⟩ = .ok .standard := by decide +kernel
  have hexpand : (expandAll untilTails.model untilTails.proofs).run
      (start .standard Library.truths) = (.ok (), untilTails.expanded) := by
    refine Prod.ext (by decide +kernel) ?_
    rw [untilTails.expanded]
  have hsystem : ((Session.system untilTails.model
      (exactArithmetic (withinTolerance (weightOf Settings.standard.tolerance : ℝ)))).run
      untilTails.expanded).1 = .ok untilTails.system := by decide +kernel
  obtain ⟨hruns, hends⟩ :=
    Model.evaluate_ends untilTails.lawful hload rfl Library.truths_holds hexpand
  rcases hr : (Session.system untilTails.model
    (exactArithmetic (withinTolerance (weightOf Settings.standard.tolerance : ℝ)))).run
    untilTails.expanded with ⟨answer, s'⟩
  rw [hr] at hsystem
  obtain rfl : answer = .ok untilTails.system := hsystem
  obtain ⟨turns, last, hrun⟩ := hruns untilTails.system s' hr
  exact ⟨turns, last, hrun, hends⟩

end ChanceProof
