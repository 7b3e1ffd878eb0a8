import ChanceProof.Proofs.Json.PrintInjective
import ChanceProof.Proofs.Probability.Expectation
import Mathlib.Algebra.BigOperators.Ring.List
import Mathlib.Algebra.Order.Archimedean.Real.Basic
import Mathlib.Topology.Order.Real

/-!
# The true probability of a label

The probability that a call has just these results is the limit of what it is when calls may go only
so deep: `PortableLabel.truth`.

An execution path has the product of the probabilities of its labels, since each step is a draw of
its own (`mass_of_follows`). Paths of one sketch that differ in a result exclude each other, so the
products of several of them do not add up to more than the probability of what all of them return,
one call deeper: `sum_pathWeight_le`. If all the paths that have any probability are among them,
they do not add up to less either: `truthWithin_le_sum`.
-/

namespace ChanceProof

namespace PortableLabel

/-- The probability that a call going at most `depth` calls deep returns values that print as the
result does. -/
def truthWithin (expand : Expander) (depth : Nat) (l : PortableLabel) : ℚ :=
  (interpret expand depth l.function l.parameters).mass fun vs =>
    vs.map Json.print = l.result.map Json.print

/-- The probability that a call returns values that print as the result does. -/
noncomputable def truth (expand : Expander) (l : PortableLabel) : ℝ :=
  ⨆ depth, (l.truthWithin expand depth : ℝ)

theorem map_print_inj {vs ws : List Json} : vs.map Json.print = ws.map Json.print ↔ vs = ws :=
  (List.map_injective_iff.2 fun _ _ => Json.print_injective).eq_iff

variable (expand : Expander) (depth : Nat) (l : PortableLabel)

theorem truthWithin_eq : l.truthWithin expand depth =
    (interpret expand depth l.function l.parameters).mass (· = l.result) :=
  le_antisymm (Trial.mass_mono _ fun _ => map_print_inj.1)
    (Trial.mass_mono _ fun _ => map_print_inj.2)

theorem truthWithin_nonneg : 0 ≤ l.truthWithin expand depth := Trial.mass_nonneg _

theorem truthWithin_le_one : l.truthWithin expand depth ≤ 1 := Trial.mass_le_one _

end PortableLabel

/-! ## Going deeper -/

theorem Sketch.runSteps_within (sk : Sketch) {draw draw' : String → List Json → Trial (List Json)}
    (h : ∀ f vs, (draw f vs).Within (draw' f vs)) (results : List (List Json)) (steps : List Step) :
    (sk.runSteps draw results steps).Within (sk.runSteps draw' results steps) := by
  induction steps generalizing results with
  | nil => exact .done _
  | cons st steps ih =>
      unfold runSteps
      split
      · exact .refl _
      · refine (h _ _).bind fun result => ?_
        split
        · exact ih _
        · exact .refl _

theorem interpret_within_succ (expand : Expander) (depth : Nat) (f : String) (vs : List Json) :
    (interpret expand depth f vs).Within (interpret expand (depth + 1) f vs) := by
  induction depth generalizing f vs with
  | zero => exact .unfinished _
  | succ depth ih =>
      rw [interpret, interpret]
      split
      · exact .refl _
      · split
        · exact .refl _
        · next sk _ =>
            exact (sk.runSteps_within ih [] sk.steps).bind fun _ => .refl _

namespace PortableLabel

variable {expand : Expander} {l : PortableLabel}

theorem truthWithin_mono : Monotone fun depth => l.truthWithin expand depth :=
  monotone_nat_of_le_succ fun depth =>
    (interpret_within_succ expand depth _ _).expect_le Trial.indicator_nonneg

theorem truthWithin_le_truth (depth : Nat) : (l.truthWithin expand depth : ℝ) ≤ l.truth expand := by
  refine le_ciSup (f := fun depth => (l.truthWithin expand depth : ℝ)) ⟨1, ?_⟩ depth
  rintro _ ⟨depth, rfl⟩
  show (l.truthWithin expand depth : ℝ) ≤ 1
  exact_mod_cast l.truthWithin_le_one expand depth

theorem truth_le_one : l.truth expand ≤ 1 :=
  ciSup_le fun depth => by exact_mod_cast l.truthWithin_le_one expand depth

end PortableLabel

/-! ## Coins -/

/-- The probability that a coin lands as it is said. -/
def coinWeight (p : Float) (landed : Bool) : ℚ := if landed then weightOf p else 1 - weightOf p

theorem coinWeight_nonneg {p : Float} (h : 0 ≤ p ∧ p ≤ 1) (landed : Bool) :
    0 ≤ coinWeight p landed := by
  obtain ⟨hzero, hone⟩ := weightOf_unit h
  cases landed with
  | true => exact hzero
  | false => exact sub_nonneg.2 hone

theorem truthWithin_coin {expand : Expander} {v : Json} {p : Float} (h : probabilityOf v = .ok p)
    (landed : Bool) (depth : Nat) :
    PortableLabel.truthWithin expand (depth + 1) ⟨Call.coinFunction, [v], [.bool landed]⟩
      = coinWeight p landed := by
  rw [PortableLabel.truthWithin_eq]
  simp only
  rw [interpret, if_pos rfl, coinTrial_of_probabilityOf h]
  unfold Trial.mass coinWeight
  simp only [Trial.expect, Trial.indicator, Probability.weight]
  cases landed <;> simp

/-- Nothing but one truth value is ever the result of a coin. -/
theorem exists_landed {expand : Expander} {depth : Nat} {l : PortableLabel}
    (hl : l.function = Call.coinFunction) (h : l.truthWithin expand depth ≠ 0) :
    ∃ landed, l.result = [.bool landed] := by
  cases depth with
  | zero => exact absurd rfl h
  | succ depth =>
      rw [PortableLabel.truthWithin_eq, interpret, if_pos hl] at h
      unfold coinTrial at h
      split at h
      · split at h
        · by_contra hnone
          push Not at hnone
          refine h ?_
          simp [Trial.mass, Trial.expect, Trial.indicator, (hnone _).symm]
        · exact absurd rfl h
      · exact absurd rfl h

/-! ## Paths -/

section

variable (expand : Expander) (depth : Nat)

def pathWeight (labels : List PortableLabel) : ℚ :=
  (labels.map (PortableLabel.truthWithin expand depth)).prod

theorem pathWeight_nil : pathWeight expand depth [] = 1 := rfl

theorem pathWeight_cons (l : PortableLabel) (labels : List PortableLabel) :
    pathWeight expand depth (l :: labels)
      = l.truthWithin expand depth * pathWeight expand depth labels := by
  rw [pathWeight, List.map_cons, List.prod_cons, pathWeight]

theorem pathWeight_nonneg (labels : List PortableLabel) : 0 ≤ pathWeight expand depth labels := by
  induction labels with
  | nil => exact zero_le_one
  | cons l labels ih =>
      rw [pathWeight_cons]
      exact mul_nonneg (l.truthWithin_nonneg expand depth) ih

theorem truthWithin_ne_zero_of_mem {labels : List PortableLabel}
    (h : pathWeight expand depth labels ≠ 0) {l : PortableLabel} (hl : l ∈ labels) :
    l.truthWithin expand depth ≠ 0 := by
  intro hzero
  exact h (List.prod_eq_zero (List.mem_map.2 ⟨l, hl, hzero⟩))

theorem pathWeight_le_one (labels : List PortableLabel) : pathWeight expand depth labels ≤ 1 := by
  induction labels with
  | nil => exact le_refl 1
  | cons l labels ih =>
      rw [pathWeight_cons]
      exact mul_le_one₀ (l.truthWithin_le_one expand depth) (pathWeight_nonneg expand depth labels)
        ih

/-- The probability of the labels of an execution path, one after another. -/
noncomputable def pathTruth (labels : List PortableLabel) : ℝ :=
  ⨆ depth, (pathWeight expand depth labels : ℝ)

theorem pathTruth_ne_zero_iff {labels : List PortableLabel} :
    pathTruth expand labels ≠ 0 ↔ ∃ depth, pathWeight expand depth labels ≠ 0 := by
  constructor
  · intro h
    by_contra hnone
    push Not at hnone
    refine h ?_
    unfold pathTruth
    simp only [hnone, Rat.cast_zero]
    exact ciSup_const
  · rintro ⟨depth, h⟩
    have hpos : (0 : ℝ) < pathWeight expand depth labels := by
      exact_mod_cast lt_of_le_of_ne (pathWeight_nonneg expand depth labels) h.symm
    refine (hpos.trans_le (le_ciSup (f := fun depth => (pathWeight expand depth labels : ℝ))
      ⟨1, ?_⟩ depth)).ne'
    rintro _ ⟨depth, rfl⟩
    show (pathWeight expand depth labels : ℝ) ≤ 1
    exact_mod_cast pathWeight_le_one expand depth labels

/-- The probability of a step's result and of what follows it. -/
theorem mass_runSteps_cons {sk : Sketch} {results : List (List Json)} {st : Step}
    {steps : List Step} {vs : List Json} (hvs : sk.resolveAll results st.parameters = some vs)
    (outcome : List (List Json)) :
    (sk.runSteps (interpret expand depth) results (st :: steps)).mass (· = outcome) =
      (interpret expand depth st.function vs).expect fun r =>
        if st.names.length = r.length then
          (sk.runSteps (interpret expand depth) (results ++ [r]) steps).mass (· = outcome)
        else 0 := by
  unfold Trial.mass
  rw [Sketch.runSteps]
  simp only [hvs]
  rw [Trial.expect_bind]
  congr 1
  funext r
  split <;> rfl

/-- Steps that may bind these results follow a path. -/
theorem exists_follows {sk : Sketch} {results outcome : List (List Json)} {steps : List Step}
    (h : (sk.runSteps (interpret expand depth) results steps).mass (· = outcome) ≠ 0) :
    ∃ labels, sk.Follows results steps labels ∧ outcome = results ++ labels.map (·.result) := by
  induction steps generalizing results with
  | nil =>
      refine ⟨[], trivial, ?_⟩
      rw [List.map_nil, List.append_nil]
      by_contra hne
      exact h (if_neg fun heq => hne heq.symm)
  | cons st steps ih =>
      cases hvs : sk.resolveAll results st.parameters with
      | none =>
          rw [Sketch.runSteps, hvs] at h
          exact absurd rfl h
      | some vs =>
          rw [mass_runSteps_cons expand depth hvs] at h
          obtain ⟨r, hr⟩ := Trial.exists_of_expect_ne_zero h
          split at hr
          · next hlen =>
              obtain ⟨labels, hfollows, houtcome⟩ := ih hr
              refine ⟨⟨st.function, vs, r⟩ :: labels, ⟨rfl, hvs, hlen.symm, hfollows⟩, ?_⟩
              rw [houtcome, List.append_assoc]
              rfl
          · exact absurd rfl hr

/-- Steps are taken along a path with the product of the probabilities of its labels. -/
theorem mass_of_follows {sk : Sketch} {results : List (List Json)} {steps : List Step}
    {labels : List PortableLabel} (h : sk.Follows results steps labels) :
    (sk.runSteps (interpret expand depth) results steps).mass
      (· = results ++ labels.map (·.result)) = pathWeight expand depth labels := by
  induction steps generalizing results labels with
  | nil =>
      cases labels with
      | nil =>
          rw [List.map_nil, List.append_nil]
          exact if_pos rfl
      | cons l labels => exact h.elim
  | cons st steps ih =>
      cases labels with
      | nil => exact h.elim
      | cons l labels =>
          obtain ⟨hfun, hpar, hlen, hrest⟩ := h
          -- The result of the step is part of the outcome, so any other one misses it.
          have hother : ∀ r, r ≠ l.result → (if st.names.length = r.length then
              (sk.runSteps (interpret expand depth) (results ++ [r]) steps).mass
                (· = results ++ (l :: labels).map (·.result)) else 0) = 0 := by
            intro r hr
            split
            · by_contra hne
              obtain ⟨labels', -, houtcome⟩ := exists_follows expand depth hne
              rw [List.append_assoc, List.append_cancel_left_eq] at houtcome
              exact hr (List.cons.inj houtcome).1.symm
            · rfl
          have hih := ih hrest
          rw [List.append_assoc] at hih
          rw [mass_runSteps_cons expand depth hpar, Trial.expect_single _ hother, if_pos hlen.symm,
            pathWeight_cons, PortableLabel.truthWithin_eq, hfun]
          congr 1

/-- What a call returns is what its steps lead to, one call deeper. -/
theorem truthWithin_succ {l : PortableLabel} (hl : l.function ≠ Call.coinFunction) {sk : Sketch}
    (hsk : expand l.function l.parameters = .ok sk) :
    l.truthWithin expand (depth + 1) = (sk.runSteps (interpret expand depth) [] sk.steps).mass
      fun results => sk.resolveAll results sk.result = some l.result := by
  rw [PortableLabel.truthWithin_eq, interpret, if_neg hl, hsk]
  unfold Trial.mass Sketch.run
  simp only
  rw [Trial.expect_bind]
  congr 1
  funext results
  cases hresults : sk.resolveAll results sk.result with
  | none => simp [Trial.indicator, Trial.expect, hresults]
  | some vs => simp [Trial.indicator, Trial.expect, hresults]

/-- Paths that exclude each other have no more probability together than their common result. -/
theorem sum_pathWeight_le {l : PortableLabel} (hl : l.function ≠ Call.coinFunction) {sk : Sketch}
    (hsk : expand l.function l.parameters = .ok sk) {paths : List (List PortableLabel)}
    (hpaths : ∀ p ∈ paths, sk.Path p l.result)
    (hdiffer : paths.Pairwise fun p q => p.map (·.result) ≠ q.map (·.result)) :
    (paths.map (pathWeight expand depth)).sum ≤ l.truthWithin expand (depth + 1) := by
  have hreturns : ∀ results ∈ paths.map (List.map (·.result)),
      sk.resolveAll results sk.result = some l.result := by
    intro results hresults
    obtain ⟨p, hp, rfl⟩ := List.mem_map.1 hresults
    exact (hpaths p hp).returns
  have hsum := Trial.sum_mass_le (sk.runSteps (interpret expand depth) [] sk.steps)
    (S := fun results => sk.resolveAll results sk.result = some l.result) hreturns
    (List.pairwise_map.2 hdiffer)
  rw [List.map_map] at hsum
  rw [truthWithin_succ expand depth hl hsk]
  refine le_trans (List.sum_le_sum fun p hp => ?_) hsum
  exact (mass_of_follows expand depth (hpaths p hp).follows).ge

/-- A result has no more probability than the paths to it that have any. -/
theorem truthWithin_le_sum {l : PortableLabel} (hl : l.function ≠ Call.coinFunction) {sk : Sketch}
    (hsk : expand l.function l.parameters = .ok sk) {paths : List (List PortableLabel)}
    (hpaths : ∀ p ∈ paths, sk.Path p l.result)
    (hall : ∀ p, sk.Path p l.result → pathWeight expand depth p ≠ 0 → p ∈ paths) :
    l.truthWithin expand (depth + 1) ≤ (paths.map (pathWeight expand depth)).sum := by
  rw [truthWithin_succ expand depth hl hsk]
  refine (Trial.mass_le_sum (paths.map (List.map (·.result))) fun results hresults hmass =>
    ?_).trans ?_
  · obtain ⟨labels, hfollows, rfl⟩ := exists_follows expand depth hmass
    rw [mass_of_follows expand depth hfollows] at hmass
    exact List.mem_map_of_mem (hall labels ⟨hfollows, hresults⟩ hmass)
  · rw [List.map_map]
    exact List.sum_le_sum fun p hp => (mass_of_follows expand depth (hpaths p hp).follows).le

end

end ChanceProof
