import ChanceProof.Sampling.Basic

/-!
# Draws do not depend on their depth

Depth only bounds how far a draw may go. A draw that ended is drawn in the same way when it may go
deeper: `sample_within` says that it has the same outcome, leaves the same store and uses up the
same words, and `sample_unique` that two depths which both suffice agree.
-/

namespace ChanceProof.Model

variable {σ : Type} (M : Model σ)

theorem sampleAssignments_within {draw draw' : Call → Draw σ (List Handle)}
    (h : ∀ c, (draw c).Within (draw' c)) (steps : List (Assignment × List Nat)) (w : Walk) :
    (M.sampleAssignments draw w steps).Within (M.sampleAssignments draw' w steps) := by
  induction steps generalizing w with
  | nil => exact .refl _
  | cons step rest ih =>
    obtain ⟨a, uses⟩ := step
    unfold sampleAssignments
    refine .bind (.refl _) fun call => .bind (h call) fun results => ?_
    exact .bind (.refl _) fun w' => .bind (.refl _) fun _ => ih w'

theorem sampleDistribution_within {draw draw' : Call → Draw σ (List Handle)}
    (h : ∀ c, (draw c).Within (draw' c)) (d : Distribution) :
    (M.sampleDistribution draw d).Within (M.sampleDistribution draw' d) :=
  .bind (sampleAssignments_within M h _ _) fun _ => .refl _

theorem sample_within_succ (depth : Nat) (c : Call) :
    (M.sample depth c).Within (M.sample (depth + 1) c) := by
  induction depth generalizing c with
  | zero => exact Run.unfinished_within _
  | succ depth ih =>
    rw [sample, sample]
    split
    · exact .refl _
    · refine .bind (.refl _) fun e => .bind (.refl _) fun _ => ?_
      exact sampleDistribution_within M ih e.distribution

/-- A draw that ended within some depth ends in the same way within any larger one. -/
theorem sample_within {depth depth' : Nat} (h : depth ≤ depth') (c : Call) :
    (M.sample depth c).Within (M.sample depth' c) := by
  induction h with
  | refl => exact .refl _
  | step _ ih => exact ih.trans (sample_within_succ M _ c)

/-- Two depths that suffice for a draw agree on it. -/
theorem sample_unique {depth depth' : Nat} {c : Call} {s : σ × Randomness}
    {r r' : Except Failure (List Handle) × (σ × Randomness)}
    (h : M.sample depth c s = some r) (h' : M.sample depth' c s = some r') : r = r' := by
  rcases Nat.le_total depth depth' with hle | hle
  · exact Option.some.inj ((sample_within M hle c s r h).symm.trans h')
  · exact Option.some.inj (h.symm.trans (sample_within M hle c s r' h'))

end ChanceProof.Model
