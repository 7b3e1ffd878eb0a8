import ChanceProof.Proofs.Probability.Landing
import ChanceProof.Proofs.Sampling.Refinement

/-!
# What a draw goes through

`Model.sampleRecorded` draws as `Model.sample` does and keeps a record of the calls of compound
functions that it completed, in the order in which they were completed: `erases_sampleRecorded`. An
occurrence of a call in the record says what was returned for which arguments and what the variables
of the call's distribution were bound to, all of it by forms, since the objects may be gone later.
-/

namespace ChanceProof

/-- A call of a compound function that was completed. -/
structure Occurrence where
  label : PortableLabel
  /-- The variables of the call's distribution in their order. -/
  mapping : List (String × Json)
deriving DecidableEq

/-- All objects in an occurrence. -/
def Occurrence.values (o : Occurrence) : List Json :=
  o.label.parameters ++ o.label.result ++ o.mapping.map (·.2)

/-! ## Drawing on record -/

namespace Model

variable {σ : Type} (M : Model σ)

/-- The walk, what the variables of its assignments were bound to, and the calls completed. -/
def recordAssignments (draw : Call → Draw σ (List Handle × List Occurrence)) :
    Walk → List (Assignment × List Nat) → Draw σ (Walk × List (String × Json) × List Occurrence)
  | w, [] => return (w, [], [])
  | w, (a, uses) :: rest => do
    let call ← (w.resolveCall a.call).mapError Defect.failure
    let (results, inner) ← draw call
    let w ← (w.bind (results.map .literal)).mapError Defect.failure
    let bound := a.names.zip (M.formsOf (← get).1 results)
    Draw.ask (M.settleUses (results.zip uses))
    let (w, later, log) ← recordAssignments draw w rest
    return (w, bound ++ later, inner ++ log)

def recordDistribution (draw : Call → Draw σ (List Handle × List Occurrence)) (d : Distribution) :
    Draw σ (List Handle × List (String × Json) × List Occurrence) := do
  let (w, bound, log) ← M.recordAssignments draw (.start d) (d.assignments.zip d.useCounts)
  let results ← w.resolveResult.mapError Defect.failure
  let handles ← results.mapM fun v => liftM (resultHandle v)
  return (handles, bound, log)

/-- Draw an outcome of a call, with the calls of compound functions that were completed. -/
def sampleRecorded : (depth : Nat) → Call → Draw σ (List Handle × List Occurrence)
  | 0, _ => Run.unfinished
  | depth + 1, c =>
    if c.isPrimitive then return ([← M.sampleCoin c], [])
    else do
      let arguments := M.formsOf (← get).1 c.handles
      let e ← Draw.ask (M.getDistribution c)
      Draw.ask (c.handles.forM fun h => M.modifyCount h (-1))
      let (results, bound, log) ← M.recordDistribution (sampleRecorded depth) e.distribution
      let label := ⟨c.function, arguments, M.formsOf (← get).1 results⟩
      return (results, log ++ [⟨label, bound⟩])

end Model

/-- Without what is told beside its value, the first draw is the second one. -/
def Draw.Erases {σ α β : Type} (a : Draw σ (α × β)) (b : Draw σ α) : Prop :=
  ∀ s, b s = (a s).map fun x => (x.1.map Prod.fst, x.2)

namespace Draw.Erases

variable {σ α β γ δ : Type}

theorem pure (x : α) (y : β) : Erases (σ := σ) (Pure.pure (x, y)) (Pure.pure x) := fun _ => rfl

theorem bind {a : Draw σ (α × β)} {b : Draw σ α} {f : α × β → Draw σ (γ × δ)} {g : α → Draw σ γ}
    (h : a.Erases b) (hf : ∀ x y, (f (x, y)).Erases (g x)) : Draw.Erases (a >>= f) (b >>= g) := by
  intro s
  rw [Run.bind_apply, Run.bind_apply, h s]
  rcases a s with _ | ⟨_ | x, s'⟩
  · rfl
  · rfl
  · exact hf x.1 x.2 s'

theorem bind_same {a : Draw σ α} {f : α → Draw σ (γ × δ)} {g : α → Draw σ γ}
    (hf : ∀ x, (f x).Erases (g x)) : Draw.Erases (a >>= f) (a >>= g) := by
  intro s
  rw [Run.bind_apply, Run.bind_apply]
  rcases a s with _ | ⟨_ | x, s'⟩
  · rfl
  · rfl
  · exact hf x s'

/-- Looking at the state is not noticed. -/
theorem get {f : σ × Randomness → Draw σ (α × β)} {b : Draw σ α} (hf : ∀ s, (f s).Erases b) :
    Draw.Erases (MonadState.get >>= f) b :=
  fun s => hf s s

/-- What is told may be rearranged in the end. -/
theorem rearrange {a : Draw σ (α × β)} {b : Draw σ α} {f : α × β → Draw σ (α × γ)} (h : a.Erases b)
    (hf : ∀ x y, (f (x, y)).Erases (Pure.pure x)) : Draw.Erases (a >>= f) b := by
  have hpure := h.bind hf
  rwa [bind_pure] at hpure

theorem tell (a : Draw σ α) (y : β) : Draw.Erases (a >>= fun x => Pure.pure (x, y)) a := by
  intro s
  rw [Run.bind_apply]
  rcases a s with _ | ⟨_ | x, s'⟩ <;> rfl

end Draw.Erases

namespace Model

variable {σ : Type} (M : Model σ)

theorem erases_recordAssignments {draw : Call → Draw σ (List Handle × List Occurrence)}
    {draw' : Call → Draw σ (List Handle)} (h : ∀ c, (draw c).Erases (draw' c)) (w : Walk)
    (steps : List (Assignment × List Nat)) :
    (M.recordAssignments draw w steps).Erases (M.sampleAssignments draw' w steps) := by
  induction steps generalizing w with
  | nil => exact .pure _ _
  | cons step rest ih =>
      obtain ⟨a, uses⟩ := step
      unfold recordAssignments sampleAssignments
      refine .bind_same fun call => .bind (h call) fun results inner => .bind_same fun w' => ?_
      exact .get fun s => .bind_same fun _ => (ih w').rearrange fun _ _ => .pure _ _

theorem erases_recordDistribution {draw : Call → Draw σ (List Handle × List Occurrence)}
    {draw' : Call → Draw σ (List Handle)} (h : ∀ c, (draw c).Erases (draw' c)) (d : Distribution) :
    (M.recordDistribution draw d).Erases (M.sampleDistribution draw' d) := by
  unfold recordDistribution sampleDistribution
  exact .bind (erases_recordAssignments M h _ _) fun w told =>
    .bind_same fun results => .tell _ told

/-- Recording does not change a draw. -/
theorem erases_sampleRecorded (depth : Nat) (c : Call) :
    (M.sampleRecorded depth c).Erases (M.sample depth c) := by
  induction depth generalizing c with
  | zero => exact fun _ => rfl
  | succ depth ih =>
      unfold sampleRecorded sample
      split
      · exact .bind_same fun _ => .pure _ _
      · refine .get fun s => .bind_same fun e => .bind_same fun _ => ?_
        exact (erases_recordDistribution M ih e.distribution).rearrange fun _ _ =>
          .get fun _ => .pure _ _

end Model

end ChanceProof
