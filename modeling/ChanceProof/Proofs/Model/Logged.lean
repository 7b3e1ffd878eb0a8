import ChanceProof.Proofs.Model.Contract

/-!
# Models with a log

`Model.logged` is a model that also keeps a list of the requests for distributions that it has
answered, by the forms of their arguments. It answers as the model does, so it keeps the same
promises: `Model.Meets.logged`.
-/

namespace ChanceProof

/-- A call that a model is asked about, by the forms of its arguments. -/
structure Request where
  function : String
  arguments : List Json
deriving DecidableEq

/-- The operation on the first of two states, beside the second one. -/
def Action.beside {σ α β : Type} (a : Action σ α) : Action (σ × β) α := fun s =>
  ((a.run s.1).1, ((a.run s.1).2, s.2))

theorem Action.run_beside {σ α β : Type} (a : Action σ α) (s : σ × β) :
    (a.beside).run s = ((a.run s.1).1, ((a.run s.1).2, s.2)) := rfl

namespace Model

variable {σ : Type}

/-- The model with a log of the requests that were answered. -/
def logged (M : Model σ) : Model (σ × List Request) where
  getDistribution c := do
    let request : Request := ⟨c.function, M.formsOf (← get).1 c.handles⟩
    let e ← (M.getDistribution c).beside
    modify fun s => (s.1, s.2 ++ [request])
    return e
  modifyCount h delta := (M.modifyCount h delta).beside
  toExternal h := (M.toExternal h).beside
  fromExternal v := (M.fromExternal v).beside
  isEqual a b := (M.isEqual a b).beside

theorem run_logged (M : Model σ) (c : Call) (s : σ × List Request) :
    (M.logged.getDistribution c).run s = match (M.getDistribution c).run s.1 with
      | (.error f, w) => (.error f, (w, s.2))
      | (.ok e, w) => (.ok e, (w, s.2 ++ [⟨c.function, M.formsOf s.1 c.handles⟩])) := by
  unfold logged
  rw [Action.run_bind_of_ok (Action.run_get s), Action.run_bind, Action.run_beside]
  rcases (M.getDistribution c).run s.1 with ⟨f | e, w⟩
  · rfl
  · rfl

@[simp] theorem form?_logged (M : Model σ) (s : σ × List Request) (h : Handle) :
    M.logged.form? s h = M.form? s.1 h := by
  have hrun : (M.logged.toExternal h).run s
      = (((M.toExternal h).run s.1).1, (((M.toExternal h).run s.1).2, s.2)) := rfl
  unfold form?
  rw [hrun]
  rcases (M.toExternal h).run s.1 with ⟨f | v, w⟩
  · rfl
  · rfl

variable {M : Model σ} {I : σ → Prop} {expand : Expander} {E : Json → Json → Prop}

theorem later_logged {s s' : σ × List Request} (h : M.Later I s.1 s'.1) :
    M.logged.Later (fun s => I s.1) s s' := fun hs =>
  ⟨(h hs).1, fun a v ha => by
    rw [form?_logged] at ha ⊢
    exact (h hs).2 a v ha⟩

/-- A model with a log keeps the promises of the model. -/
theorem Meets.logged (hM : M.Meets I expand E) : M.logged.Meets (fun s => I s.1) expand E where
  toExternal_later h s := later_logged (hM.toExternal_later h s.1)
  isEqual_later a b s := later_logged (hM.isEqual_later a b s.1)
  getDistribution_later c s := by
    have hlater := hM.getDistribution_later c s.1
    rw [run_logged]
    rcases hr : (M.getDistribution c).run s.1 with ⟨f | e, w⟩ <;> rw [hr] at hlater
    · exact later_logged hlater
    · exact later_logged hlater
  isEqual_iff := by
    intro s s' a b t hs hr
    simp only [form?_logged]
    have hrun : ((M.isEqual a b).run s.1).1 = .ok t := congrArg Prod.fst hr
    exact hM.isEqual_iff hs (Prod.ext hrun rfl)
  isEqual_answers := by
    intro s a b v w hs ha hb
    rw [form?_logged] at ha hb
    obtain ⟨t, s', hr⟩ := hM.isEqual_answers hs ha hb
    refine ⟨t, (s', s.2), ?_⟩
    show ((M.isEqual a b).beside).run s = _
    rw [Action.run_beside, hr]
  getDistribution_cases := by
    intro s c hs' vs hs hc hpar hforms
    simp only [Model.Forms, form?_logged] at hforms
    rcases hM.getDistribution_cases hs hc hpar hforms with
      ⟨e, w, sk, hr, hsk, hreads⟩ | ⟨f, f', w, hr, hsk⟩
    · refine .inl ⟨e, _, sk, by rw [run_logged, hr], hsk, hreads.mono fun h v hv => ?_⟩
      rw [form?_logged]
      exact hv
    · exact .inr ⟨f, f', _, by rw [run_logged, hr], hsk⟩

end Model

end ChanceProof
