import ChanceProof.Proofs.Model.Action
import ChanceProof.Sampling.Basic
import Mathlib.Order.Basic

/-!
# What is seen of a state

An operation on a state shows another one when that does on what is seen of the state, through
`view`, what the first does on the state: it has the same answer, and what it leaves is seen of what
the first one leaves. Meanwhile the first one keeps a relation between its states. So two models are
compared, and the invariant that one of them keeps is carried along. Operations that are put
together in the same way from operations of which each shows the other show each other:
`Action.Shows` for operations of a model, `Run.Shows` for work that may not end.
-/

namespace ChanceProof

section

variable {σ τ : Type} (f : σ → τ) {R : τ → τ → Prop}

instance preimage_refl [h : Std.Refl R] : Std.Refl (Order.Preimage f R) := ⟨fun s => h.refl (f s)⟩

instance preimage_trans [h : IsTrans τ R] : IsTrans σ (Order.Preimage f R) :=
  ⟨fun _ _ _ => h.trans _ _ _⟩

end

variable {σ τ α β : Type} {view : σ → τ} {R : σ → σ → Prop}

/-! ## Operations of a model -/

/-- The first operation keeps the relation. What it answers and what is seen of the state after it
are the doing of the second one on what was seen before. -/
def Action.Shows (view : σ → τ) (R : σ → σ → Prop) (x : Action σ α) (y : Action τ α) : Prop :=
  ∀ s, R s (x.run s).2 ∧ y.run (view s) = ((x.run s).1, view (x.run s).2)

namespace Action.Shows

variable {x : Action σ α} {y : Action τ α}

theorem keeps (h : Shows view R x y) : x.Keeps R := fun s => (h s).1

theorem run (h : Shows view R x y) {s s' : σ} {r : Except Failure α} (hr : x.run s = (r, s')) :
    y.run (view s) = (r, view s') := by
  have hs := (h s).2
  rwa [hr] at hs

/-- What follows only has to be shown for what the first part can answer. -/
theorem bind_of_ok [htrans : IsTrans σ R] {f : α → Action σ β} {g : α → Action τ β}
    (h : Shows view R x y)
    (hf : ∀ u, (∃ s s', x.run s = (.ok u, s')) → Shows view R (f u) (g u)) :
    Shows view R (x >>= f) (y >>= g) := by
  intro s
  obtain ⟨hkeeps, hy⟩ := h s
  rw [Action.run_bind, Action.run_bind, hy]
  rcases hr : x.run s with ⟨e | u, s'⟩ <;> rw [hr] at hkeeps
  · exact ⟨hkeeps, rfl⟩
  · obtain ⟨hkeeps', hshows⟩ := hf u ⟨s, s', hr⟩ s'
    exact ⟨htrans.trans _ _ _ hkeeps hkeeps', hshows⟩

theorem bind [IsTrans σ R] {f : α → Action σ β} {g : α → Action τ β} (h : Shows view R x y)
    (hf : ∀ u, Shows view R (f u) (g u)) : Shows view R (x >>= f) (y >>= g) :=
  h.bind_of_ok fun u _ => hf u

/-- Both sides may read their states first. -/
theorem get {f : σ → Action σ α} {g : τ → Action τ α}
    (h : ∀ s, Shows view R (f s) (g (view s))) : Shows view R (get >>= f) (get >>= g) :=
  fun s => h s s

variable [hrefl : Std.Refl R]

theorem pure (u : α) : Shows view R (pure u) (pure u) := fun s => ⟨hrefl.refl s, rfl⟩

theorem throw (f : Failure) : Shows view R (throw f : Action σ α) (throw f) := fun s =>
  ⟨hrefl.refl s, rfl⟩

theorem liftM (u : Except Failure α) : Shows view R (liftM u) (liftM u) := fun s => by
  rw [Action.run_liftM, Action.run_liftM]
  exact ⟨hrefl.refl s, rfl⟩

variable [IsTrans σ R]

theorem mapM {f : β → Action σ α} {g : β → Action τ α} (xs : List β)
    (hf : ∀ b, Shows view R (f b) (g b)) : Shows view R (xs.mapM f) (xs.mapM g) := by
  induction xs with
  | nil => exact .pure []
  | cons b xs ih =>
      rw [List.mapM_cons, List.mapM_cons]
      exact (hf b).bind fun u => ih.bind fun us => .pure (u :: us)

theorem forM {f : β → Action σ PUnit} {g : β → Action τ PUnit} (xs : List β)
    (hf : ∀ b, Shows view R (f b) (g b)) : Shows view R (xs.forM f) (xs.forM g) := by
  induction xs with
  | nil => exact .pure PUnit.unit
  | cons b xs ih =>
      rw [List.forM_eq_forM, List.forM_eq_forM, List.forM_cons, List.forM_cons]
      exact (hf b).bind fun _ => ih

end Action.Shows

/-! ## Work that may not end -/

/-- The second computation does on what is seen of a state what the first one does on the state,
which keeps the relation; and it does not end when the first one does not. -/
def Run.Shows {ε : Type} (view : σ → τ) (R : σ → σ → Prop) (x : ExceptT ε (StateT σ Option) α)
    (y : ExceptT ε (StateT τ Option) α) : Prop :=
  ∀ s, match x s with
    | none => y (view s) = none
    | some (r, s') => R s s' ∧ y (view s) = some (r, view s')

namespace Run.Shows

theorem ofAction {x : Action σ α} {y : Action τ α} (h : Action.Shows view R x y) :
    Run.Shows view R (Run.ofAction x) (Run.ofAction y) := fun s =>
  ⟨(h s).1, congrArg some (h s).2⟩

theorem unfinished :
    Run.Shows view R (Run.unfinished : Run σ α) (Run.unfinished : Run τ α) := fun _ => rfl

section

variable {ε : Type} {x : ExceptT ε (StateT σ Option) α} {y : ExceptT ε (StateT τ Option) α}

theorem bind_of_ok [htrans : IsTrans σ R] {f : α → ExceptT ε (StateT σ Option) β}
    {g : α → ExceptT ε (StateT τ Option) β} (h : Run.Shows view R x y)
    (hf : ∀ u, (∃ s s', x s = some (.ok u, s')) → Run.Shows view R (f u) (g u)) :
    Run.Shows view R (x >>= f) (y >>= g) := by
  intro s
  have hs := h s
  rw [Run.bind_apply, Run.bind_apply]
  rcases hx : x s with _ | ⟨e | u, s'⟩ <;> rw [hx] at hs
  · rw [hs]
  · rw [hs.2]
    exact ⟨hs.1, rfl⟩
  · rw [hs.2]
    have hs' := hf u ⟨s, s', hx⟩ s'
    simp only
    rcases hu : f u s' with _ | ⟨r, s''⟩ <;> rw [hu] at hs'
    · exact hs'
    · exact ⟨htrans.trans _ _ _ hs.1 hs'.1, hs'.2⟩

theorem bind [IsTrans σ R] {f : α → ExceptT ε (StateT σ Option) β}
    {g : α → ExceptT ε (StateT τ Option) β} (h : Run.Shows view R x y)
    (hf : ∀ u, Run.Shows view R (f u) (g u)) : Run.Shows view R (x >>= f) (y >>= g) :=
  h.bind_of_ok fun u _ => hf u

variable [hrefl : Std.Refl R]

theorem pure (u : α) : Run.Shows view R (pure u : ExceptT ε (StateT σ Option) α)
    (pure u : ExceptT ε (StateT τ Option) α) := fun s => ⟨hrefl.refl s, rfl⟩

theorem throw (e : ε) : Run.Shows view R (throw e : ExceptT ε (StateT σ Option) α)
    (throw e : ExceptT ε (StateT τ Option) α) := fun s => ⟨hrefl.refl s, rfl⟩

variable [IsTrans σ R]

theorem mapM {f : β → ExceptT ε (StateT σ Option) α} {g : β → ExceptT ε (StateT τ Option) α}
    (xs : List β) (hf : ∀ b, Run.Shows view R (f b) (g b)) :
    Run.Shows view R (xs.mapM f) (xs.mapM g) := by
  induction xs with
  | nil => exact .pure []
  | cons b xs ih =>
      rw [List.mapM_cons, List.mapM_cons]
      exact (hf b).bind fun u => ih.bind fun us => .pure (u :: us)

theorem forM {f : β → ExceptT ε (StateT σ Option) PUnit}
    {g : β → ExceptT ε (StateT τ Option) PUnit} (xs : List β)
    (hf : ∀ b, Run.Shows view R (f b) (g b)) : Run.Shows view R (xs.forM f) (xs.forM g) := by
  induction xs with
  | nil => exact .pure PUnit.unit
  | cons b xs ih =>
      rw [List.forM_eq_forM, List.forM_eq_forM, List.forM_cons, List.forM_cons]
      exact (hf b).bind fun _ => ih

end

variable [hrefl : Std.Refl R]

/-- What follows a check only has to be shown for what passed it. -/
theorem bind_liftM {u : Except Failure α} {f : α → Run σ β} {g : α → Run τ β}
    (h : ∀ a, u = .ok a → Run.Shows view R (f a) (g a)) :
    Run.Shows view R (liftM u >>= f : Run σ β) (liftM u >>= g : Run τ β) := by
  cases u with
  | error e =>
      rw [Run.liftM_error_bind, Run.liftM_error_bind]
      exact .throw e
  | ok a =>
      rw [Run.liftM_ok_bind, Run.liftM_ok_bind]
      exact h a rfl

theorem liftM (u : Except Failure α) :
    Run.Shows view R (liftM u : Run σ α) (liftM u : Run τ α) := fun s => by
  rw [Run.liftM_apply, Run.liftM_apply]
  exact ⟨hrefl.refl s, rfl⟩

end Run.Shows

/-! ## Draws -/

/-- Draws show each other when their models do and they use up the same words. -/
abbrev Draw.Shows (view : σ → τ) (R : σ → σ → Prop) {ε : Type}
    (x : ExceptT ε (StateT (σ × Randomness) Option) α)
    (y : ExceptT ε (StateT (τ × Randomness) Option) α) : Prop :=
  Run.Shows (Prod.map view id) (Order.Preimage Prod.fst R) x y

theorem Run.Shows.ask {x : Action σ α} {y : Action τ α} (h : Action.Shows view R x y) :
    Draw.Shows view R (Draw.ask x) (Draw.ask y) := by
  refine fun s => ⟨(h s.1).1, ?_⟩
  show some ((y.run (view s.1)).1, ((y.run (view s.1)).2, s.2)) = _
  rw [(h s.1).2]
  rfl

theorem Run.Shows.flip [hrefl : Std.Refl R] (p : Float) :
    Draw.Shows view R (Draw.flip p : Draw σ Bool) (Draw.flip p) := fun s => ⟨hrefl.refl s.1, rfl⟩

end ChanceProof
