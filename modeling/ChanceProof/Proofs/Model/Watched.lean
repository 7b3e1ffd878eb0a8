import ChanceProof.Line.Command
import ChanceProof.Proofs.Model.Logged
import ChanceProof.Proofs.Model.Shown

/-!
# Requests that a guard hands on

A guard before a model answers some requests by itself: calls that are open or primitive, changes of
a count by zero, and comparisons of a handle with itself. A client that works over any model, and
makes only the other requests, cannot tell whether there is a guard. That it makes no others is said
in two ways. Over `Model.watched`, which keeps a list of all requests, only such are listed; and
what models do with the others makes no difference (`Client.Discreet`).

Both follow when runs over two models show each other as soon as their answers to the requests that
are handed on do (`Client.Uniform.discreet`): a model with a list shows the model without it, and
any other that agrees with it on these requests.
-/

namespace ChanceProof

/-- A guard hands the request on to the model. -/
def Command.Passes : Command → Prop
  | .getDistribution c => c.isGrounded = true ∧ c.isPrimitive = false
  | .modifyCount _ delta => delta ≠ 0
  | .fromExternal _ | .toExternal _ => True
  | .isEqual a b => a ≠ b

namespace Model

variable {σ τ : Type}

/-- The models do the same at the requests that a guard hands on. -/
structure Agrees (M N : Model σ) : Prop where
  getDistribution : ∀ {c}, (Command.getDistribution c).Passes →
    M.getDistribution c = N.getDistribution c
  modifyCount : ∀ {h delta}, (Command.modifyCount h delta).Passes →
    M.modifyCount h delta = N.modifyCount h delta
  toExternal : ∀ h, M.toExternal h = N.toExternal h
  fromExternal : ∀ v, M.fromExternal v = N.fromExternal v
  isEqual : ∀ {a b}, (Command.isEqual a b).Passes → M.isEqual a b = N.isEqual a b

theorem Agrees.refl (M : Model σ) : M.Agrees M :=
  ⟨fun _ => rfl, fun _ => rfl, fun _ => rfl, fun _ => rfl, fun _ => rfl⟩

/-- A guard hands on what passes it. -/
theorem agrees_checked (M : Model σ) : M.Agrees M.checked where
  getDistribution {c} h := by
    have hrefusal : refusal? c = none := by simp [refusal?, h.1, h.2]
    simp only [checked, hrefusal]
  modifyCount h := (if_neg h).symm
  toExternal _ := rfl
  fromExternal _ := rfl
  isEqual h := (if_neg h).symm

/-- At the requests that a guard hands on, the first model shows the second one. -/
structure Serves (view : σ → τ) (R : σ → σ → Prop) (M : Model σ) (N : Model τ) : Prop where
  getDistribution : ∀ {c}, (Command.getDistribution c).Passes →
    Action.Shows view R (M.getDistribution c) (N.getDistribution c)
  modifyCount : ∀ {h delta}, (Command.modifyCount h delta).Passes →
    Action.Shows view R (M.modifyCount h delta) (N.modifyCount h delta)
  toExternal : ∀ h, Action.Shows view R (M.toExternal h) (N.toExternal h)
  fromExternal : ∀ v, Action.Shows view R (M.fromExternal v) (N.fromExternal v)
  isEqual : ∀ {a b}, (Command.isEqual a b).Passes →
    Action.Shows view R (M.isEqual a b) (N.isEqual a b)

end Model

/-! ## A list of all requests -/

/-- The operation, with the request for it put on the list. -/
def Action.watched {σ α : Type} (c : Command) (a : Action σ α) : Action (σ × List Command) α := do
  modify fun s => (s.1, s.2 ++ [c])
  a.beside

/-- The model with a list of all requests that were made, whatever became of them. -/
def Model.watched {σ : Type} (M : Model σ) : Model (σ × List Command) where
  getDistribution c := (M.getDistribution c).watched (.getDistribution c)
  modifyCount h delta := (M.modifyCount h delta).watched (.modifyCount h delta)
  toExternal h := (M.toExternal h).watched (.toExternal h)
  fromExternal v := (M.fromExternal v).watched (.fromExternal v)
  isEqual a b := (M.isEqual a b).watched (.isEqual a b)

/-- If only requests that pass were on the list, that is still so. -/
def StaysPassing {σ : Type} (s s' : σ × List Command) : Prop :=
  (∀ c ∈ s.2, c.Passes) → ∀ c ∈ s'.2, c.Passes

section

variable {σ τ α β : Type}

instance : Std.Refl (StaysPassing (σ := σ)) := ⟨fun _ h => h⟩

instance : IsTrans (σ × List Command) StaysPassing := ⟨fun _ _ _ h h' hs => h' (h hs)⟩

theorem shows_watched {c : Command} (hc : c.Passes) {a b : Action σ α} (h : a = b) :
    Action.Shows Prod.fst StaysPassing (a.watched c) b := by
  subst h
  refine fun s => ⟨fun hs d hd => ?_, rfl⟩
  rcases List.mem_append.1 hd with hd | hd
  · exact hs d hd
  · exact List.mem_singleton.1 hd ▸ hc

theorem Model.Agrees.serves {M N : Model σ} (h : M.Agrees N) :
    Model.Serves Prod.fst StaysPassing M.watched N where
  getDistribution hc := shows_watched hc (h.getDistribution hc)
  modifyCount hc := shows_watched hc (h.modifyCount hc)
  toExternal a := shows_watched (c := .toExternal a) trivial (h.toExternal a)
  fromExternal v := shows_watched (c := .fromExternal v) trivial (h.fromExternal v)
  isEqual hc := shows_watched hc (h.isEqual hc)

/-! ## Clients of any model -/

/-- What is done over any model. It need not end, and if it does there is an outcome and a state. -/
abbrev Client (β : Type) := ∀ σ : Type, Model σ → σ → Option (β × σ)

namespace Client

/-- The client makes only requests that a guard hands on. -/
structure Discreet (p : Client β) : Prop where
  /-- It has the same outcome when all its requests are listed, and each of them passes. -/
  requests : ∀ {σ : Type} {M : Model σ} {w w' : σ} {x : β}, p σ M w = some (x, w') →
    ∃ asked, p _ M.watched (w, []) = some (x, (w', asked)) ∧ ∀ c ∈ asked, c.Passes
  /-- What a model does with other requests makes no difference, even where it does not end. -/
  indifferent : ∀ {σ : Type} {M N : Model σ}, M.Agrees N → ∀ w, p σ M w = p σ N w
  /-- So it is the same with a guard and without. -/
  guarded : ∀ {σ : Type} (M : Model σ) (w : σ), p σ M.checked w = p σ M w

/-- Over models of which one shows the other, runs of the client do so. -/
def Uniform (p : Client β) : Prop :=
  ∀ {σ τ : Type} {view : σ → τ} {R : σ → σ → Prop} [Std.Refl R] [IsTrans σ R] {M : Model σ}
    {N : Model τ}, M.Serves view R N → ∀ w, match p σ M w with
      | none => p τ N (view w) = none
      | some (x, w') => R w w' ∧ p τ N (view w) = some (x, view w')

theorem Uniform.discreet {p : Client β} (hp : p.Uniform) : p.Discreet := by
  have hsame : ∀ {σ : Type} {M N : Model σ}, M.Agrees N → ∀ w, p σ M w = p σ N w := by
    intro σ M N h w
    have hM := hp (Model.Agrees.refl M).serves (w, [])
    have hN := hp h.serves (w, [])
    rcases hr : p _ M.watched (w, []) with _ | ⟨x, s⟩ <;> rw [hr] at hM hN
    · exact hM.trans hN.symm
    · exact hM.2.trans hN.2.symm
  refine ⟨fun {σ M w w' x} hr => ?_, hsame, fun M w => (hsame M.agrees_checked w).symm⟩
  have hM := hp (Model.Agrees.refl M).serves (w, [])
  rcases hwatched : p _ M.watched (w, []) with _ | ⟨y, s⟩ <;> rw [hwatched] at hM
  · exact nomatch hM.symm.trans hr
  · obtain ⟨hpass, hM⟩ := hM
    cases hM.symm.trans hr
    exact ⟨s.2, rfl, hpass fun _ h => absurd h List.not_mem_nil⟩

variable {ε : Type}

/-- A client that may fail. The failure is its outcome. -/
def running (x : ∀ σ : Type, Model σ → ExceptT ε (StateT σ Option) α) : Client (Except ε α) :=
  fun σ M w => x σ M w

/-- A client that draws with these random words. The words that are left are part of its
outcome. -/
def drawing (x : ∀ σ : Type, Model σ → ExceptT ε (StateT (σ × Randomness) Option) α)
    (r : Randomness) : Client (Except ε α × Randomness) := fun σ M w =>
  (x σ M (w, r)).map fun y => ((y.1, y.2.2), y.2.1)

theorem running_discreet {x : ∀ σ : Type, Model σ → ExceptT ε (StateT σ Option) α}
    (hx : ∀ {σ τ : Type} {view : σ → τ} {R : σ → σ → Prop} [Std.Refl R] [IsTrans σ R]
      {M : Model σ} {N : Model τ}, M.Serves view R N → Run.Shows view R (x σ M) (x τ N)) :
    (running x).Discreet := by
  refine Uniform.discreet fun {σ τ view R _ _ M N} hS w => ?_
  have hs := hx hS w
  unfold running
  rcases hr : x σ M w with _ | ⟨y, w'⟩ <;> rw [hr] at hs <;> exact hs

theorem drawing_discreet {x : ∀ σ : Type, Model σ → ExceptT ε (StateT (σ × Randomness) Option) α}
    (hx : ∀ {σ τ : Type} {view : σ → τ} {R : σ → σ → Prop} [Std.Refl R] [IsTrans σ R]
      {M : Model σ} {N : Model τ}, M.Serves view R N → Draw.Shows view R (x σ M) (x τ N))
    (r : Randomness) : (drawing x r).Discreet := by
  refine Uniform.discreet fun {σ τ view R _ _ M N} hS w => ?_
  have hs := hx hS (w, r)
  have hview : Prod.map view id (w, r) = (view w, r) := rfl
  rw [hview] at hs
  unfold drawing
  rcases hr : x σ M (w, r) with _ | ⟨y, w', r'⟩ <;> rw [hr] at hs
  · rw [hs]
    rfl
  · rw [hs.2]
    exact ⟨hs.1, rfl⟩

/-- A guard changes nothing about a draw that makes only requests that it hands on. -/
theorem eq_of_drawing_discreet
    {x : ∀ σ : Type, Model σ → ExceptT ε (StateT (σ × Randomness) Option) α}
    (hx : ∀ r, (drawing x r).Discreet) {σ : Type} (M : Model σ) : x σ M.checked = x σ M := by
  funext ⟨w, r⟩
  refine Option.map_injective (fun y z h => ?_) ((hx r).guarded M w)
  exact Prod.ext (congrArg (·.1.1) h) (Prod.ext (congrArg (·.2) h) (congrArg (·.1.2) h))

end Client

end

end ChanceProof
