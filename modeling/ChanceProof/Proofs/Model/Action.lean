import ChanceProof.Model.Basic
import Mathlib.Order.Defs.Unbundled

/-!
# Operations step by step

How an `Action` runs, operation by operation. A run that succeeded is taken apart by the lemmas
`run_bind_ok` and `run_mapM_cons_ok`, in the order in which its parts ran. `Keeps` is about every
run, failing ones included: whatever an operation answers, the states before and after are related.
`Ends` says of a run from one state how it succeeds and how it fails.
-/

namespace ChanceProof

theorem bind_eq_ok_iff {ε α β : Type} {x : Except ε α} {f : α → Except ε β} {y : β} :
    (x >>= f) = .ok y ↔ ∃ a, x = .ok a ∧ f a = .ok y := by
  cases x with
  | error e => exact ⟨fun h => (nomatch h), fun ⟨_, h, _⟩ => (nomatch h)⟩
  | ok a =>
      constructor
      · exact fun h => ⟨a, rfl, h⟩
      · rintro ⟨_, h, h'⟩
        cases h
        exact h'

theorem pure_eq_ok_iff {ε α : Type} {x y : α} : (pure x : Except ε α) = .ok y ↔ x = y := by
  simp [pure, Except.pure]

theorem mapError_ok {ε ε' α : Type} {f : ε → ε'} {x : Except ε α} {y : α} :
    x.mapError f = .ok y ↔ x = .ok y := by
  cases x with
  | error e => exact ⟨fun h => (nomatch h), fun h => (nomatch h)⟩
  | ok a =>
      have hok : (Except.ok a : Except ε α).mapError f = .ok a := rfl
      rw [hok, Except.ok.injEq, Except.ok.injEq]

theorem forM_ok_iff {ε α : Type} {f : α → Except ε Unit} {xs : List α} :
    xs.forM f = .ok () ↔ ∀ x ∈ xs, f x = .ok () := by
  induction xs with
  | nil => simp [pure, Except.pure]
  | cons x xs ih =>
      rw [List.forM_eq_forM, List.forM_cons, List.forall_mem_cons, ← ih]
      cases hx : f x with
      | error e => simp [bind, Except.bind]
      | ok u => simp [bind, Except.bind]

namespace Action

variable {σ α β : Type}

/-! ## What runs do -/

@[simp] theorem run_pure (x : α) (s : σ) : (pure x : Action σ α).run s = (.ok x, s) := rfl

@[simp] theorem run_get (s : σ) : (get : Action σ σ).run s = (.ok s, s) := rfl

@[simp] theorem run_modify (f : σ → σ) (s : σ) :
    (modify f : Action σ Unit).run s = (.ok (), f s) := rfl

@[simp] theorem run_liftM (x : Except Failure α) (s : σ) :
    (liftM x : Action σ α).run s = (x, s) := by
  cases x <;> rfl

theorem liftM_ok_bind (x : α) (f : α → Action σ β) :
    (liftM (.ok x : Except Failure α) >>= f : Action σ β) = f x := rfl

theorem liftM_error_bind (e : Failure) (f : α → Action σ β) :
    (liftM (.error e : Except Failure α) >>= f : Action σ β) = throw e := rfl

theorem run_bind (a : Action σ α) (f : α → Action σ β) (s : σ) :
    (a >>= f).run s = match a.run s with
      | (.ok x, s') => (f x).run s'
      | (.error e, s') => (.error e, s') := by
  simp only [Bind.bind, ExceptT.bind, ExceptT.mk, ExceptT.run, StateT.bind]
  rcases a s with ⟨x | x, s'⟩ <;> rfl

theorem run_bind_of_ok {a : Action σ α} {f : α → Action σ β} {s s' : σ} {x : α}
    (h : a.run s = (.ok x, s')) : (a >>= f).run s = (f x).run s' := by
  rw [run_bind, h]

theorem run_bind_of_error {a : Action σ α} {f : α → Action σ β} {s s' : σ} {e : Failure}
    (h : a.run s = (.error e, s')) : (a >>= f).run s = (.error e, s') := by
  rw [run_bind, h]

theorem run_bind_ok {a : Action σ α} {f : α → Action σ β} {s s'' : σ} {y : β} :
    (a >>= f).run s = (.ok y, s'') ↔
      ∃ x s', a.run s = (.ok x, s') ∧ (f x).run s' = (.ok y, s'') := by
  rw [run_bind]
  rcases h : a.run s with ⟨x | x, s'⟩
  · constructor
    · exact fun h => nomatch congrArg Prod.fst h
    · exact fun ⟨_, _, h, _⟩ => nomatch congrArg Prod.fst h
  · constructor
    · exact fun h => ⟨x, s', rfl, h⟩
    · rintro ⟨_, _, h, h'⟩
      cases h
      exact h'

/-- An answer is only wrapped when there is one. -/
theorem run_wrap_error {a : Action σ α} {wrap : α → β} {s s' : σ} {e : Failure} :
    (do return wrap (← a) : Action σ β).run s = (.error e, s') ↔ a.run s = (.error e, s') := by
  rw [run_bind]
  rcases a.run s with ⟨f | x, t⟩
  · constructor <;> (rintro h; cases h; rfl)
  · constructor <;> (rintro h; cases h)

theorem run_wrap_state (a : Action σ α) (wrap : α → β) (s : σ) :
    ((do return wrap (← a) : Action σ β).run s).2 = (a.run s).2 := by
  rw [run_bind]
  rcases a.run s with ⟨f | x, t⟩ <;> rfl

@[simp] theorem run_pure_ok {x y : α} {s s' : σ} :
    (pure x : Action σ α).run s = (.ok y, s') ↔ x = y ∧ s = s' := by
  rw [run_pure, Prod.mk.injEq, Except.ok.injEq]

@[simp] theorem run_throw_ok {e : Failure} {y : α} {s s' : σ} :
    ¬(throw e : Action σ α).run s = (.ok y, s') :=
  fun h => nomatch congrArg Prod.fst h

theorem run_liftM_ok {x : Except Failure α} {y : α} {s s' : σ} :
    (liftM x : Action σ α).run s = (.ok y, s') ↔ x = .ok y ∧ s = s' := by
  rw [run_liftM, Prod.mk.injEq]

theorem run_mapM_cons_ok {f : α → Action σ β} {x : α} {xs : List α} {ys : List β} {s s'' : σ} :
    ((x :: xs).mapM f).run s = (.ok ys, s'') ↔
      ∃ y s' rest, (f x).run s = (.ok y, s') ∧ (xs.mapM f).run s' = (.ok rest, s'') ∧
        ys = y :: rest := by
  rw [List.mapM_cons, run_bind_ok]
  constructor
  · rintro ⟨y, s', hy, h⟩
    obtain ⟨rest, t, hrest, h⟩ := run_bind_ok.1 h
    obtain ⟨rfl, rfl⟩ := run_pure_ok.1 h
    exact ⟨y, s', rest, hy, hrest, rfl⟩
  · rintro ⟨y, s', rest, hy, hrest, rfl⟩
    exact ⟨y, s', hy, run_bind_ok.2 ⟨rest, s'', hrest, rfl⟩⟩

/-- Operations of which only the effect matters, one after another. -/
theorem run_forM_cons_ok {f : α → Action σ β} {x : α} {xs : List α} {s s'' : σ} :
    ((x :: xs).forM fun x => do let _ ← f x : Action σ Unit).run s = (.ok (), s'') ↔
      ∃ y s', (f x).run s = (.ok y, s') ∧
        (xs.forM fun x => do let _ ← f x : Action σ Unit).run s' = (.ok (), s'') := by
  rw [List.forM_eq_forM, List.forM_cons, run_bind_ok]
  constructor
  · rintro ⟨_, s', hx, hrest⟩
    obtain ⟨y, t, hy, hx⟩ := run_bind_ok.1 hx
    obtain ⟨-, rfl⟩ := run_pure_ok.1 hx
    exact ⟨y, t, hy, hrest⟩
  · rintro ⟨y, s', hy, hrest⟩
    exact ⟨(), s', run_bind_ok.2 ⟨y, s', hy, rfl⟩, hrest⟩

/-- What every operation keeps, they keep one after another. -/
theorem forM_invariant {P : σ → Prop} {f : α → Action σ β}
    (hstep : ∀ s x, P s → P ((f x).run s).2) (xs : List α) {s : σ} (h : P s) :
    P ((xs.forM fun x => do let _ ← f x : Action σ Unit).run s).2 := by
  induction xs generalizing s with
  | nil => exact h
  | cons x xs ih =>
      have hx := hstep s x h
      rw [List.forM_eq_forM, List.forM_cons, run_bind, run_bind]
      rcases hr : (f x).run s with ⟨e | y, s'⟩ <;> rw [hr] at hx
      · exact hx
      · exact ih hx

/-- What every operation keeps that succeeds, they keep if all succeed. -/
theorem forM_invariant_of_ok {P : σ → Prop} {f : α → Action σ β}
    (hstep : ∀ s x y s', P s → (f x).run s = (.ok y, s') → P s') {xs : List α} {s s' : σ} (h : P s)
    (hr : (xs.forM fun x => do let _ ← f x : Action σ Unit).run s = (.ok (), s')) : P s' := by
  induction xs generalizing s with
  | nil =>
      obtain ⟨-, rfl⟩ := run_pure_ok.1 hr
      exact h
  | cons x xs ih =>
      obtain ⟨y, s₁, hx, hr⟩ := run_forM_cons_ok.1 hr
      exact ih (hstep s x y s₁ h hx) hr

theorem run_tryCatch (a : Action σ α) (f : Failure → Action σ α) (s : σ) :
    (tryCatch a f).run s = match a.run s with
      | (.ok x, s') => (.ok x, s')
      | (.error e, s') => (f e).run s' := by
  simp only [tryCatch, tryCatchThe, MonadExceptOf.tryCatch, ExceptT.tryCatch, ExceptT.mk,
    ExceptT.run, Bind.bind, StateT.bind]
  rcases a s with ⟨x | x, s'⟩ <;> rfl

/-! ## What runs keep -/

/-- The states before and after every run are related. -/
def Keeps (R : σ → σ → Prop) (a : Action σ α) : Prop := ∀ s, R s (a.run s).2

section Keeps

variable {R : σ → σ → Prop}

theorem Keeps.of_run {a : Action σ α} (h : a.Keeps R) {s s' : σ} {x : Except Failure α}
    (hr : a.run s = (x, s')) : R s s' := by
  have := h s
  rwa [hr] at this

theorem Keeps.bind [htrans : IsTrans σ R] {a : Action σ α} {f : α → Action σ β} (ha : a.Keeps R)
    (hf : ∀ x, (f x).Keeps R) : (a >>= f).Keeps R := by
  intro s
  rw [run_bind]
  have has := ha s
  rcases h : a.run s with ⟨x | x, s'⟩ <;> rw [h] at has
  · exact has
  · exact htrans.trans _ _ _ has (hf x s')

theorem Keeps.tryCatch [htrans : IsTrans σ R] {a : Action σ α} {f : Failure → Action σ α}
    (ha : a.Keeps R) (hf : ∀ e, (f e).Keeps R) : (tryCatch a f).Keeps R := by
  intro s
  rw [run_tryCatch]
  have has := ha s
  rcases h : a.run s with ⟨x | x, s'⟩ <;> rw [h] at has
  · exact htrans.trans _ _ _ has (hf x s')
  · exact has

variable [hrefl : Std.Refl R]

theorem Keeps.pure (x : α) : (pure x : Action σ α).Keeps R := fun s => hrefl.refl s

theorem Keeps.throw (e : Failure) : (throw e : Action σ α).Keeps R := fun s => hrefl.refl s

theorem Keeps.get : (get : Action σ σ).Keeps R := fun s => hrefl.refl s

theorem Keeps.liftM (x : Except Failure α) : (liftM x : Action σ α).Keeps R := fun s => by
  rw [run_liftM]
  exact hrefl.refl s

theorem Keeps.mapM_mem [IsTrans σ R] {f : α → Action σ β} (xs : List α)
    (hf : ∀ x ∈ xs, (f x).Keeps R) : (xs.mapM f).Keeps R := by
  induction xs with
  | nil => exact .pure []
  | cons x xs ih =>
      obtain ⟨hx, hxs⟩ := List.forall_mem_cons.1 hf
      rw [List.mapM_cons]
      exact hx.bind fun y => (ih hxs).bind fun ys => .pure (y :: ys)

theorem Keeps.mapM [IsTrans σ R] {f : α → Action σ β} (xs : List α) (hf : ∀ x, (f x).Keeps R) :
    (xs.mapM f).Keeps R :=
  .mapM_mem xs fun x _ => hf x

end Keeps

/-! ## What runs end with -/

/-- A run from this state ends with an answer and a state of which `P` holds, or with a failure of
which `F` does. -/
def Ends (P : α → σ → Prop) (F : Failure → Prop) (a : Action σ α) (s : σ) : Prop :=
  match a.run s with
  | (.ok x, s') => P x s'
  | (.error f, _) => F f

section Ends

variable {P : α → σ → Prop} {Q : β → σ → Prop} {F : Failure → Prop} {s : σ}

theorem Ends.cases {a : Action σ α} (h : a.Ends P F s) :
    (∃ x s', a.run s = (.ok x, s') ∧ P x s') ∨ ∃ f s', a.run s = (.error f, s') ∧ F f := by
  unfold Ends at h
  rcases hr : a.run s with ⟨f | x, s'⟩ <;> rw [hr] at h
  · exact .inr ⟨f, s', rfl, h⟩
  · exact .inl ⟨x, s', rfl, h⟩

theorem Ends.of_run_ok {a : Action σ α} (h : a.Ends P F s) {x : α} {s' : σ}
    (hr : a.run s = (.ok x, s')) : P x s' := by
  unfold Ends at h
  rwa [hr] at h

theorem Ends.imp {P' : α → σ → Prop} {a : Action σ α} (h : a.Ends P F s)
    (hP : ∀ x s', P x s' → P' x s') : a.Ends P' F s := by
  unfold Ends at h ⊢
  rcases hr : a.run s with ⟨f | x, s'⟩ <;> rw [hr] at h
  · exact h
  · exact hP x s' h

theorem Ends.imp_failure {F' : Failure → Prop} {a : Action σ α} (h : a.Ends P F s)
    (hF : ∀ f, F f → F' f) : a.Ends P F' s := by
  unfold Ends at h ⊢
  rcases hr : a.run s with ⟨f | x, s'⟩ <;> rw [hr] at h
  · exact hF f h
  · exact h

theorem Ends.of_ok {a : Action σ α} {x : α} {s' : σ} (hr : a.run s = (.ok x, s')) (h : P x s') :
    a.Ends P F s := by
  unfold Ends
  rwa [hr]

theorem Ends.bind {a : Action σ α} {f : α → Action σ β} (ha : a.Ends P F s)
    (hf : ∀ x s', P x s' → (f x).Ends Q F s') : (a >>= f).Ends Q F s := by
  unfold Ends
  rw [run_bind]
  rcases ha.cases with ⟨x, s', hr, hx⟩ | ⟨e, s', hr, he⟩
  · rw [hr]
    exact hf x s' hx
  · rw [hr]
    exact he

theorem Ends.pure {x : α} (h : P x s) : (pure x : Action σ α).Ends P F s := h

theorem Ends.throw {f : Failure} (h : F f) : (throw f : Action σ α).Ends P F s := h

theorem Ends.liftM {x : Except Failure α} (hok : ∀ y, x = .ok y → P y s)
    (herror : ∀ f, x = .error f → F f) : (liftM x : Action σ α).Ends P F s := by
  cases x with
  | ok y => exact hok y rfl
  | error f => exact herror f rfl

theorem Ends.get {P : σ → σ → Prop} (h : P s s) : (get : Action σ σ).Ends P F s := h

end Ends

end Action

/-! ## Runs within a limit -/

namespace Run

variable {σ α β : Type}

section

variable {ε : Type} {a : ExceptT ε (StateT σ Option) α}

theorem bind_apply (a : ExceptT ε (StateT σ Option) α) (f : α → ExceptT ε (StateT σ Option) β)
    (s : σ) : (a >>= f) s = match a s with
      | some (.ok x, s') => f x s'
      | some (.error e, s') => some (.error e, s')
      | none => none := by
  simp only [Bind.bind, ExceptT.bind, ExceptT.mk, StateT.bind]
  rcases a s with _ | ⟨x | x, s'⟩ <;> rfl

theorem bind_ok {f : α → ExceptT ε (StateT σ Option) β} {s s'' : σ} {y : β} :
    (a >>= f) s = some (.ok y, s'') ↔
      ∃ x s', a s = some (.ok x, s') ∧ f x s' = some (.ok y, s'') := by
  rw [bind_apply]
  rcases h : a s with _ | ⟨e | x, s'⟩
  · exact ⟨fun h => (nomatch h), fun ⟨_, _, h, _⟩ => (nomatch h)⟩
  · constructor
    · exact fun h => (nomatch congrArg Prod.fst (Option.some.inj h))
    · exact fun ⟨_, _, h, _⟩ => (nomatch congrArg Prod.fst (Option.some.inj h))
  · constructor
    · exact fun h => ⟨x, s', rfl, h⟩
    · rintro ⟨_, _, h, h'⟩
      cases h
      exact h'

end

theorem liftM_apply (x : Except Failure α) (s : σ) : (liftM x : Run σ α) s = some (x, s) := by
  cases x <;> rfl

theorem liftM_ok {x : Except Failure α} {f : α → Run σ β} {y : α} (h : x = .ok y) (s : σ) :
    (liftM x >>= f : Run σ β) s = f y s := by
  rw [bind_apply, liftM_apply, h]

theorem liftM_error {x : Except Failure α} {f : α → Run σ β} {e : Failure} (h : x = .error e)
    (s : σ) : (liftM x >>= f : Run σ β) s = some (.error e, s) := by
  rw [bind_apply, liftM_apply, h]

theorem liftM_ok_bind (x : α) (f : α → Run σ β) :
    (liftM (.ok x : Except Failure α) >>= f : Run σ β) = f x :=
  funext fun s => liftM_ok rfl s

theorem liftM_error_bind (e : Failure) (f : α → Run σ β) :
    (liftM (.error e : Except Failure α) >>= f : Run σ β) = throw e :=
  funext fun s => liftM_error rfl s

theorem ofAction_bind (a : Action σ α) (f : α → Action σ β) :
    (ofAction a >>= fun x => ofAction (f x)) = ofAction (a >>= f) := by
  funext w
  rw [bind_apply]
  show _ = some ((a >>= f).run w)
  rw [Action.run_bind]
  unfold ofAction
  rcases a.run w with ⟨e | y, w₁⟩
  · rfl
  · rfl

/-- Operations of a model one after another are one operation. -/
theorem mapM_ofAction (f : α → Action σ β) (xs : List α) :
    xs.mapM (fun x => ofAction (f x)) = ofAction (xs.mapM f) := by
  induction xs with
  | nil => rfl
  | cons x xs ih =>
      rw [List.mapM_cons, List.mapM_cons, ih, ← ofAction_bind]
      exact congrArg _ (funext fun y => ofAction_bind _ _)

end Run

end ChanceProof
