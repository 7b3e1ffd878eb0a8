import ChanceProof.Proofs.Model.Action
import Mathlib.Data.List.Forall2

/-!
# Operations in lock step

Two operations on states of different kinds go in lock step when from related states both succeed
with related answers, or both fail with related failures, and the states after them are related
again. `Mirrors` says so of an operation and its mirror image; what the first one does to its own
states besides is a relation `G` that is composed along the way. `Accords` is the same without
states.
-/

namespace ChanceProof

variable {σ τ α β γ δ : Type}

theorem mapM_ok_iff {ε : Type} {f : α → Except ε β} {xs : List α} {ys : List β} :
    xs.mapM f = .ok ys ↔ List.Forall₂ (fun x y => f x = .ok y) xs ys := by
  induction xs generalizing ys with
  | nil =>
      rw [List.mapM_nil, pure_eq_ok_iff, List.forall₂_nil_left_iff]
      exact eq_comm
  | cons x xs ih =>
      rw [List.mapM_cons, bind_eq_ok_iff, List.forall₂_cons_left_iff]
      constructor
      · rintro ⟨y, hy, h⟩
        obtain ⟨rest, hrest, h⟩ := bind_eq_ok_iff.1 h
        exact ⟨y, rest, hy, ih.1 hrest, (pure_eq_ok_iff.1 h).symm⟩
      · rintro ⟨y, rest, hy, hrest, rfl⟩
        exact ⟨y, hy, bind_eq_ok_iff.2 ⟨rest, ih.2 hrest, rfl⟩⟩

/-- Both answers are related, or both failures are. -/
def Accords (F : Failure → Failure → Prop) (R : α → β → Prop) :
    Except Failure α → Except Failure β → Prop
  | .ok u, .ok v => R u v
  | .error f, .error g => F f g
  | _, _ => False

section

variable {F : Failure → Failure → Prop} {R : α → β → Prop} {S : γ → δ → Prop}

theorem Accords.bind {x : Except Failure α} {y : Except Failure β} {f : α → Except Failure γ}
    {g : β → Except Failure δ} (h : Accords F R x y)
    (hf : ∀ u v, R u v → Accords F S (f u) (g v)) : Accords F S (x >>= f) (y >>= g) := by
  cases x with
  | error e =>
      cases y with
      | error e' => exact h
      | ok v => exact h.elim
  | ok u =>
      cases y with
      | error e' => exact h.elim
      | ok v => exact hf u v h

theorem Accords.and_left {P : α → Prop} {x : Except Failure α} {y : Except Failure β}
    (h : Accords F R x y) (hP : ∀ u, x = .ok u → P u) :
    Accords F (fun u v => P u ∧ R u v) x y := by
  cases x with
  | error e =>
      cases y with
      | error e' => exact h
      | ok v => exact h.elim
  | ok u =>
      cases y with
      | error e' => exact h.elim
      | ok v => exact ⟨hP u rfl, h⟩

theorem Accords.mapM {f : γ → Except Failure α} {g : δ → Except Failure β} {xs : List γ}
    {ys : List δ} (h : List.Forall₂ S xs ys)
    (hf : ∀ x ∈ xs, ∀ y, S x y → Accords F R (f x) (g y)) :
    Accords F (List.Forall₂ R) (xs.mapM f) (ys.mapM g) := by
  induction h with
  | nil => exact .nil
  | @cons x y xs ys hxy _ ih =>
      rw [List.mapM_cons, List.mapM_cons]
      refine (hf x List.mem_cons_self y hxy).bind fun u v huv => ?_
      refine (ih fun x hx => hf x (List.mem_cons_of_mem _ hx)).bind fun us vs hus => ?_
      exact List.Forall₂.cons huv hus

end

namespace Action

/-- Two operations go in lock step from these states. -/
def Mirrors (G : σ → σ → Prop) (T : σ → τ → Prop) (F : Failure → Failure → Prop)
    (Q : α → β → σ → Prop) (x : Action σ α) (y : Action τ β) (s : σ) (t : τ) : Prop :=
  match x.run s, y.run t with
  | (.ok u, s'), (.ok v, t') => G s s' ∧ T s' t' ∧ Q u v s'
  | (.error f, s'), (.error g, t') => G s s' ∧ T s' t' ∧ F f g
  | _, _ => False

section

variable {G : σ → σ → Prop} {T : σ → τ → Prop} {F : Failure → Failure → Prop}
  {Q : α → β → σ → Prop} {x : Action σ α} {y : Action τ β} {s : σ} {t : τ}

theorem Mirrors.of_ok {u : α} {v : β} {s' : σ} {t' : τ} (hx : x.run s = (.ok u, s'))
    (hy : y.run t = (.ok v, t')) (hG : G s s') (hT : T s' t') (hQ : Q u v s') :
    Mirrors G T F Q x y s t := by
  unfold Mirrors
  rw [hx, hy]
  exact ⟨hG, hT, hQ⟩

theorem Mirrors.of_error {f g : Failure} {s' : σ} {t' : τ} (hx : x.run s = (.error f, s'))
    (hy : y.run t = (.error g, t')) (hG : G s s') (hT : T s' t') (hF : F f g) :
    Mirrors G T F Q x y s t := by
  unfold Mirrors
  rw [hx, hy]
  exact ⟨hG, hT, hF⟩

theorem Mirrors.cases (h : Mirrors G T F Q x y s t) :
    (∃ u v s' t', x.run s = (.ok u, s') ∧ y.run t = (.ok v, t') ∧ G s s' ∧ T s' t' ∧ Q u v s') ∨
      ∃ f g s' t', x.run s = (.error f, s') ∧ y.run t = (.error g, t') ∧ G s s' ∧ T s' t' ∧
        F f g := by
  unfold Mirrors at h
  rcases hx : x.run s with ⟨f | u, s'⟩ <;> rcases hy : y.run t with ⟨g | v, t'⟩ <;>
    rw [hx, hy] at h
  · exact .inr ⟨f, g, s', t', rfl, rfl, h⟩
  · exact h.elim
  · exact h.elim
  · exact .inl ⟨u, v, s', t', rfl, rfl, h⟩

theorem Mirrors.ok_left (h : Mirrors G T F Q x y s t) {u : α} {s' : σ}
    (hx : x.run s = (.ok u, s')) : ∃ v t', y.run t = (.ok v, t') ∧ G s s' ∧ T s' t' ∧ Q u v s' := by
  rcases h.cases with ⟨_, v, _, t', hx', hy, h⟩ | ⟨_, _, _, _, hx', -⟩
  · cases hx.symm.trans hx'
    exact ⟨v, t', hy, h⟩
  · cases hx.symm.trans hx'

theorem Mirrors.ok_right (h : Mirrors G T F Q x y s t) {v : β} {t' : τ}
    (hy : y.run t = (.ok v, t')) : ∃ u s', x.run s = (.ok u, s') ∧ G s s' ∧ T s' t' ∧ Q u v s' := by
  rcases h.cases with ⟨u, _, s', _, hx, hy', h⟩ | ⟨_, _, _, _, -, hy', -⟩
  · cases hy.symm.trans hy'
    exact ⟨u, s', hx, h⟩
  · cases hy.symm.trans hy'

/-- Two operations with the same mirror image both succeed or both fail. -/
theorem Mirrors.both {γ : Type} {Q' : γ → β → σ → Prop} {x' : Action σ γ} {s₁ : σ}
    (h : Mirrors G T F Q x y s t) (h' : Mirrors G T F Q' x' y s₁ t) :
    (∃ u u' v s' s₁' t', x.run s = (.ok u, s') ∧ x'.run s₁ = (.ok u', s₁') ∧
        (G s s' ∧ T s' t' ∧ Q u v s') ∧ G s₁ s₁' ∧ T s₁' t' ∧ Q' u' v s₁') ∨
      ∃ f f' g s' s₁', x.run s = (.error f, s') ∧ x'.run s₁ = (.error f', s₁') ∧ F f g ∧
        F f' g := by
  rcases h.cases with ⟨u, v, s', t', hx, hy, hafter⟩ | ⟨f, g, s', t', hx, hy, -, -, hF⟩
  · obtain ⟨u', s₁', hx', hafter'⟩ := h'.ok_right hy
    exact .inl ⟨u, u', v, s', s₁', t', hx, hx', hafter, hafter'⟩
  · rcases h'.cases with ⟨u', v, s₁', t', -, hy', -⟩ | ⟨f', g', s₁', t', hx', hy', -, -, hF'⟩
    · cases hy.symm.trans hy'
    · cases hy.symm.trans hy'
      exact .inr ⟨f, f', g, s', s₁', hx, hx', hF, hF'⟩

theorem Mirrors.imp {Q' : α → β → σ → Prop} (h : Mirrors G T F Q x y s t)
    (hQ : ∀ u v s', G s s' → Q u v s' → Q' u v s') : Mirrors G T F Q' x y s t := by
  rcases h.cases with ⟨u, v, s', t', hx, hy, hG, hT, huv⟩ | ⟨f, g, s', t', hx, hy, hG, hT, hfg⟩
  · exact .of_ok hx hy hG hT (hQ u v s' hG huv)
  · exact .of_error hx hy hG hT hfg

theorem Mirrors.bind [htrans : IsTrans σ G] {Q' : γ → δ → σ → Prop} {f : α → Action σ γ}
    {g : β → Action τ δ} (h : Mirrors G T F Q x y s t)
    (hf : ∀ u v s' t', G s s' → T s' t' → Q u v s' → Mirrors G T F Q' (f u) (g v) s' t') :
    Mirrors G T F Q' (x >>= f) (y >>= g) s t := by
  rcases h.cases with ⟨u, v, s', t', hx, hy, hG, hT, huv⟩ | ⟨e, e', s', t', hx, hy, hG, hT, hee⟩
  · rcases (hf u v s' t' hG hT huv).cases with
      ⟨u', v', s'', t'', hx', hy', hG', hT', huv'⟩ | ⟨e, e', s'', t'', hx', hy', hG', hT', hee⟩
    · exact .of_ok ((run_bind_of_ok hx).trans hx') ((run_bind_of_ok hy).trans hy')
        (htrans.trans _ _ _ hG hG') hT' huv'
    · exact .of_error ((run_bind_of_ok hx).trans hx') ((run_bind_of_ok hy).trans hy')
        (htrans.trans _ _ _ hG hG') hT' hee
  · exact .of_error (run_bind_of_error hx) (run_bind_of_error hy) hG hT hee

theorem Mirrors.congr_left {x' : Action σ α} (h : x.run s = x'.run s)
    (hm : Mirrors G T F Q x' y s t) : Mirrors G T F Q x y s t := by
  unfold Mirrors at hm ⊢
  rwa [h]

/-- The first side may do something by itself. -/
theorem Mirrors.bind_left [htrans : IsTrans σ G] {f : γ → Action σ α} {x : Action σ γ} {u : γ}
    {s' : σ} (hx : x.run s = (.ok u, s')) (hG : G s s') (h : Mirrors G T F Q (f u) y s' t) :
    Mirrors G T F Q (x >>= f) y s t := by
  rcases h.cases with ⟨u', v, s'', t', hu, hy, hG', hT, hQ⟩ | ⟨e, e', s'', t', hu, hy, hG', hT, hF⟩
  · exact .of_ok ((run_bind_of_ok hx).trans hu) hy (htrans.trans _ _ _ hG hG') hT hQ
  · exact .of_error ((run_bind_of_ok hx).trans hu) hy (htrans.trans _ _ _ hG hG') hT hF

/-- Both sides may read their states first. -/
theorem Mirrors.get {f : σ → Action σ α} {g : τ → Action τ β}
    (h : Mirrors G T F Q (f s) (g t) s t) : Mirrors G T F Q (get >>= f) (get >>= g) s t := by
  unfold Mirrors at h ⊢
  rwa [run_bind_of_ok (run_get s), run_bind_of_ok (run_get t)]

/-- The mirror image may work without a state. -/
theorem Mirrors.bind_liftM [IsTrans σ G] {Q' : γ → δ → σ → Prop} {f : α → Action σ γ}
    {v : Except Failure β} {g : β → Except Failure δ}
    (h : Mirrors G T F Q x (MonadLiftT.monadLift v : Action τ β) s t)
    (hf : ∀ u w s' t', v = .ok w → G s s' → T s' t' → Q u w s' →
      Mirrors G T F Q' (f u) (MonadLiftT.monadLift (g w) : Action τ δ) s' t') :
    Mirrors G T F Q' (x >>= f) (MonadLiftT.monadLift (v >>= g) : Action τ δ) s t := by
  cases v with
  | error e =>
      rcases h.cases with ⟨_, _, _, _, -, hy, -⟩ | ⟨e', e'', s', t', hx, hy, hG, hT, hee⟩
      · cases hy
      · cases hy
        exact .of_error (run_bind_of_error hx) rfl hG hT hee
  | ok w =>
      rcases h.cases with ⟨u, w', s', t', hx, hy, hG, hT, huw⟩ | ⟨_, _, _, _, -, hy, -⟩
      · cases hy
        exact .bind_left hx hG (hf u w s' t rfl hG hT huw)
      · cases hy

section

variable [hrefl : Std.Refl G]

theorem Mirrors.pure {u : α} {v : β} (hT : T s t) (hQ : Q u v s) :
    Mirrors G T F Q (pure u) (pure v) s t :=
  .of_ok rfl rfl (hrefl.refl s) hT hQ

theorem Mirrors.throw {f g : Failure} (hT : T s t) (hF : F f g) :
    Mirrors G T F Q (throw f) (throw g) s t :=
  .of_error rfl rfl (hrefl.refl s) hT hF

theorem Mirrors.liftM {u : Except Failure α} {v : Except Failure β} (hT : T s t)
    (h : Accords F (fun u v => Q u v s) u v) : Mirrors G T F Q (liftM u) (liftM v) s t := by
  cases u with
  | error f =>
      cases v with
      | error g => exact .of_error rfl rfl (hrefl.refl s) hT h
      | ok v => exact h.elim
  | ok u =>
      cases v with
      | error g => exact h.elim
      | ok v => exact .of_ok rfl rfl (hrefl.refl s) hT h

/-- Lists are gone through in lock step when their items are. What relates the items, and what the
answers to them, has to outlast the others. -/
theorem Mirrors.mapM [IsTrans σ G] {R : γ → δ → σ → Prop} {f : γ → Action σ α}
    {g : δ → Action τ β} (hR : ∀ a b s s', G s s' → R a b s → R a b s')
    (hQ : ∀ u v s s', G s s' → Q u v s → Q u v s')
    (hf : ∀ a b s t, T s t → R a b s → Mirrors G T F Q (f a) (g b) s t) {as : List γ} {bs : List δ}
    (hT : T s t) (h : List.Forall₂ (R · · s) as bs) :
    Mirrors G T F (fun us vs s' => List.Forall₂ (Q · · s') us vs) (as.mapM f) (bs.mapM g) s t := by
  induction as generalizing bs s t with
  | nil =>
      cases h
      exact .pure hT .nil
  | cons a as ih =>
      obtain ⟨b, bs, hab, has, rfl⟩ := List.forall₂_cons_left_iff.1 h
      rw [List.mapM_cons, List.mapM_cons]
      refine (hf a b s t hT hab).bind fun u v s' t' hG hT' huv => ?_
      refine (ih hT' (has.imp fun _ _ => hR _ _ _ _ hG)).bind fun us vs s'' t'' hG' hT'' hus => ?_
      exact .pure hT'' (.cons (hQ _ _ _ _ hG' huv) hus)

theorem Mirrors.forM [IsTrans σ G] {R : γ → δ → σ → Prop} {f : γ → Action σ α}
    {g : δ → Action τ β} (hR : ∀ a b s s', G s s' → R a b s → R a b s')
    (hf : ∀ a b s t, T s t → R a b s → Mirrors G T F Q (f a) (g b) s t) {as : List γ} {bs : List δ}
    (hT : T s t) (h : List.Forall₂ (R · · s) as bs) :
    Mirrors G T F (fun _ _ _ => True) (as.forM fun a => do let _ ← f a)
      (bs.forM fun b => do let _ ← g b) s t := by
  induction as generalizing bs s t with
  | nil =>
      cases h
      exact .pure hT trivial
  | cons a as ih =>
      obtain ⟨b, bs, hab, has, rfl⟩ := List.forall₂_cons_left_iff.1 h
      refine .bind (Q := fun _ _ _ => True) ?_ fun _ _ _ _ hG hT' _ =>
        ih hT' (has.imp fun _ _ => hR _ _ _ _ hG)
      exact (hf a b s t hT hab).bind fun _ _ _ _ _ hT' _ => .pure hT' trivial

end

end

end Action

end ChanceProof
