import ChanceProof.Proofs.Evaluation.Coherent

/-!
# What unification establishes

Whatever unification and checking do to a session, they only learn (`keeps_verify`). Where they
succeed, the two sides agree from then on: they are the same unknown, the same handle, or objects
with forms that are alike (`unifyValues_ok`). Agreement outlives everything learnt later.
-/

namespace ChanceProof

/-- One form, or two that the model calls equal. -/
def Alike (E : Json → Json → Prop) (v w : Json) : Prop := v = w ∨ E v w

/-- Forms that print the same are one form. -/
theorem eq_of_alike_print {vs ws : List Json}
    (h : List.Forall₂ (Alike fun v w => v.print = w.print) vs ws) : vs = ws := by
  rw [← List.forall₂_eq_eq_eq]
  exact h.imp fun _ _ h => h.elim id Json.print_injective

namespace Session

variable {σ : Type}

/-- The values are the same, or stand for objects of forms that are alike. -/
def Agree (M : Model σ) (E : Json → Json → Prop) (s : Session σ) (p m : Value) : Prop :=
  s.resolve p = s.resolve m ∨ ∃ v w, s.form? M p = some v ∧ s.form? M m = some w ∧ Alike E v w

variable {M : Model σ} {I : σ → Prop} {expand : Expander} {E : Json → Json → Prop}

theorem Learns.resolve_eq {s s' : Session σ} (h : Learns M I expand s s') {p m : Value}
    (heq : s.resolve p = s.resolve m) : s'.resolve p = s'.resolve m := by
  rcases s.resolve_eq_or p with hp | ⟨x, a, rfl, hx, hp⟩
  · rcases s.resolve_eq_or m with hm | ⟨y, b, rfl, hy, hm⟩
    · rw [show p = m by rw [← hp, heq, hm]]
    · rw [h.resolve_literal hm, h.resolve_literal (heq.trans hm)]
  · rw [h.resolve_literal hp, h.resolve_literal (heq.symm.trans hp)]

theorem Learns.agree {s s' : Session σ} (h : Learns M I expand s s') (hs : s.Coherent M I expand)
    {p m : Value} (hagree : s.Agree M E p m) : s'.Agree M E p m := by
  rcases hagree with heq | ⟨v, w, hv, hw, hvw⟩
  · exact .inl (h.resolve_eq heq)
  · exact .inr ⟨v, w, h.form? hs hv, h.form? hs hw, hvw⟩

/-- Values that agree and have forms have forms that are alike. -/
theorem Agree.alike {s : Session σ} {p m : Value} (h : s.Agree M E p m) {v w : Json}
    (hv : s.form? M p = some v) (hw : s.form? M m = some w) : Alike E v w := by
  rcases h with heq | ⟨v', w', hv', hw', hvw⟩
  · rw [form?, heq] at hv
    exact .inl (Option.some.inj (hv.symm.trans hw))
  · cases hv.symm.trans hv'
    cases hw.symm.trans hw'
    exact hvw

variable (hM : M.Meets I expand E)

include hM

/-! ## Unification only learns -/

theorem keeps_display (h : Handle) : (display M h).Keeps (Learns M I expand) :=
  .tryCatch ((keeps_ask (hM.toExternal_later h)).bind fun _ => .pure _) fun _ => .pure _

/-- A value may be found for a name that has none yet. -/
theorem learns_bind {s : Session σ} {name : String} (hname : s.bindings.lookup name = none)
    (h : Handle) : Learns M I expand s ((bind M name h).run s).2 := by
  unfold bind
  rw [Action.run_bind]
  have hlearns := keeps_canonical hM h s
  have hsame := bindings_canonical (M := M) s h
  rcases hr : (canonical M h).run s with ⟨e | c, s'⟩ <;> rw [hr] at hlearns hsame
  · exact hlearns
  · refine ⟨fun hs => ?_, hlearns.world, hlearns.canonicalOf, ?_, hlearns.entries, hlearns.proved,
      hlearns.settings, fun hdistinct => ?_⟩
    · have hs' := hlearns.coherent hs
      refine ⟨hs'.world, hs'.known, hs'.forms, fun x a hx => ?_, hs'.expansions⟩
      rcases lookup_bound hx with hold | ⟨-, rfl⟩
      · exact hs'.bindings x a hold
      · exact (canonical_ok hM hs hr).2.1
    · exact ⟨[(name, c)], congrArg (· ++ _) hsame⟩
    · show ((s'.bindings ++ [(name, c)]).map (·.1)).Nodup
      rw [show s'.bindings = s.bindings from hsame, List.map_append]
      refine List.nodup_append.2 ⟨hdistinct, by simp, fun x hx y hy heq => ?_⟩
      obtain ⟨b, hb, rfl⟩ := List.mem_map.1 hx
      have hy : y = name := by simpa using hy
      have hnot := List.lookup_eq_none_iff.1 hname b hb
      simp [heq, hy] at hnot

theorem keeps_unifyHandles (l : Label) (a b : Handle) :
    (unifyHandles M l a b).Keeps (Learns M I expand) := by
  unfold unifyHandles
  split
  · exact .pure ()
  · refine (keeps_ask (hM.isEqual_later a b)).bind fun t => ?_
    split
    · exact .pure ()
    · refine (keeps_display hM a).bind fun _ => (keeps_display hM b).bind fun _ => .throw _

theorem keeps_unify (l : Label) (p m : Value) : (unify M l p m).Keeps (Learns M I expand) := by
  intro s
  unfold unify
  rw [Action.run_bind_of_ok (Action.run_get s)]
  split
  · exact keeps_unifyHandles hM l _ _ s
  · next hp _ => exact learns_bind hM (unbound_of_resolve hp).2 _
  · next _ hm => exact learns_bind hM (unbound_of_resolve hm).2 _
  · split
    · exact Learns.refl s
    · exact Learns.refl s
  · exact Learns.refl s

theorem keeps_unifyEach (l : Label) (ps ms : List Value) :
    (unifyEach M l ps ms).Keeps (Learns M I expand) := by
  induction ps generalizing ms with
  | nil => exact .pure ()
  | cons p ps ih =>
      cases ms with
      | nil => exact .pure ()
      | cons m ms => exact (keeps_unify hM l p m).bind fun _ => ih ms

theorem keeps_unifyValues (l : Label) (ps ms : List Value) :
    (unifyValues M l ps ms).Keeps (Learns M I expand) := by
  unfold unifyValues
  split
  · exact .throw _
  · exact keeps_unifyEach hM l ps ms

theorem keeps_unifyCalls (l : Label) (p m : Call) :
    (unifyCalls M l p m).Keeps (Learns M I expand) := by
  unfold unifyCalls
  split
  · exact .throw _
  · exact keeps_unifyValues hM l _ _

theorem keeps_verifySteps (l : Label) (w : Walk) (claims : List Label) :
    (verifySteps M l w claims).Keeps (Learns M I expand) := by
  induction claims generalizing w with
  | nil => exact .pure w
  | cons claim rest ih =>
      unfold verifySteps
      split
      · exact .pure w
      · exact .bind (.liftM _) fun call => (keeps_unifyCalls hM l _ _).bind fun _ =>
          .bind (.liftM _) fun w' => ih w'

theorem keeps_verify (l : Label) (d : Distribution) (claims : List Label) :
    (verify M l d claims).Keeps (Learns M I expand) := by
  unfold verify
  split
  · exact .throw _
  · exact (keeps_verifySteps hM l _ _).bind fun w => .bind (.liftM _) fun result =>
      keeps_unifyValues hM l _ _

/-! ## What success means -/

theorem unifyHandles_ok {s s' : Session σ} {l : Label} {a b : Handle}
    (hs : s.Coherent M I expand) (hr : (unifyHandles M l a b).run s = (.ok (), s')) :
    s'.Agree M E (.literal a) (.literal b) := by
  have hlearns := (keeps_unifyHandles hM l a b).of_run hr
  unfold unifyHandles at hr
  split at hr
  · next heq =>
      rw [heq]
      exact .inl rfl
  · obtain ⟨t, s₁, hask, hr⟩ := Action.run_bind_ok.1 hr
    obtain ⟨w, hequal, rfl⟩ := run_ask_ok.1 hask
    split at hr
    · next ht =>
        obtain ⟨v, v', hv, hv', hE⟩ := (hM.isEqual_iff hs.world hequal).1 ht
        exact .inr ⟨v, v', hlearns.form? hs (v := .literal a) hv,
          hlearns.form? hs (v := .literal b) hv', .inr hE⟩
    · obtain ⟨_, _, _, hr⟩ := Action.run_bind_ok.1 hr
      obtain ⟨_, _, _, hr⟩ := Action.run_bind_ok.1 hr
      exact (Action.run_throw_ok hr).elim

theorem bind_ok {s s' : Session σ} {name : String} {h : Handle} (hs : s.Coherent M I expand)
    (hname : s.bindings.lookup name = none) (hr : (bind M name h).run s = (.ok (), s')) :
    ∃ v, s'.form? M (.unknown name) = some v ∧ s'.form? M (.literal h) = some v := by
  unfold bind at hr
  obtain ⟨c, s₁, hc, hr⟩ := Action.run_bind_ok.1 hr
  rw [Action.run_modify, Prod.mk.injEq] at hr
  obtain ⟨-, rfl⟩ := hr
  obtain ⟨-, hcanon, v, hv, hcv⟩ := canonical_ok hM hs hc
  refine ⟨v, ?_, hv⟩
  have hnone : s₁.bindings.lookup name = none := by
    have hkeep := bindings_canonical (M := M) s h
    rw [hc] at hkeep
    rw [show s₁.bindings = s.bindings from hkeep, hname]
  rw [form?_of_resolve (resolve_bound hnone)]
  exact hcv

theorem unify_ok {s s' : Session σ} {l : Label} {p m : Value} (hs : s.Coherent M I expand)
    (hr : (unify M l p m).run s = (.ok (), s')) : s'.Agree M E p m := by
  have hlearns := (keeps_unify hM l p m).of_run hr
  unfold unify at hr
  rw [Action.run_bind_of_ok (Action.run_get s)] at hr
  split at hr
  · next a b ha hb =>
      rcases unifyHandles_ok hM hs hr with heq | ⟨v, w, hv, hw, hvw⟩
      · exact .inl (by rw [hlearns.resolve_literal ha, hlearns.resolve_literal hb]; exact heq)
      · refine .inr ⟨v, w, ?_, ?_, hvw⟩
        · rw [form?_of_resolve (hlearns.resolve_literal ha)]
          exact hv
        · rw [form?_of_resolve (hlearns.resolve_literal hb)]
          exact hw
  · next name h hp hm =>
      obtain ⟨hp', hname⟩ := unbound_of_resolve hp
      obtain ⟨v, hv, hv'⟩ := bind_ok hM hs hname hr
      rw [← hp'] at hv
      refine .inr ⟨v, v, hv, ?_, .inl rfl⟩
      rw [form?_of_resolve (hlearns.resolve_literal hm)]
      exact hv'
  · next h name hp hm =>
      obtain ⟨hm', hname⟩ := unbound_of_resolve hm
      obtain ⟨v, hv, hv'⟩ := bind_ok hM hs hname hr
      rw [← hm'] at hv
      refine .inr ⟨v, v, ?_, hv, .inl rfl⟩
      rw [form?_of_resolve (hlearns.resolve_literal hp)]
      exact hv'
  · next x y hp hm =>
      split at hr
      · next hxy =>
          refine .inl (hlearns.resolve_eq ?_)
          rw [hp, hm, hxy]
      · exact (Action.run_throw_ok hr).elim
  · exact (Action.run_throw_ok hr).elim

theorem unifyEach_ok {s s' : Session σ} {l : Label} {ps ms : List Value}
    (hlen : ps.length = ms.length) (hs : s.Coherent M I expand)
    (hr : (unifyEach M l ps ms).run s = (.ok (), s')) :
    List.Forall₂ (s'.Agree M E) ps ms := by
  induction ps generalizing ms s with
  | nil =>
      cases ms with
      | nil => exact .nil
      | cons m ms => cases hlen
  | cons p ps ih =>
      cases ms with
      | nil => cases hlen
      | cons m ms =>
          unfold unifyEach at hr
          obtain ⟨_, s₁, hone, hr⟩ := Action.run_bind_ok.1 hr
          have hs₁ := ((keeps_unify hM l p m).of_run hone).coherent hs
          have hagree := unify_ok hM hs hone
          exact .cons (((keeps_unifyEach hM l ps ms).of_run hr).agree hs₁ hagree)
            (ih (Nat.succ.inj hlen) hs₁ hr)

theorem unifyValues_ok {s s' : Session σ} {l : Label} {ps ms : List Value}
    (hs : s.Coherent M I expand) (hr : (unifyValues M l ps ms).run s = (.ok (), s')) :
    List.Forall₂ (s'.Agree M E) ps ms := by
  unfold unifyValues at hr
  split at hr
  · exact (Action.run_throw_ok hr).elim
  · next hlen => exact unifyEach_ok hM (Decidable.not_not.1 hlen) hs hr

omit hM in
/-- Checking binds the results of the labels, whatever the unification on the way does. -/
theorem verifySteps_ok {s s' : Session σ} {l : Label} {w w' : Walk} {claims : List Label}
    (hlen : w.results.length + claims.length ≤ w.distribution.assignments.length)
    (hr : (verifySteps M l w claims).run s = (.ok w', s')) :
    w' = ⟨w.distribution, w.results ++ claims.map (·.result)⟩ := by
  induction claims generalizing w s with
  | nil =>
      unfold verifySteps at hr
      obtain ⟨rfl, -⟩ := Action.run_pure_ok.1 hr
      simp
  | cons claim rest ih =>
      rw [List.length_cons] at hlen
      unfold verifySteps at hr
      split at hr
      · next hnext =>
          have := List.getElem?_eq_none_iff.1 hnext
          omega
      · obtain ⟨_, s₁, _, hr⟩ := Action.run_bind_ok.1 hr
        obtain ⟨_, s₂, _, hr⟩ := Action.run_bind_ok.1 hr
        obtain ⟨w₁, s₃, hbind, hr⟩ := Action.run_bind_ok.1 hr
        obtain ⟨hbind, -⟩ := Action.run_liftM_ok.1 hbind
        obtain ⟨-, rfl⟩ := Walk.bind_eq_ok_iff.1 (mapError_ok.1 hbind)
        rw [ih (by simp only [List.length_append, List.length_singleton]; omega) hr]
        simp

/-- The parts of a check that succeeds: the labels are as many as the distribution has calls, each
is unified with its call, and then the result of the label with what the distribution returns. -/
theorem verify_parts {s s' : Session σ} {l : Label} {d : Distribution} {claims : List Label}
    (hs : s.Coherent M I expand) (hr : (verify M l d claims).run s = (.ok (), s')) :
    claims.length = d.assignments.length ∧ ∃ s₁ result, s₁.Coherent M I expand ∧
      (verifySteps M l (.start d) claims).run s = (.ok ⟨d, claims.map (·.result)⟩, s₁) ∧
      Walk.resolveResult ⟨d, claims.map (·.result)⟩ = .ok result ∧
      (unifyValues M l l.result result).run s₁ = (.ok (), s') := by
  unfold verify at hr
  split at hr
  · exact (Action.run_throw_ok hr).elim
  · next hlen =>
      have hlen := Decidable.not_not.1 hlen
      obtain ⟨w, s₁, hsteps, hrest⟩ := Action.run_bind_ok.1 hr
      have hs₁ := ((keeps_verifySteps hM l _ _).of_run hsteps).coherent hs
      obtain rfl := verifySteps_ok (w := .start d) (by simp [Walk.start, hlen]) hsteps
      obtain ⟨result, s₂, hresult, hunify⟩ := Action.run_bind_ok.1 hrest
      obtain ⟨hresolve, rfl⟩ := Action.run_liftM_ok.1 hresult
      exact ⟨hlen, s₁, result, hs₁, hsteps, mapError_ok.1 hresolve, hunify⟩

/-- Checked labels are as many as the distribution has calls, and their results give the result. -/
theorem verify_ok {s s' : Session σ} {l : Label} {d : Distribution} {claims : List Label}
    (hs : s.Coherent M I expand) (hr : (verify M l d claims).run s = (.ok (), s')) :
    claims.length = d.assignments.length ∧
      ∃ result, Walk.resolveResult ⟨d, claims.map (·.result)⟩ = .ok result ∧
        List.Forall₂ (s'.Agree M E) l.result result := by
  obtain ⟨hlen, s₁, result, hs₁, -, hresult, hunify⟩ := verify_parts hM hs hr
  exact ⟨hlen, result, hresult, unifyValues_ok hM hs₁ hunify⟩

end Session

end ChanceProof
