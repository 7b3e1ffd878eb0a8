import ChanceProof.Proofs.Model.Ledger
import ChanceProof.Proofs.Model.Lockstep
import ChanceProof.Proofs.Sampling.Conservation

/-!
# Draws that fail

A draw gives the counts of its arguments up as soon as its call is expanded, and only then draws
what the call returns. So when one of the calls in the distribution fails, at whatever depth, the
arguments are gone all the same: `sample_failed` says what is left to the caller. A call that is not
expanded, a coin among them, fails before anything is given up.

All that is done after the arguments were given up is done with objects that are new: those in the
distribution and those that are interned on the way. `Draw.Spares` says this of a draw, that it
leaves objects with smaller numbers alone and answers with none of them, however it ends.
-/

namespace ChanceProof

namespace Store

/-- Everything with a smaller number is as it was. -/
structure Spared (n : Nat) (s s' : Store) : Prop where
  sound : s'.Sound
  next : n ≤ s'.next
  get? : ∀ h, h.number < n → s'.get? h = s.get? h

section

variable {n : Nat} {s : Store}

theorem Spared.refl (hs : s.Sound) (hn : n ≤ s.next) : s.Spared n s := ⟨hs, hn, fun _ _ => rfl⟩

theorem Spared.trans {s' s'' : Store} (h : s.Spared n s') (h' : s'.Spared n s'') :
    s.Spared n s'' :=
  ⟨h'.sound, h'.next, fun a ha => (h'.get? a ha).trans (h.get? a ha)⟩

theorem Moves.spared {s' : Store} {delta : Handle → Int} (h : s.Moves s' delta) (hs : s.Sound)
    (hn : n ≤ s.next) (hdelta : ∀ a, a.number < n → delta a = 0) : s.Spared n s' :=
  ⟨h.sound, Nat.le_trans hn h.later.next, fun a ha => h.get?_eq hs (hdelta a ha)⟩

theorem spared_modifyCount (hs : s.Sound) (hn : n ≤ s.next) {a : Handle} (ha : n ≤ a.number)
    (delta : Int) : s.Spared n ((modifyCount a delta).run s).2 := by
  rcases hr : (modifyCount a delta).run s with ⟨f | _, s'⟩
  · obtain rfl : s = s' := by
      rcases modifyCount_cases s a delta with
        ⟨-, hr'⟩ | ⟨o, -, ⟨-, hr'⟩ | ⟨-, hr'⟩ | ⟨-, hr'⟩⟩ <;> cases hr'.symm.trans hr <;> rfl
    exact .refl hs hn
  · refine (moves_of_modifyCount hs hr).spared hs hn fun b hb => if_neg ?_
    rintro rfl
    omega

end

end Store

/-! ## Draws that touch new objects only -/

/-- From any store the draw leaves alone what has a smaller number, whether it succeeds or fails,
and what it answers with has this property. -/
def Draw.Spares {α : Type} (n : Nat) (P : α → Prop) (x : Draw Store α) : Prop :=
  ∀ s r, s.Sound → n ≤ s.next → ∀ answer s' r', x (s, r) = some (answer, (s', r')) →
    s.Spared n s' ∧ ∀ y, answer = .ok y → P y

namespace Draw.Spares

variable {α β : Type} {n : Nat} {P : α → Prop} {Q : β → Prop}

theorem pure {y : α} (hy : P y) : Draw.Spares n P (Pure.pure y) := by
  intro s r hs hn answer s' r' h
  cases h
  exact ⟨.refl hs hn, fun z hz => Except.ok.inj hz ▸ hy⟩

theorem throw (f : Failure) : Draw.Spares n P (throw f) := by
  intro s r hs hn answer s' r' h
  cases h
  exact ⟨.refl hs hn, fun z hz => (nomatch hz)⟩

theorem liftM {x : Except Failure α} (hx : ∀ y, x = .ok y → P y) :
    Draw.Spares n P (liftM x : Draw Store α) := by
  cases x with
  | error f => exact throw f
  | ok y => exact pure (hx y rfl)

theorem flip (p : Float) : Draw.Spares n (fun _ => True) (Draw.flip p) := by
  intro s r hs hn answer s' r' h
  cases h
  exact ⟨.refl hs hn, fun _ _ => trivial⟩

theorem ask {a : Action Store α} (h : ∀ s, s.Sound → n ≤ s.next →
    s.Spared n (a.run s).2 ∧ ∀ y, (a.run s).1 = .ok y → P y) : Draw.Spares n P (Draw.ask a) := by
  intro s r hs hn answer s' r' hr
  cases hr
  exact h s hs hn

/-- What is done one after another touches what its parts do. -/
theorem bind {x : Draw Store α} {f : α → Draw Store β} (hx : x.Spares n P)
    (hf : ∀ y, P y → (f y).Spares n Q) : Draw.Spares n Q (x >>= f) := by
  intro s r hs hn answer s'' r'' h
  rw [Run.bind_apply] at h
  rcases hr : x (s, r) with _ | ⟨g | y, s', r'⟩ <;> rw [hr] at h
  · cases h
  · cases h
    exact ⟨(hx s r hs hn _ _ _ hr).1, fun z hz => (nomatch hz)⟩
  · obtain ⟨hspared, hy⟩ := hx s r hs hn _ _ _ hr
    obtain ⟨hspared', hz⟩ :=
      hf y (hy y rfl) s' r' hspared.sound hspared.next answer s'' r'' h
    exact ⟨hspared.trans hspared', hz⟩

theorem mapM {γ : Type} {f : γ → Draw Store α} {xs : List γ}
    (hf : ∀ x ∈ xs, (f x).Spares n P) : Draw.Spares n (fun ys => ∀ y ∈ ys, P y) (xs.mapM f) := by
  induction xs with
  | nil => exact pure fun _ h => nomatch h
  | cons x xs ih =>
      obtain ⟨hx, hxs⟩ := List.forall_mem_cons.1 hf
      rw [List.mapM_cons]
      refine hx.bind fun y hy => (ih hxs).bind fun ys hys => pure ?_
      exact List.forall_mem_cons.2 ⟨hy, hys⟩

end Draw.Spares

/-- The handle is none of those with a smaller number. -/
def Handle.From (n : Nat) (h : Handle) : Prop := n ≤ h.number

/-- The value is no handle with a smaller number. -/
def Value.From (n : Nat) (v : Value) : Prop := ∀ h, v = .literal h → h.From n

/-- Nothing is resolved to an old handle where none is read and none is bound. -/
theorem Walk.from_of_resolve {n : Nat} {w : Walk} {v u : Value} (hv : v.From n)
    (hw : ∀ values ∈ w.results, ∀ v ∈ values, v.From n) (h : w.resolve v = .ok u) : u.From n := by
  rcases resolve_eq_ok_iff.1 h with ⟨-, rfl⟩ | ⟨place, -, hbound⟩
  · exact hv
  · obtain ⟨values, hvalues, hu⟩ := Option.bind_eq_some_iff.1 hbound
    exact hw _ (List.mem_of_getElem? hvalues) _ (List.mem_of_getElem? hu)

theorem Walk.from_of_resolveAll {n : Nat} {w : Walk} {vs us : List Value}
    (hvs : ∀ v ∈ vs, v.From n) (hw : ∀ values ∈ w.results, ∀ v ∈ values, v.From n)
    (h : vs.mapM w.resolve = .ok us) : ∀ u ∈ us, u.From n := by
  intro u hu
  obtain ⟨v, hv, hresolve⟩ := exists_of_forall₂_mem (mapM_ok_iff.1 h) hu
  exact from_of_resolve (hvs v hv) hw hresolve

namespace Library

variable {n : Nat} (functions : Library)

theorem spares_modifyCount {a : Handle} (ha : a.From n) (delta : Int) :
    Draw.Spares n (fun _ => True) (Draw.ask (functions.model.modifyCount a delta)) :=
  .ask fun _ hs hn => ⟨Store.spared_modifyCount hs hn ha delta, fun _ _ => trivial⟩

theorem spares_fromExternal (v : Json) :
    Draw.Spares n (Handle.From n) (Draw.ask (functions.model.fromExternal v)) := by
  refine .ask fun s hs hn => ?_
  obtain ⟨a, s', hr, -, hmoves⟩ := Store.run_add hs v
  have hrun : (functions.model.fromExternal v).run s = (.ok a, s') := hr
  have ha : a.From n := by
    cases hr
    exact hn
  rw [hrun]
  refine ⟨hmoves.spared hs hn fun b hb => if_neg ?_, fun _ h => Except.ok.inj h ▸ ha⟩
  rintro rfl
  exact absurd hb (Nat.not_lt.2 ha)

/-- Expanding a call reads the store, and interns new objects. -/
theorem spares_getDistribution (c : Call) :
    Draw.Spares n (fun e => ∀ v ∈ e.distribution.values, v.From n)
      (Draw.ask (functions.model.getDistribution c)) := by
  refine .ask fun s hs hn => ?_
  rcases functions.getDistribution_cases hs c with ⟨f, hr, -⟩ | ⟨e, s', hr, hmoves, -⟩
  · have hrun : (functions.model.getDistribution c).run s = (.error f, s) := hr
    rw [hrun]
    exact ⟨.refl hs hn, fun _ h => (nomatch h)⟩
  · have hrun : (functions.model.getDistribution c).run s = (.ok e, s') := hr
    have hnew : ∀ v ∈ e.distribution.values, v.From n := by
      rintro _ hv a rfl
      have hmem : a ∈ e.distribution.values.filterMap Value.handle? :=
        List.mem_filterMap.2 ⟨.literal a, hv, rfl⟩
      exact Nat.le_trans hn ((mints_getDistribution hr).mem_iff.1 hmem).1
    rw [hrun]
    refine ⟨hmoves.spared hs hn fun a ha => ?_, fun _ h => Except.ok.inj h ▸ hnew⟩
    have hnot : Value.literal a ∉ e.distribution.values := fun hmem =>
      absurd ha (Nat.not_lt.2 (hnew _ hmem a rfl))
    rw [occurrences, List.count_eq_zero_of_not_mem hnot]
    rfl

theorem state_readProbability (c : Call) (h : Handle) (s : Store) :
    ((functions.model.readProbability c h).run s).2 = s := by
  have hread := functions.run_toExternal s h
  unfold Model.readProbability
  rw [Action.run_bind]
  rcases hr : (functions.model.toExternal h).run s with ⟨f | v, s'⟩ <;> rw [hr] at hread
  · exact hread
  · simp only [Action.run_liftM]
    exact hread

theorem spares_sampleCoin {c : Call} (hc : ∀ v ∈ c.parameters, v.From n) :
    Draw.Spares n (Handle.From n) (functions.model.sampleCoin c) := by
  unfold Model.sampleCoin
  split
  · next a hparameters =>
      have ha : a.From n := hc (.literal a) (by rw [hparameters]; exact List.mem_cons_self) a rfl
      refine .bind (P := fun _ => True) (.ask fun s hs hn => ?_) fun p _ => ?_
      · rw [functions.state_readProbability]
        exact ⟨.refl hs hn, fun _ _ => trivial⟩
      refine (functions.spares_modifyCount ha (-1)).bind fun _ _ => ?_
      exact (Draw.Spares.flip p).bind fun landed _ => functions.spares_fromExternal _
  · exact .throw _
  · exact .throw _

theorem spares_settleUses {uses : List (Handle × Nat)} (huses : ∀ use ∈ uses, use.1.From n) :
    Draw.Spares n (fun _ => True) (Draw.ask (functions.model.settleUses uses)) := by
  induction uses with
  | nil => exact .pure trivial
  | cons use rest ih =>
      obtain ⟨a, k⟩ := use
      obtain ⟨ha, hrest⟩ := List.forall_mem_cons.1 huses
      rw [settleUses_cons, Draw.ask_bind]
      refine .bind (P := fun _ => True) ?_ fun _ _ => ih hrest
      split
      · exact functions.spares_modifyCount ha _
      · exact .pure trivial

theorem spares_release {owned : List Handle} (howned : ∀ a ∈ owned, a.From n) :
    Draw.Spares n (fun _ => True)
      (Draw.ask (owned.forM fun a => functions.model.modifyCount a (-1))) := by
  induction owned with
  | nil => exact .pure trivial
  | cons a rest ih =>
      obtain ⟨ha, hrest⟩ := List.forall_mem_cons.1 howned
      rw [List.forM_eq_forM, List.forM_cons, Draw.ask_bind]
      exact (functions.spares_modifyCount ha (-1)).bind fun _ _ => ih hrest

section

variable {draw : Call → Draw Store (List Handle)}
  (hdraw : ∀ c : Call, (∀ v ∈ c.parameters, v.From n) →
    (draw c).Spares n fun hs => ∀ h ∈ hs, h.From n)

include hdraw

theorem spares_sampleAssignments (steps : List (Assignment × List Nat))
    (hsteps : ∀ step ∈ steps, ∀ v ∈ step.1.call.parameters, v.From n) {w : Walk}
    (hw : ∀ values ∈ w.results, ∀ v ∈ values, v.From n) :
    (functions.model.sampleAssignments draw w steps).Spares n fun w' =>
      w'.distribution = w.distribution ∧ ∀ values ∈ w'.results, ∀ v ∈ values, v.From n := by
  induction steps generalizing w with
  | nil => exact .pure ⟨rfl, hw⟩
  | cons step rest ih =>
      obtain ⟨a, uses⟩ := step
      obtain ⟨ha, hrest⟩ := List.forall_mem_cons.1 hsteps
      unfold Model.sampleAssignments
      refine .bind (P := fun c => ∀ v ∈ c.parameters, v.From n) (.liftM fun c hc => ?_)
        fun c hc => (hdraw c hc).bind fun hs hhs => ?_
      · obtain ⟨us, hus, hc⟩ := bind_eq_ok_iff.1 (mapError_ok.1 hc)
        cases pure_eq_ok_iff.1 hc
        exact Walk.from_of_resolveAll ha hw hus
      refine .bind (P := fun w' => w' = { w with results := w.results ++ [hs.map .literal] })
        (.liftM fun w' hw' => (Walk.bind_eq_ok_iff.1 (mapError_ok.1 hw')).2) ?_
      rintro _ rfl
      refine (functions.spares_settleUses fun use huse => ?_).bind fun _ _ => ih hrest ?_
      · exact hhs _ (List.of_mem_zip huse).1
      · intro values hvalues v hv
        rcases List.mem_append.1 hvalues with hvalues | hvalues
        · exact hw values hvalues v hv
        · rw [List.mem_singleton.1 hvalues] at hv
          obtain ⟨h, hh, rfl⟩ := List.mem_map.1 hv
          rintro _ ⟨⟩
          exact hhs h hh

theorem spares_sampleDistribution {d : Distribution} (hd : ∀ v ∈ d.values, v.From n) :
    (functions.model.sampleDistribution draw d).Spares n fun hs => ∀ h ∈ hs, h.From n := by
  unfold Model.sampleDistribution
  have hsteps : ∀ step ∈ d.assignments.zip d.useCounts, ∀ v ∈ step.1.call.parameters, v.From n :=
    fun step hstep v hv => hd v (List.mem_append_left _
      (List.mem_flatMap.2 ⟨step.1, (List.of_mem_zip hstep).1, hv⟩))
  refine (functions.spares_sampleAssignments hdraw _ hsteps (w := .start d)
    fun _ h => (nomatch h)).bind ?_
  rintro ⟨_, results⟩ ⟨rfl, hresults⟩
  refine .bind (P := fun us => ∀ u ∈ us, u.From n) (.liftM fun us hus => ?_) fun us hus => ?_
  · exact Walk.from_of_resolveAll (fun v hv => hd v (List.mem_append_right _ hv)) hresults
      (mapError_ok.1 hus)
  · refine .mapM fun u hu => .liftM fun h hh => ?_
    cases u with
    | literal a =>
        cases hh
        exact hus _ hu _ rfl
    | _ => cases hh

end

/-- A draw touches no objects but those of its arguments and new ones. -/
theorem spares_sample (depth : Nat) {c : Call} (hc : ∀ v ∈ c.parameters, v.From n) :
    (functions.model.sample depth c).Spares n fun hs => ∀ h ∈ hs, h.From n := by
  induction depth generalizing c with
  | zero => exact fun _ _ _ _ _ _ _ h => nomatch h
  | succ depth ih =>
      unfold Model.sample
      split
      · refine (functions.spares_sampleCoin hc).bind fun h hh => .pure fun a ha => ?_
        rwa [List.mem_singleton.1 ha]
      · refine (functions.spares_getDistribution c).bind fun e he => ?_
        refine (functions.spares_release fun a ha => ?_).bind fun _ _ =>
          functions.spares_sampleDistribution (fun c hc => ih hc) he
        obtain ⟨v, hv, hh⟩ := List.mem_filterMap.1 ha
        cases v with
        | literal b =>
            cases hh
            exact hc _ hv _ rfl
        | _ => cases hh

/-! ## What a failure leaves to the caller -/

variable {functions} {s s' : Store} {c : Call} {f : Failure} {r r' : Randomness}

/-- The library has a distribution for the call. -/
def Expands (functions : Library) (s : Store) (c : Call) : Prop :=
  ∃ e s', (functions.model.getDistribution c).run s = (.ok e, s')

theorem not_expands_of_error {g : Failure} {s₁ : Store}
    (h : (functions.model.getDistribution c).run s = (.error g, s₁)) :
    ¬functions.Expands s c := by
  rintro ⟨e, s₂, hget⟩
  cases h.symm.trans hget

theorem not_expands_of_isPrimitive (hprim : c.isPrimitive = true) : ¬functions.Expands s c := by
  have hrefused : (functions.getDistribution c).run s
      = (.error (.unknownFunction c.function), s) := by
    unfold getDistribution
    rw [if_pos hprim]
    rfl
  exact not_expands_of_error hrefused

/-- A coin fails before it takes anything. -/
theorem sampleCoin_failed (hs : s.Sound) {owned : List Handle}
    (hparameters : c.parameters = owned.map .literal)
    (howned : ∀ h, (owned.count h : Int) ≤ s.counts h)
    (hr : functions.model.sampleCoin c (s, r) = some (.error f, (s', r'))) : s' = s := by
  unfold Model.sampleCoin at hr
  rw [hparameters] at hr
  match owned with
  | [] =>
      cases hr
      rfl
  | h :: h' :: owned =>
      cases hr
      rfl
  | [h] =>
      have hstate := functions.state_readProbability c h s
      simp only [List.map_cons, List.map_nil] at hr
      rcases hread : (functions.model.readProbability c h).run s with ⟨g | p, s₁⟩ <;>
        rw [hread] at hstate <;> subst hstate
      · rw [Draw.ask_error hread] at hr
        cases hr
        rfl
      · have hone := howned h
        rw [List.count_singleton_self] at hone
        obtain ⟨s₂, hrelease, hmoves⟩ := Store.run_modifyCount hs h (-1) (by omega) (by omega)
        obtain ⟨a, s₃, hadd, -⟩ := Store.run_add hmoves.sound (.bool (r.flip p).1)
        have hrelease' : (functions.model.modifyCount h (-1)).run s₁ = (.ok (), s₂) := hrelease
        have hadd' : (functions.model.fromExternal (.bool (r.flip p).1)).run s₂ = (.ok a, s₃) :=
          hadd
        rw [Draw.ask_ok hread, Draw.ask_ok hrelease', Draw.flip_apply] at hr
        simp only [Draw.ask, hadd'] at hr
        cases hr

/-- Once its call is expanded, a draw that fails has taken the counts of the arguments, and of what
was there it has taken nothing else. -/
theorem sample_failed_cases (hs : s.Sound) (hc : c.isGrounded = true)
    (howned : ∀ h, .literal h ∈ c.parameters → occurrences c.parameters h ≤ s.counts h)
    {depth : Nat} (hr : functions.model.sample depth c (s, r) = some (.error f, (s', r'))) :
    ¬functions.Expands s c ∧ s' = s ∨
      functions.Expands s c ∧ ∀ h o, s.get? h = some o → s'.get? h =
        if o.count - occurrences c.parameters h = 0 then none
        else some { o with count := o.count - occurrences c.parameters h } := by
  cases depth with
  | zero => cases hr
  | succ depth =>
      have hparameters := Call.isGrounded_iff.1 hc
      have hall := c.owned_handles hs hc howned
      unfold Model.sample at hr
      by_cases hprim : c.isPrimitive = true
      · rw [if_pos hprim, Run.bind_apply] at hr
        rcases hcoin : functions.model.sampleCoin c (s, r) with _ | ⟨g | h, s₁, r₁⟩ <;>
          rw [hcoin] at hr
        · cases hr
        · cases hr
          exact .inl ⟨not_expands_of_isPrimitive hprim,
            sampleCoin_failed hs hparameters hall hcoin⟩
        · cases hr
      · rw [if_neg hprim] at hr
        obtain ⟨vs, hvs⟩ := Store.exists_values hall
        have hprim' := Bool.eq_false_iff.2 hprim
        rcases getDistribution_released functions hs hprim' hparameters hvs hall
          with ⟨g, hget, -⟩ | ⟨e, sk, s₁, s₂, hget, hrelease, -, -, hmoves, -⟩
        · have hget' : (functions.model.getDistribution c).run s = (.error g, s) := hget
          rw [Draw.ask_error hget'] at hr
          cases hr
          exact .inl ⟨not_expands_of_error hget', rfl⟩
        · have hget' : (functions.model.getDistribution c).run s = (.ok e, s₁) := hget
          rw [Draw.ask_ok hget', Draw.ask_ok hrelease] at hr
          have hnew : ∀ v ∈ e.distribution.values, v.From s.next := by
            rintro _ hv a rfl
            exact ((mints_getDistribution hget).mem_iff.1
              (List.mem_filterMap.2 ⟨.literal a, hv, rfl⟩)).1
          have hspared := (functions.spares_sampleDistribution
            (fun c hc => functions.spares_sample depth hc) hnew s₂ r hmoves.sound
            hmoves.later.next _ _ _ hr).1
          refine .inr ⟨⟨e, s₁, hget'⟩, fun h o ho => ?_⟩
          have hlt := (hs.of_get? ho).1
          have hnot : occurrences e.distribution.values h = 0 := by
            rw [occurrences, List.count_eq_zero_of_not_mem, Int.natCast_zero]
            exact fun hmem => absurd hlt (Nat.not_lt.2 (hnew _ hmem h rfl))
          rw [hspared.get? h hlt, hmoves.get?_of_some hs ho, hnot, c.occurrences_parameters hc,
            Int.zero_sub, ← Int.sub_eq_add_neg]

/-- A draw that fails leaves the store as it was when its call is not expanded: a coin, or a call
that the model has no distribution for. Once the call is expanded, the draw has taken the counts of
the arguments, at whatever depth it fails, and of what was there it has taken nothing else. So the
caller keeps all that it had just when the call is not expanded or has no arguments. -/
theorem sample_failed (hs : functions.Reached s) (hc : c.isGrounded = true)
    (howned : ∀ h, .literal h ∈ c.parameters → occurrences c.parameters h ≤ s.counts h)
    {depth : Nat} (hr : functions.model.sample depth c (s, r) = some (.error f, (s', r'))) :
    (¬functions.Expands s c → s' = s) ∧
    (functions.Expands s c → ∀ h o, s.get? h = some o → s'.get? h =
      if o.count - occurrences c.parameters h = 0 then none
      else some { o with count := o.count - occurrences c.parameters h }) ∧
    ((∀ h o, s.get? h = some o → s'.get? h = some o) ↔
      (functions.Expands s c → c.parameters = [])) := by
  rcases sample_failed_cases hs.sound hc howned hr with ⟨hnot, rfl⟩ | ⟨hexpands, htaken⟩
  · exact ⟨fun _ => rfl, fun h => absurd h hnot, fun _ h => absurd h hnot, fun _ _ _ ho => ho⟩
  refine ⟨fun hnot => absurd hexpands hnot, fun _ => htaken, fun hkept _ => ?_,
    fun hnone h o ho => ?_⟩
  · by_contra hsome
    obtain ⟨v, hv⟩ := List.exists_mem_of_ne_nil _ hsome
    obtain ⟨h, rfl⟩ : ∃ h, v = .literal h := by
      rw [Call.isGrounded_iff.1 hc] at hv
      obtain ⟨h, -, rfl⟩ := List.mem_map.1 hv
      exact ⟨h, rfl⟩
    have hpos : 0 < occurrences c.parameters h := Int.natCast_pos.2 (List.count_pos_iff.2 hv)
    have hle := howned h hv
    obtain ⟨o, ho, -⟩ := Store.get?_of_counts (s := s) (h := h) (by omega)
    have hboth := (htaken h o ho).symm.trans (hkept h o ho)
    split at hboth
    · cases hboth
    · have hcount := congrArg Stored.count (Option.some.inj hboth)
      simp only at hcount
      omega
  · have hzero : occurrences c.parameters h = 0 := by
      rw [hnone hexpands]
      rfl
    have hpos := (hs.sound.of_get? ho).2
    rw [htaken h o ho, hzero, Int.sub_zero, if_neg (by omega)]

/-! ## A call to nobody -/

/-- A function that takes an argument and calls a function that is not there. -/
def strayCall : Library := [("outer", fun _ => .append "missing" [] [] (.done []))]

theorem strayCall_failed : ∃ s' r',
    strayCall.model.sample 2 ⟨"outer", [.literal ⟨0⟩]⟩ (halfStore, .cycle [])
      = some (.error (.unknownFunction "missing"), (s', r')) ∧
    halfStore.get? ⟨0⟩ = some ⟨.number (.float 0.5), 1⟩ ∧ s'.get? ⟨0⟩ = none := by
  obtain ⟨s', r', hr⟩ : ∃ s' r',
      strayCall.model.sample 2 ⟨"outer", [.literal ⟨0⟩]⟩ (halfStore, .cycle [])
        = some (.error (.unknownFunction "missing"), (s', r')) := ⟨_, _, rfl⟩
  have hexpands : strayCall.Expands halfStore ⟨"outer", [.literal ⟨0⟩]⟩ := ⟨_, _, rfl⟩
  obtain ⟨-, htaken, -⟩ := sample_failed (c := ⟨"outer", [.literal ⟨0⟩]⟩) (halfStore_reached _) rfl
    halfStore_owned hr
  exact ⟨s', r', hr, rfl, (htaken hexpands ⟨0⟩ _ rfl).trans (if_pos (by decide))⟩

end Library

end ChanceProof
