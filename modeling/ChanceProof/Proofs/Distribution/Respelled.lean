import ChanceProof.Proofs.Distribution.Unbound

/-!
# References may be spelled in two ways

What an earlier call returned can be read by the name of a variable or by its place. Wherever one of
the two stands the other may stand as well, and nobody can tell: a distribution that is respelled,
in any of its references, is a distribution again, reads every place as often as before, and draws
and verifies as before. Walks over the two of them hold the same results, and resolve a reference
and its other spelling to the same value, because one value stands for both.

A distribution shows its spelling only where it is displayed. One failure displays a call of it: the
one that refuses results of another number than the call binds. So where one of two draws is refused
for this, the other one is refused at the same assignment for the same number
(`Distribution.SameFailure`).
-/

namespace ChanceProof

namespace Distribution

/-- Another way to spell a value of the distribution: the place of a variable, or the variable at a
place. -/
inductive Spells (d : Distribution) : Value → Value → Prop
  | same (v : Value) : Spells d v v
  | place {name : String} {i k : Nat} (located : d.locate? name = some (i, k)) :
    Spells d (.named name) (.output i k)
  | name {call index : Nat} {a : Assignment} {name : String}
    (assigned : d.assignments[call]? = some a) (bound : a.names[index]? = some name) :
    Spells d (.output call index) (.named name)

end Distribution

/-- The assignment with references of its call spelled in other ways. -/
structure Assignment.Respelled (d : Distribution) (a a' : Assignment) : Prop where
  function : a'.call.function = a.call.function
  parameters : List.Forall₂ d.Spells a.call.parameters a'.call.parameters
  names : a'.names = a.names

/-- The distribution with any of its references spelled in other ways. -/
structure Distribution.Respelled (d : Distribution) (as : List Assignment) (result : List Value) :
    Prop where
  assignments : List.Forall₂ (Assignment.Respelled d) d.assignments as
  result : List.Forall₂ d.Spells d.result result

namespace Distribution

theorem map_names_of_respelled {d : Distribution} {bs as : List Assignment}
    (h : List.Forall₂ (Assignment.Respelled d) bs as) :
    as.map (·.names) = bs.map (·.names) := by
  induction h with
  | nil => rfl
  | cons hone _ ih => rw [List.map_cons, List.map_cons, hone.names, ih]

theorem flatMap_names_of_respelled {d : Distribution} {bs as : List Assignment}
    (h : List.Forall₂ (Assignment.Respelled d) bs as) :
    as.flatMap (·.names) = bs.flatMap (·.names) := by
  rw [List.flatMap_def, List.flatMap_def, map_names_of_respelled h]

/-! ## A respelled distribution is a distribution -/

section

variable {d : Distribution} {as : List Assignment} {result : List Value}
  (h : d.Respelled as result)

include h

/-- The other spelling may stand wherever the first one does. -/
theorem Respelled.allows {position : Nat} {v v' : Value} (hv : d.Spells v v')
    (hallows : Allows d.assignments position v) : Allows as position v' := by
  cases hv with
  | same v =>
      cases hallows with
      | literal a => exact .literal a
      | named earlier assigned bound =>
          obtain ⟨a', ha', hrespelled⟩ := forall₂_some_left h.assignments assigned
          exact .named earlier ha' (hrespelled.names ▸ bound)
      | output earlier assigned inRange =>
          obtain ⟨a', ha', hrespelled⟩ := forall₂_some_left h.assignments assigned
          exact .output earlier ha' (hrespelled.names ▸ inRange)
  | place located =>
      obtain ⟨a, ha, hname⟩ := locate?_eq_some_iff.1 located
      obtain ⟨a', ha', hrespelled⟩ := forall₂_some_left h.assignments ha
      cases hallows with
      | named earlier assigned bound =>
          obtain ⟨k, hk⟩ := List.mem_iff_getElem?.1 bound
          obtain ⟨rfl, rfl⟩ := d.place_unique ha hname assigned hk
          exact .output earlier ha' (hrespelled.names ▸ (List.getElem?_eq_some_iff.1 hname).1)
  | name assigned bound =>
      obtain ⟨a', ha', hrespelled⟩ := forall₂_some_left h.assignments assigned
      cases hallows with
      | output earlier _ _ =>
          exact .named earlier ha' (hrespelled.names ▸ List.mem_of_getElem? bound)

theorem Respelled.wellFormed : WellFormed as result where
  distinct := flatMap_names_of_respelled h.assignments ▸ d.wellFormed.distinct
  parameters i a' ha' v' hv' := by
    obtain ⟨a, ha, hrespelled⟩ := forall₂_some_left h.assignments.flip ha'
    obtain ⟨v, hv, hspells⟩ := exists_of_forall₂_mem hrespelled.parameters hv'
    exact h.allows hspells (d.wellFormed.parameters i a ha v hv)
  result v' hv' := by
    obtain ⟨v, hv, hspells⟩ := exists_of_forall₂_mem h.result hv'
    exact h.assignments.length_eq ▸ h.allows hspells (d.wellFormed.result v hv)

end

/-! ## Reading the same places -/

section

variable {d d' : Distribution} (h : d.Respelled d'.assignments d'.result)

include h

theorem Respelled.locate? (name : String) : d'.locate? name = d.locate? name := by
  refine Option.ext fun ⟨i, k⟩ => ?_
  rw [locate?_eq_some_iff, locate?_eq_some_iff]
  constructor
  · rintro ⟨a', ha', hname⟩
    obtain ⟨a, ha, hrespelled⟩ := forall₂_some_left h.assignments.flip ha'
    exact ⟨a, ha, hrespelled.names ▸ hname⟩
  · rintro ⟨a, ha, hname⟩
    obtain ⟨a', ha', hrespelled⟩ := forall₂_some_left h.assignments ha
    exact ⟨a', ha', hrespelled.names ▸ hname⟩

/-- Both spellings read one place. -/
theorem Respelled.slot? {v v' : Value} (hv : d.Spells v v') : d'.slot? v' = d.slot? v := by
  cases hv with
  | same v =>
      cases v with
      | named name => exact h.locate? name
      | _ => rfl
  | place located => exact located.symm
  | name assigned bound => exact (h.locate? _).trans (locate?_eq_some_iff.2 ⟨_, assigned, bound⟩)

theorem Respelled.filterMap_slot? {vs vs' : List Value} (hvs : List.Forall₂ d.Spells vs vs') :
    vs'.filterMap d'.slot? = vs.filterMap d.slot? := by
  induction hvs with
  | nil => rfl
  | cons hv _ ih => rw [List.filterMap_cons, List.filterMap_cons, h.slot? hv, ih]

theorem Respelled.reads : d'.reads = d.reads :=
  h.filterMap_slot? <| List.rel_append
    (List.rel_flatMap h.assignments fun _ _ hrespelled => hrespelled.parameters) h.result

theorem Respelled.useCounts : d'.useCounts = d.useCounts := by
  refine List.ext_getElem? fun i => ?_
  simp only [Distribution.useCounts, h.reads, List.getElem?_map, List.getElem?_zipIdx,
    Option.map_map]
  rcases forall₂_getElem? h.assignments i with ⟨hnone, hnone'⟩ | ⟨a, a', ha, ha', hrespelled⟩
  · rw [hnone, hnone']
  · rw [ha, ha']
    simp only [Option.map_some, Function.comp, hrespelled.names]

/-- One value stands for both spellings. -/
theorem Respelled.stands {results : List (List Value)} {v v' u : Value} (hv : d.Spells v v')
    (hstands : d.Stands results v u) : d'.Stands results v' u := by
  cases hv with
  | same v =>
      cases hstands with
      | literal a => exact .literal a
      | named assigned bound answered value =>
          obtain ⟨a', ha', hrespelled⟩ := forall₂_some_left h.assignments assigned
          exact .named ha' (hrespelled.names ▸ bound) answered value
      | output answered value => exact .output answered value
  | place located =>
      obtain ⟨a, ha, hname⟩ := locate?_eq_some_iff.1 located
      cases hstands with
      | named assigned bound answered value =>
          obtain ⟨rfl, rfl⟩ := d.place_unique ha hname assigned bound
          exact .output answered value
  | name assigned bound =>
      obtain ⟨a', ha', hrespelled⟩ := forall₂_some_left h.assignments assigned
      cases hstands with
      | output answered value => exact .named ha' (hrespelled.names ▸ bound) answered value

theorem Respelled.fitting {α : Type} {results : List (List α)} (hfits : d.Fitting results) :
    d'.Fitting results := by
  have hnames : List.Forall₂ (fun names values => names.length = values.length)
      ((d.assignments.map (·.names)).take results.length) results := by
    rw [← List.map_take, List.forall₂_map_left_iff]
    exact hfits
  rw [← map_names_of_respelled h.assignments, ← List.map_take, List.forall₂_map_left_iff] at hnames
  exact hnames

/-- The same is resolved for both spellings of values at the position that a walk has reached. -/
theorem Respelled.resolvesAll {results : List (List Value)} (hfits : d.Fitting results)
    {vs vs' : List Value} (hvs : ∀ v ∈ vs, Allows d.assignments results.length v)
    (hspells : List.Forall₂ d.Spells vs vs') :
    ∃ us, vs.mapM (Walk.resolve ⟨d, results⟩) = .ok us ∧
      vs'.mapM (Walk.resolve ⟨d', results⟩) = .ok us := by
  have hvs' : ∀ v' ∈ vs', Allows d'.assignments results.length v' := by
    intro v' hv'
    obtain ⟨v, hv, hone⟩ := exists_of_forall₂_mem hspells hv'
    exact h.allows hone (hvs v hv)
  obtain ⟨us, hus, hfills, -⟩ := hfits.resolvesAll hvs
  obtain ⟨us', hus', hfills', -⟩ := (h.fitting hfits).resolvesAll hvs'
  have hsame : us = us' := by
    clear hus hus' hvs hvs'
    induction hspells generalizing us us' with
    | nil =>
        cases hfills
        cases hfills'
        rfl
    | cons hone _ ih =>
        obtain ⟨u, us, hu, hrest, rfl⟩ := List.forall₂_cons_left_iff.1 hfills
        obtain ⟨u', us', hu', hrest', rfl⟩ := List.forall₂_cons_left_iff.1 hfills'
        rw [(h.stands hone hu).unique hu', ih us hrest us' hrest']
  exact ⟨us, hus, hsame ▸ hus'⟩

/-- The next call of both walks is resolved to the same. -/
theorem Respelled.resolvesCall {results : List (List Value)} (hfits : d.Fitting results)
    {a a' : Assignment} (ha : d.assignments[results.length]? = some a)
    (hrespelled : a.Respelled d a') :
    ∃ us, Walk.resolveCall ⟨d, results⟩ a.call = .ok ⟨a.call.function, us⟩ ∧
      Walk.resolveCall ⟨d', results⟩ a'.call = .ok ⟨a'.call.function, us⟩ := by
  obtain ⟨us, hus, hus'⟩ :=
    h.resolvesAll hfits (d.wellFormed.parameters _ a ha) hrespelled.parameters
  exact ⟨us, Walk.resolveCall_eq_ok_iff.2 hus, Walk.resolveCall_eq_ok_iff.2 hus'⟩

theorem Respelled.resolvesResult {results : List (List Value)} (hfits : d.Fitting results)
    (hend : results.length = d.assignments.length) :
    ∃ us, Walk.resolveResult ⟨d, results⟩ = .ok us ∧ Walk.resolveResult ⟨d', results⟩ = .ok us :=
  h.resolvesAll hfits (hend ▸ d.wellFormed.result) h.result

end

/-- Two failures are one, or both refuse what one and the same assignment got, for its number. -/
inductive SameFailure (d d' : Distribution) : Failure → Failure → Prop
  | same (f : Failure) : SameFailure d d' f f
  | wrongArity {i n : Nat} {a a' : Assignment} (assigned : d.assignments[i]? = some a)
    (assigned' : d'.assignments[i]? = some a') (misfit : a.names.length ≠ n) :
    SameFailure d d' (Defect.wrongArity a.call n a.names.length).failure
      (Defect.wrongArity a'.call n a.names.length).failure

end Distribution

/-! ## Sampling -/

/-- From every state two runs do not end, or both end in one state, with answers or failures that
are related. -/
def Run.Alike {σ α β : Type} (F : Failure → Failure → Prop) (R : α → β → Prop) (x : Run σ α)
    (y : Run σ β) : Prop :=
  ∀ s, Option.Rel (fun p q => Accords F R p.1 q.1 ∧ p.2 = q.2) (x s) (y s)

theorem accords_eq_iff {α : Type} {x y : Except Failure α} : Accords Eq Eq x y ↔ x = y := by
  cases x <;> cases y <;> simp [Accords]

namespace Run

variable {σ α β γ δ : Type} {F : Failure → Failure → Prop} {R : α → β → Prop} {S : γ → δ → Prop}

theorem Alike.pure {u : α} {v : β} (h : R u v) :
    Run.Alike F R (Pure.pure u : Run σ α) (Pure.pure v : Run σ β) := fun _ => .some ⟨h, rfl⟩

theorem Alike.throw {f g : Failure} (h : F f g) :
    Run.Alike F R (throw f : Run σ α) (throw g : Run σ β) := fun _ => .some ⟨h, rfl⟩

/-- Runs that begin alike go on alike. -/
theorem Alike.bind {x : Run σ α} {y : Run σ β} {f : α → Run σ γ} {g : β → Run σ δ}
    (h : Run.Alike F R x y) (hf : ∀ u v, R u v → Run.Alike F S (f u) (g v)) :
    Run.Alike F S (x >>= f) (y >>= g) := by
  intro s
  rw [Run.bind_apply, Run.bind_apply]
  have hs := h s
  generalize x s = p at hs
  generalize y s = q at hs
  cases hs with
  | none => exact .none
  | @some p q hpq =>
      obtain ⟨u, s'⟩ := p
      obtain ⟨v, _⟩ := q
      obtain ⟨hanswers, rfl⟩ := hpq
      cases u with
      | error e =>
          cases v with
          | error e' => exact .some ⟨hanswers, rfl⟩
          | ok v => exact hanswers.elim
      | ok u =>
          cases v with
          | error e' => exact hanswers.elim
          | ok v => exact hf u v hanswers s'

theorem Alike.same (hF : ∀ f, F f f) (x : Run σ α) : Run.Alike F Eq x x := by
  intro s
  rcases x s with _ | ⟨f | u, s'⟩
  · exact .none
  · exact .some ⟨hF f, rfl⟩
  · exact .some ⟨rfl, rfl⟩

/-- Operations that answer and fail alike are one. -/
theorem Alike.eq {x y : Action σ α} (h : Run.Alike Eq Eq (ofAction x) (ofAction y)) : x = y :=
  funext fun s =>
    have hs := Option.rel_some_some.1 (h s)
    Prod.ext (accords_eq_iff.1 hs.1) hs.2

/-- What two runs have in common may be done first. -/
theorem Alike.bind_right (x : Run σ α) {f : α → Run σ γ} {g : α → Run σ δ} (hF : ∀ f, F f f)
    (hf : ∀ u, Run.Alike F S (f u) (g u)) : Run.Alike F S (x >>= f) (x >>= g) :=
  (Alike.same hF x).bind fun u _ h => h ▸ hf u

end Run

namespace Model

variable {σ : Type} {M : Model σ} {draw : Call → Draw σ (List Handle)} {d d' : Distribution}
  (h : d.Respelled d'.assignments d'.result)

include h

/-- From the same results on, two walks get to the same results. -/
theorem sampleAssignments_alike {hss : List (List Handle)} (hfits : d.Fitting hss)
    {steps steps' : List (Assignment × List Nat)}
    (hsteps : steps.map (·.1) = d.assignments.drop hss.length)
    (hsteps' : steps'.map (·.1) = d'.assignments.drop hss.length)
    (huses : steps.map (·.2) = steps'.map (·.2)) :
    Run.Alike (d.SameFailure d')
      (fun w w' => ∃ hss, d.Fitting hss ∧ hss.length = d.assignments.length ∧
        w = d.walkTo hss ∧ w' = d'.walkTo hss)
      (M.sampleAssignments draw (d.walkTo hss) steps)
      (M.sampleAssignments draw (d'.walkTo hss) steps') := by
  induction steps generalizing hss steps' with
  | nil =>
      obtain rfl : steps' = [] := List.map_eq_nil_iff.1 huses.symm
      have hend : d.assignments.length ≤ hss.length := List.drop_eq_nil_iff.1 hsteps.symm
      exact .pure ⟨hss, hfits, Nat.le_antisymm hfits.length_le hend, rfl, rfl⟩
  | cons step rest ih =>
      obtain ⟨a, uses⟩ := step
      obtain ⟨⟨a', uses'⟩, rest', rfl⟩ : ∃ step' rest', steps' = step' :: rest' :=
        List.exists_cons_of_ne_nil fun hnil => by rw [hnil] at huses; cases huses
      obtain ⟨ha, hrest⟩ := drop_eq_cons_iff.1 hsteps.symm
      obtain ⟨ha', hrest'⟩ := drop_eq_cons_iff.1 hsteps'.symm
      obtain ⟨rfl, hrestuses⟩ := List.cons_eq_cons.1 huses
      obtain ⟨_, hget, hrespelled⟩ := forall₂_some_left h.assignments ha
      obtain rfl := Option.some.inj (ha'.symm.trans hget)
      obtain ⟨us, hcall, hcall'⟩ := h.resolvesCall ((Distribution.fitting_map _).2 hfits)
        (by rw [List.length_map, ha]) hrespelled
      rw [sampleAssignments_cons ha hcall, sampleAssignments_cons ha' hcall', hrespelled.function]
      refine .bind_right _ .same fun rs => ?_
      rw [hrespelled.names]
      by_cases hlen : a.names.length = rs.length
      · rw [if_pos hlen, if_pos hlen]
        refine .bind_right _ .same fun _ =>
          ih (Distribution.fitting_append.2 ⟨hfits, a, ha, hlen⟩) ?_ ?_ hrestuses
        · rw [List.length_append, List.length_singleton, hrest]
        · rw [List.length_append, List.length_singleton, hrest']
      · rw [if_neg hlen, if_neg hlen]
        exact .throw (.wrongArity ha ha' hlen)

/-- The same handles are drawn, with the same words and the same store afterwards. -/
theorem sampleDistribution_alike :
    Run.Alike (d.SameFailure d') Eq (M.sampleDistribution draw d)
      (M.sampleDistribution draw d') := by
  have huses : (d.assignments.zip d.useCounts).map (·.2)
      = (d'.assignments.zip d'.useCounts).map (·.2) := by
    have hall : ∀ d : Distribution, (d.assignments.zip d.useCounts).map (·.2) = d.useCounts :=
      fun d => List.map_snd_zip (by simp [Distribution.useCounts])
    rw [hall, hall, h.useCounts]
  refine .bind (sampleAssignments_alike h d.fitting_nil (map_fst_zip_useCounts d)
    (map_fst_zip_useCounts d') huses) ?_
  rintro _ _ ⟨hss, hfits, hend, rfl, rfl⟩
  obtain ⟨us, hus, hus'⟩ := h.resolvesResult ((Distribution.fitting_map Value.literal).2 hfits)
    (by rw [List.length_map, hend])
  obtain ⟨rs, hrs⟩ := hfits.literalResult hend
  obtain rfl := Except.ok.inj (hus.symm.trans hrs)
  have hrs' : (d'.walkTo hss).resolveResult = .ok (rs.map .literal) := hus'
  rw [resultHandles_eq hrs, resultHandles_eq hrs']
  exact .pure rfl

end Model

/-! ## Claiming and verifying -/

namespace Session

variable {σ : Type} {M : Model σ} {l : Label} {m : Mapping} {d d' : Distribution}
  (h : d.Respelled d'.assignments d'.result)

include h

theorem claimsFrom_respelled {results : List (List Value)} (hfits : d.Fitting results)
    {as as' : List Assignment} (has : d.assignments.drop results.length = as)
    (has' : d'.assignments.drop results.length = as') :
    claimsFrom l m ⟨d, results⟩ as = claimsFrom l m ⟨d', results⟩ as' := by
  induction as generalizing results as' with
  | nil =>
      have hend : as'.length = 0 := by
        rw [← has', List.length_drop, ← h.assignments.length_eq, ← List.length_drop, has]
        rfl
      rw [List.eq_nil_of_length_eq_zero hend]
      rfl
  | cons a rest ih =>
      obtain ⟨ha, hrest⟩ := drop_eq_cons_iff.1 has
      obtain ⟨a', ha', hrespelled⟩ := forall₂_some_left h.assignments ha
      obtain ⟨us, hcall, hcall'⟩ := h.resolvesCall hfits ha hrespelled
      obtain ⟨rest', hrest'⟩ : ∃ rest', d'.assignments.drop results.length = a' :: rest' :=
        ⟨_, drop_eq_cons_iff.2 ⟨ha', rfl⟩⟩
      rw [hrest'] at has'
      subst has'
      rw [claimsFrom_cons l m ha hcall, claimsFrom_cons l m ha' hcall', hrespelled.names,
        hrespelled.function]
      cases hmapped : a.names.mapM (mapped l m) with
      | error e => rfl
      | ok result =>
          have hlen : a.names.length = result.length := (mapM_ok_iff.1 hmapped).length_eq
          have hfits' := Distribution.fitting_append.2 ⟨hfits, a, ha, hlen⟩
          have hnext := ih hfits' (by rw [List.length_append, List.length_singleton, hrest])
            (by rw [List.length_append, List.length_singleton, (drop_eq_cons_iff.1 hrest').2])
          simp only [Bind.bind, Except.bind, hnext]

/-- A mapping claims the same. -/
theorem claims_respelled (l : Label) (m : Mapping) : claims l d m = claims l d' m :=
  claimsFrom_respelled h d.fitting_nil rfl rfl

omit h in
/-- One label of a walk, when the call of its assignment is resolved. -/
theorem verifySteps_cons (l : Label) {results : List (List Value)} {a : Assignment}
    {us : List Value} (ha : d.assignments[results.length]? = some a)
    (hcall : Walk.resolveCall ⟨d, results⟩ a.call = .ok ⟨a.call.function, us⟩) (claim : Label)
    (rest : List Label) :
    verifySteps M l ⟨d, results⟩ (claim :: rest) = (do
      unifyCalls M l claim.call ⟨a.call.function, us⟩
      if a.names.length = claim.result.length then
        verifySteps M l ⟨d, results ++ [claim.result]⟩ rest
      else throw (Defect.wrongArity a.call claim.result.length a.names.length).failure) := by
  have hnext : Walk.next? ⟨d, results⟩ = some a := ha
  rw [verifySteps, hnext]
  simp only [hcall, Walk.bind_of_next? hnext, Except.mapError, Action.liftM_ok_bind]
  refine bind_congr fun _ => ?_
  by_cases hlen : a.names.length = claim.result.length
  · simp only [if_pos hlen, Action.liftM_ok_bind]
  · simp only [if_neg hlen, Action.liftM_error_bind]

/-- The same labels are verified by both walks. Only where an assignment refuses the results of a
label for their number, the two failures need not be one. -/
theorem verifySteps_alike {F : Failure → Failure → Prop} (hF : ∀ f, F f f)
    {results : List (List Value)} (hfits : d.Fitting results) {claims : List Label}
    (hlen : results.length + claims.length = d.assignments.length)
    (hmisfit : ∀ (i : Nat) (claim : Label) (a a' : Assignment), claims[i]? = some claim →
      d.assignments[results.length + i]? = some a →
      d'.assignments[results.length + i]? = some a' → a.names.length ≠ claim.result.length →
      F (Defect.wrongArity a.call claim.result.length a.names.length).failure
        (Defect.wrongArity a'.call claim.result.length a.names.length).failure) :
    Run.Alike F
      (fun w w' => ∃ results, d.Fitting results ∧ results.length = d.assignments.length ∧
        w = ⟨d, results⟩ ∧ w' = ⟨d', results⟩)
      (Run.ofAction (verifySteps M l ⟨d, results⟩ claims))
      (Run.ofAction (verifySteps M l ⟨d', results⟩ claims)) := by
  induction claims generalizing results with
  | nil => exact .pure ⟨results, hfits, hlen, rfl, rfl⟩
  | cons claim rest ih =>
      rw [List.length_cons] at hlen
      obtain ⟨a, ha⟩ : ∃ a, d.assignments[results.length]? = some a :=
        ⟨_, List.getElem?_eq_getElem (by omega)⟩
      obtain ⟨a', ha', hrespelled⟩ := forall₂_some_left h.assignments ha
      obtain ⟨us, hcall, hcall'⟩ := h.resolvesCall hfits ha hrespelled
      rw [verifySteps_cons l ha hcall, verifySteps_cons l ha' hcall', hrespelled.function,
        hrespelled.names, ← Run.ofAction_bind, ← Run.ofAction_bind]
      refine .bind_right _ hF fun _ => ?_
      by_cases hfit : a.names.length = claim.result.length
      · rw [if_pos hfit, if_pos hfit]
        refine ih (Distribution.fitting_append.2 ⟨hfits, a, ha, hfit⟩) ?_ ?_
        · rw [List.length_append, List.length_singleton]
          omega
        · intro i claim' b b' hclaim' hb hb'
          rw [List.length_append, List.length_singleton, Nat.add_assoc, Nat.add_comm 1] at hb hb'
          exact hmisfit (i + 1) claim' b b' hclaim' hb hb'
      · rw [if_neg hfit, if_neg hfit]
        exact .throw (hmisfit 0 claim a a' rfl ha ha' hfit)

theorem verify_alike {F : Failure → Failure → Prop} (hF : ∀ f, F f f) {claims : List Label}
    (hmisfit : ∀ (i : Nat) (claim : Label) (a a' : Assignment), claims[i]? = some claim →
      d.assignments[i]? = some a → d'.assignments[i]? = some a' →
      a.names.length ≠ claim.result.length →
      F (Defect.wrongArity a.call claim.result.length a.names.length).failure
        (Defect.wrongArity a'.call claim.result.length a.names.length).failure) :
    Run.Alike F Eq (Run.ofAction (verify M l d claims)) (Run.ofAction (verify M l d' claims)) := by
  unfold verify
  rw [← h.assignments.length_eq]
  by_cases hlen : claims.length = d.assignments.length
  · simp only [hlen, ne_eq, not_true_eq_false, if_false, ← Run.ofAction_bind]
    refine (verifySteps_alike h hF d.fitting_nil (by simpa using hlen)
      (by simpa using hmisfit)).bind ?_
    rintro _ _ ⟨results, hfits, hend, rfl, rfl⟩
    obtain ⟨us, hus, hus'⟩ := h.resolvesResult hfits hend
    simp only [hus, hus', Except.mapError, Run.ofAction_bind, Action.liftM_ok_bind]
    exact .same hF _
  · simp only [hlen, ne_eq, not_false_eq_true, if_true]
    exact .throw (hF _)

omit h in
theorem claimsFromOr_lengths {standIn : Value → Value} {w : Walk} {as : List Assignment}
    {cs : List Label} (hcs : claimsFromOr standIn l m w as = .ok cs) :
    List.Forall₂ (fun a claim => a.names.length = claim.result.length) as cs := by
  induction as generalizing w cs with
  | nil =>
      cases hcs
      exact .nil
  | cons a rest ih =>
      obtain ⟨result, hresult, hcs⟩ := bind_eq_ok_iff.1 hcs
      obtain ⟨cs', hrest, hcs⟩ := bind_eq_ok_iff.1 hcs
      obtain rfl := pure_eq_ok_iff.1 hcs
      exact .cons (mapM_ok_iff.1 hresult).length_eq (ih hrest)

/-- What a mapping claims has as many results as the assignments have variables. So it is verified
by both distributions and recorded alike, or fails alike to be. -/
theorem alternative_respelled (l : Label) (m : Mapping) :
    alternative M l d m = alternative M l d' m := by
  unfold alternative
  rw [← claims_respelled h]
  cases hclaims : claims l d m with
  | error e => rfl
  | ok cs =>
      have hlengths := claimsFromOr_lengths ((claims_eq l d m id).symm.trans hclaims)
      have hverify : verify M l d cs = verify M l d' cs := by
        refine Run.Alike.eq <| verify_alike h (fun _ => rfl) ?_
        intro i claim a a' hclaim ha _ hmisfit
        obtain ⟨claim', hclaim', hlen⟩ := forall₂_some_left hlengths ha
        obtain rfl := Option.some.inj (hclaim.symm.trans hclaim')
        exact absurd hlen hmisfit
      simp only [Action.liftM_ok_bind, hverify]

end Session

/-! ## Telling them apart -/

namespace Distribution

/-- With any of its references spelled in another way a distribution is a distribution still, and
nobody can tell the two apart. Every result is used as often; whatever calls return, both draw the
same handles with the same words and leave the same store; a mapping has to bind the same variables
and claims the same, and what it claims is verified and recorded in the same way; and any other
labels are verified in the same way, too. -/
theorem respelled_same {d : Distribution} {as : List Assignment} {result : List Value}
    (h : d.Respelled as result) :
    ∃ d', make as result = .ok d' ∧ d'.useCounts = d.useCounts ∧
      (∀ {σ : Type} (M : Model σ) draw, Run.Alike (d.SameFailure d') Eq
        (M.sampleDistribution draw d) (M.sampleDistribution draw d')) ∧
      (∀ p, Session.checkNames p d = Session.checkNames p d') ∧
      (∀ l m, Session.claims l d m = Session.claims l d' m) ∧
      (∀ {σ : Type} (M : Model σ) l m,
        Session.alternative M l d m = Session.alternative M l d' m) ∧
      ∀ {σ : Type} (M : Model σ) l claims, Run.Alike (d.SameFailure d') Eq
        (Run.ofAction (Session.verify M l d claims))
        (Run.ofAction (Session.verify M l d' claims)) := by
  let d' : Distribution := ⟨as, result, check_ok_iff.2 h.wellFormed⟩
  have h' : d.Respelled d'.assignments d'.result := h
  refine ⟨d', make_eq_ok_iff.2 ⟨rfl, rfl⟩, h'.useCounts,
    fun M draw => Model.sampleDistribution_alike h', fun p => ?_, Session.claims_respelled h',
    fun M => Session.alternative_respelled h', fun M l claims => ?_⟩
  · have hnames : d'.names = d.names := flatMap_names_of_respelled h.assignments
    simp only [Session.checkNames, hnames]
  · exact Session.verify_alike h' .same fun i claim a a' _ ha ha' => .wrongArity ha ha'

/-! ## Two values, read by name and by place -/

namespace echoes

/-- Each of the two values that are picked is read in both ways somewhere. -/
def distribution : Distribution where
  assignments := [⟨⟨"pick", [.literal ⟨0⟩]⟩, ["a", "b"]⟩,
    ⟨⟨"echo", [.named "a", .output 0 1]⟩, ["c"]⟩]
  result := [.named "c", .output 0 0]
  checked := by decide

/-- The assignments with the other spelling of each reference. -/
def assignments : List Assignment :=
  [⟨⟨"pick", [.literal ⟨0⟩]⟩, ["a", "b"]⟩, ⟨⟨"echo", [.output 0 0, .named "b"]⟩, ["c"]⟩]

/-- The result with one reference in its other spelling. -/
def result : List Value := [.output 1 0, .output 0 0]

end echoes

theorem echoes_same :
    echoes.distribution.Respelled echoes.assignments echoes.result ∧
    ∃ d', make echoes.assignments echoes.result = .ok d' ∧ d'.useCounts = [[2, 1], [1]] ∧
      (∀ {σ : Type} (M : Model σ) draw, Run.Alike (echoes.distribution.SameFailure d') Eq
        (M.sampleDistribution draw echoes.distribution) (M.sampleDistribution draw d')) ∧
      ∀ l m, Session.claims l echoes.distribution m = Session.claims l d' m := by
  have hpick : Assignment.Respelled echoes.distribution
      ⟨⟨"pick", [.literal ⟨0⟩]⟩, ["a", "b"]⟩ ⟨⟨"pick", [.literal ⟨0⟩]⟩, ["a", "b"]⟩ :=
    ⟨rfl, .cons (.same _) .nil, rfl⟩
  have hecho : Assignment.Respelled echoes.distribution
      ⟨⟨"echo", [.named "a", .output 0 1]⟩, ["c"]⟩ ⟨⟨"echo", [.output 0 0, .named "b"]⟩, ["c"]⟩ :=
    ⟨rfl, .cons (.place (by decide)) (.cons (.name rfl rfl) .nil), rfl⟩
  have h : echoes.distribution.Respelled echoes.assignments echoes.result :=
    ⟨.cons hpick (.cons hecho .nil), .cons (.place (by decide)) (.cons (.same _) .nil)⟩
  have huses : echoes.distribution.useCounts = [[2, 1], [1]] := by decide
  obtain ⟨d', hmake, huses', hdraw, -, hclaims, -⟩ := respelled_same h
  exact ⟨h, d', hmake, huses'.trans huses, hdraw, hclaims⟩

end Distribution

end ChanceProof
