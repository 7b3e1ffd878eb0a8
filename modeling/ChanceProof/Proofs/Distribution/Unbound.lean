import ChanceProof.Evaluation.Expand
import ChanceProof.Proofs.Distribution.Walked
import ChanceProof.Proofs.Sampling.Refinement

/-!
# Nothing is read before it is bound

Resolving a reference may fail, and so everybody who walks a distribution has a way to fail for a
reference. None of them is ever taken. The sampler is the same as one that goes on with any stand-in
where nothing is bound (`Model.sampleDistribution_eq`), and so is the derivation of claims from a
mapping (`Session.claims_eq`): what they have as failures of their own is a call that returns
another number of values than are bound, and a variable that a mapping leaves out.

Both go along a walk that fits at every step, where references are resolved; `references_bound` puts
this together.
-/

namespace ChanceProof

/-- Resolve a reference, or let something stand in for it where nothing is bound. -/
def Walk.resolveOr (w : Walk) (standIn : Value → Value) (v : Value) : Value :=
  match w.resolve v with
  | .ok u => u
  | .error _ => standIn v

theorem Walk.map_resolveOr {w : Walk} (standIn : Value → Value) {vs us : List Value}
    (h : vs.mapM w.resolve = .ok us) : vs.map (w.resolveOr standIn) = us := by
  have hresolved := mapM_ok_iff.1 h
  clear h
  induction hresolved with
  | nil => rfl
  | cons hone _ ih => rw [List.map_cons, ih, resolveOr, hone]

/-- Literals are what some handles stand for. -/
theorem exists_literals {us : List Value} (h : ∀ u ∈ us, u.isLiteral = true) :
    ∃ hs : List Handle, us = hs.map .literal :=
  ⟨_, (Call.isGrounded_iff (c := ⟨"", us⟩)).1 (List.all_eq_true.2 h)⟩

theorem drop_eq_cons_iff {α : Type} {xs rest : List α} {n : Nat} {x : α} :
    xs.drop n = x :: rest ↔ xs[n]? = some x ∧ xs.drop (n + 1) = rest := by
  rw [← List.head?_drop, ← List.tail_drop]
  cases xs.drop n <;> simp

theorem Walk.resolveCall_eq_ok_iff {w : Walk} {c : Call} {us : List Value} :
    w.resolveCall c = .ok ⟨c.function, us⟩ ↔ c.parameters.mapM w.resolve = .ok us := by
  rw [resolveCall, ChanceProof.bind_eq_ok_iff]
  simp only [pure_eq_ok_iff, Call.mk.injEq, true_and, exists_eq_right]

namespace Distribution.Fitting

variable {d : Distribution} {hss : List (List Handle)}

/-- The next call of a sampler is resolved. -/
theorem resolvesCallTo (h : d.Fitting hss) {a : Assignment}
    (ha : d.assignments[hss.length]? = some a) :
    ∃ us, (d.walkTo hss).resolveCall a.call = .ok ⟨a.call.function, us⟩ :=
  let ⟨us, hus, _⟩ := ((fitting_map Value.literal).2 h).resolvesCall (by rw [List.length_map, ha])
  ⟨us, hus⟩

/-- After the last assignment a sampler has handles. -/
theorem literalResult (h : d.Fitting hss) (hend : hss.length = d.assignments.length) :
    ∃ rs : List Handle, (d.walkTo hss).resolveResult = .ok (rs.map .literal) := by
  obtain ⟨us, hus, -, hliteral⟩ :=
    ((fitting_map Value.literal).2 h).resolvesResult (by rw [List.length_map, hend])
  have hbound : ∀ values ∈ hss.map (·.map Value.literal), ∀ v ∈ values, v.isLiteral = true := by
    simp [Value.isLiteral, Value.handle?]
  obtain ⟨rs, rfl⟩ := exists_literals (hliteral hbound)
  exact ⟨rs, hus⟩

end Distribution.Fitting

/-! ## Sampling with stand-ins -/

namespace Model

variable {σ : Type} (M : Model σ)

/-- Sample assignments with a stand-in for what is not bound. Only a call that returns another
number of values than its assignment binds is refused. -/
def sampleAssignmentsOr (standIn : Value → Value) (draw : Call → Draw σ (List Handle)) :
    Walk → List (Assignment × List Nat) → Draw σ Walk
  | w, [] => return w
  | w, (a, uses) :: rest => do
    let results ← draw ⟨a.call.function, a.call.parameters.map (w.resolveOr standIn)⟩
    if a.names.length = results.length then do
      Draw.ask (M.settleUses (results.zip uses))
      let results := w.results ++ [results.map .literal]
      sampleAssignmentsOr standIn draw { w with results } rest
    else throw (Defect.wrongArity a.call results.length a.names.length).failure

/-- Sample a distribution with a stand-in for what is not bound, and a handle that stands for
any result that is no literal. -/
def sampleDistributionOr (standIn : Value → Value) (stranger : Handle)
    (draw : Call → Draw σ (List Handle)) (d : Distribution) : Draw σ (List Handle) := do
  let w ← M.sampleAssignmentsOr standIn draw (.start d) (d.assignments.zip d.useCounts)
  return (d.result.map (w.resolveOr standIn)).map fun v => v.handle?.getD stranger

variable {M} {draw : Call → Draw σ (List Handle)} {d : Distribution}

/-- One assignment of a walk, when the call of it is resolved. -/
theorem sampleAssignments_cons {hss : List (List Handle)} {a : Assignment} {us : List Value}
    (ha : d.assignments[hss.length]? = some a)
    (hcall : (d.walkTo hss).resolveCall a.call = .ok ⟨a.call.function, us⟩) (uses : List Nat)
    (rest : List (Assignment × List Nat)) :
    M.sampleAssignments draw (d.walkTo hss) ((a, uses) :: rest) = (do
      let rs ← draw ⟨a.call.function, us⟩
      if a.names.length = rs.length then do
        Draw.ask (M.settleUses (rs.zip uses))
        M.sampleAssignments draw (d.walkTo (hss ++ [rs])) rest
      else throw (Defect.wrongArity a.call rs.length a.names.length).failure) := by
  rw [sampleAssignments]
  simp only [hcall, Except.mapError, Run.liftM_ok_bind]
  refine bind_congr fun rs => ?_
  rw [Distribution.bind_walkTo ha]
  by_cases hlen : a.names.length = rs.length
  · simp only [if_pos hlen, Run.liftM_ok_bind]
  · simp only [if_neg hlen, Run.liftM_error_bind]

/-- The end of a walk, when the results of the distribution are resolved. -/
theorem resultHandles_eq {w : Walk} {rs : List Handle}
    (h : w.resolveResult = .ok (rs.map .literal)) :
    (do
      let results ← w.resolveResult.mapError Defect.failure
      results.mapM fun v => liftM (resultHandle v) : Draw σ (List Handle)) = pure rs := by
  rw [h]
  simp only [Except.mapError, Run.liftM_ok_bind]
  exact funext fun s => run_resultHandles rs s

/-- Up to the end of the assignments stand-ins make no difference to what comes after it. -/
theorem sampleAssignments_bind_eq {α : Type} (standIn : Value → Value) {f g : Walk → Draw σ α}
    (hfg : ∀ hss : List (List Handle), d.Fitting hss → hss.length = d.assignments.length →
      f (d.walkTo hss) = g (d.walkTo hss))
    {hss : List (List Handle)} (hfits : d.Fitting hss) (steps : List (Assignment × List Nat))
    (hsteps : steps.map (·.1) = d.assignments.drop hss.length) :
    M.sampleAssignments draw (d.walkTo hss) steps >>= f
      = M.sampleAssignmentsOr standIn draw (d.walkTo hss) steps >>= g := by
  induction steps generalizing hss with
  | nil =>
      have hend : d.assignments.length ≤ hss.length := List.drop_eq_nil_iff.1 hsteps.symm
      exact hfg hss hfits (Nat.le_antisymm hfits.length_le hend)
  | cons step rest ih =>
      obtain ⟨a, uses⟩ := step
      obtain ⟨ha, hrest⟩ := drop_eq_cons_iff.1 hsteps.symm
      obtain ⟨us, hcall⟩ := hfits.resolvesCallTo ha
      rw [sampleAssignments_cons ha hcall, sampleAssignmentsOr,
        Walk.map_resolveOr standIn (Walk.resolveCall_eq_ok_iff.1 hcall)]
      simp only [bind_assoc]
      refine bind_congr fun rs => ?_
      by_cases hlen : a.names.length = rs.length
      · simp only [if_pos hlen, bind_assoc]
        refine bind_congr fun _ => ?_
        have hwalk : ({ d.walkTo hss with
            results := (d.walkTo hss).results ++ [rs.map Value.literal] } : Walk)
              = d.walkTo (hss ++ [rs]) := by simp [Distribution.walkTo]
        rw [hwalk]
        refine ih (Distribution.fitting_append.2 ⟨hfits, a, ha, hlen⟩) ?_
        rw [List.length_append, List.length_singleton, hrest]
      · simp only [if_neg hlen]
        rfl

theorem map_fst_zip_useCounts (d : Distribution) :
    (d.assignments.zip d.useCounts).map (·.1) = d.assignments :=
  List.map_fst_zip (by simp [Distribution.useCounts])

/-- No draw from a distribution notices what would stand in for a reference. -/
theorem sampleDistribution_eq (M : Model σ) (draw : Call → Draw σ (List Handle)) (d : Distribution)
    (standIn : Value → Value) (stranger : Handle) :
    M.sampleDistribution draw d = M.sampleDistributionOr standIn stranger draw d := by
  unfold sampleDistribution sampleDistributionOr
  refine sampleAssignments_bind_eq standIn (fun hss hfits hend => ?_) d.fitting_nil _
    (map_fst_zip_useCounts d)
  obtain ⟨rs, hresult⟩ := hfits.literalResult hend
  have hmap : d.result.map ((d.walkTo hss).resolveOr standIn) = rs.map .literal :=
    Walk.map_resolveOr standIn hresult
  have hhandles : (rs.map Value.literal).map (fun v => v.handle?.getD stranger) = rs := by
    simp [Function.comp_def, Value.handle?]
  rw [resultHandles_eq hresult, hmap, hhandles]

end Model

/-! ## Claims with stand-ins -/

namespace Session

/-- The labels of the assignments that are left, with a stand-in for what is not bound. Only a
variable that the mapping leaves out is refused. -/
def claimsFromOr (standIn : Value → Value) (l : Label) (m : Mapping) :
    Walk → List Assignment → Except Failure (List Label)
  | _, [] => .ok []
  | w, a :: rest => do
    let result ← a.names.mapM (mapped l m)
    let claims ← claimsFromOr standIn l m { w with results := w.results ++ [result] } rest
    return ⟨⟨a.call.function, a.call.parameters.map (w.resolveOr standIn)⟩, result⟩ :: claims

/-- One assignment, when the call of it is resolved. What a mapping gives for its variables is as
many values, and is bound. -/
theorem claimsFrom_cons (l : Label) (m : Mapping) {d : Distribution} {results : List (List Value)}
    {a : Assignment} {us : List Value} (ha : d.assignments[results.length]? = some a)
    (hcall : Walk.resolveCall ⟨d, results⟩ a.call = .ok ⟨a.call.function, us⟩)
    (rest : List Assignment) :
    claimsFrom l m ⟨d, results⟩ (a :: rest) = (do
      let result ← a.names.mapM (mapped l m)
      let claims ← claimsFrom l m ⟨d, results ++ [result]⟩ rest
      return ⟨⟨a.call.function, us⟩, result⟩ :: claims) := by
  rw [claimsFrom, hcall]
  cases hmapped : a.names.mapM (mapped l m) with
  | error e => rfl
  | ok result =>
      have hlen : a.names.length = result.length := (mapM_ok_iff.1 hmapped).length_eq
      have hbind : Walk.bind ⟨d, results⟩ result = .ok ⟨d, results ++ [result]⟩ :=
        Walk.bind_eq_ok_iff.2 ⟨⟨a, ha, hlen⟩, rfl⟩
      simp only [Bind.bind, Except.bind, Except.mapError, hbind]

theorem claimsFrom_eq (standIn : Value → Value) (l : Label) (m : Mapping) {d : Distribution}
    {results : List (List Value)} (hfits : d.Fitting results) (as : List Assignment)
    (has : d.assignments.drop results.length = as) :
    claimsFrom l m ⟨d, results⟩ as = claimsFromOr standIn l m ⟨d, results⟩ as := by
  induction as generalizing results with
  | nil => rfl
  | cons a rest ih =>
      obtain ⟨ha, hrest⟩ := drop_eq_cons_iff.1 has
      obtain ⟨us, hcall, -⟩ := hfits.resolvesCall ha
      rw [claimsFrom_cons l m ha hcall, claimsFromOr,
        Walk.map_resolveOr standIn (Walk.resolveCall_eq_ok_iff.1 hcall)]
      cases hmapped : a.names.mapM (mapped l m) with
      | error e => rfl
      | ok result =>
          have hlen : a.names.length = result.length := (mapM_ok_iff.1 hmapped).length_eq
          have hfits' := Distribution.fitting_append.2 ⟨hfits, a, ha, hlen⟩
          have hnext := ih hfits' (by rw [List.length_append, List.length_singleton, hrest])
          simp only [Bind.bind, Except.bind, hnext]

/-- No claim that is derived from a mapping depends on what would stand in for a reference. -/
theorem claims_eq (l : Label) (d : Distribution) (m : Mapping) (standIn : Value → Value) :
    claims l d m = claimsFromOr standIn l m (.start d) d.assignments :=
  claimsFrom_eq standIn l m d.fitting_nil d.assignments rfl

end Session

/-- A walk over a distribution resolves every reference to what is bound there, and is refused only
results of another number. So neither sampling nor claiming ever fails for a reference. -/
theorem Distribution.references_bound (d : Distribution) :
    (∀ results, (∃ w, results.foldlM Walk.bind (.start d) = .ok w) ↔ d.Fitting results) ∧
    (∀ results w, results.foldlM Walk.bind (.start d) = .ok w →
      (∀ a, w.next? = some a →
        (∃ us, w.resolveCall a.call = .ok ⟨a.call.function, us⟩ ∧
          d.Fills results a.call.parameters us) ∧
        ∀ values, w.bind values = if a.names.length = values.length then
            .ok ⟨d, results ++ [values]⟩
          else .error (.wrongArity a.call values.length a.names.length)) ∧
      (w.next? = none →
        ∃ us, w.resolveResult = .ok us ∧ d.Fills results d.result us)) ∧
    (∀ {σ : Type} (M : Model σ) draw standIn stranger,
      M.sampleDistribution draw d = M.sampleDistributionOr standIn stranger draw d) ∧
    ∀ l m standIn,
      Session.claims l d m = Session.claimsFromOr standIn l m (.start d) d.assignments := by
  refine ⟨fun results => ?_, fun results w hw => ?_, fun M draw => M.sampleDistribution_eq draw d,
    fun l m => Session.claims_eq l d m⟩
  · simp only [Walk.foldlM_bind_eq_ok_iff, exists_and_left, exists_eq, and_true]
  · obtain ⟨hfits, rfl⟩ := Walk.foldlM_bind_eq_ok_iff.1 hw
    refine ⟨fun a ha => ⟨hfits.resolvesCall ha, Walk.bind_of_next? ha⟩, fun hend => ?_⟩
    have hle := hfits.length_le
    have hge : d.assignments.length ≤ results.length := List.getElem?_eq_none_iff.1 hend
    exact hfits.resolvesResult (Nat.le_antisymm hle hge)

end ChanceProof
