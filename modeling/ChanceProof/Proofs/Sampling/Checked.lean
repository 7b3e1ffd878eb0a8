import ChanceProof.Proofs.Model.Lockstep
import ChanceProof.Proofs.Model.Watched
import ChanceProof.Proofs.Sampling.Ownership

/-!
# A guard changes no draw

Of a model behind its guard the sampler asks nothing that the guard answers by itself. A grounded
call is followed by grounded calls only, since all that a walk binds are handles and no distribution
leaves anything for unification to find, and a count is never changed by zero. So a draw of a
grounded call only depends on what models do at the requests that are handed on:
`Model.Serves.sample`.
-/

namespace ChanceProof

namespace Distribution

variable {d : Distribution} {hss : List (List Handle)}

theorem ReadsBefore.ne_unknown {n : Nat} {v : Value} (h : d.ReadsBefore n v) (name : String) :
    v ≠ .unknown name := by
  rintro rfl
  rcases h with ⟨a, h⟩ | ⟨place, a, hslot, -⟩
  · cases h
  · cases hslot

/-- A walk that is bound to handles resolves references to handles. -/
theorem isLiteral_of_resolve {v u : Value} (hv : ∀ name, v ≠ .unknown name)
    (h : (d.walkTo hss).resolve v = .ok u) : u.isLiteral = true := by
  rcases Walk.resolve_eq_ok_iff.1 h with ⟨⟨a, rfl⟩ | ⟨name, rfl⟩, rfl⟩ | ⟨place, -, hbound⟩
  · rfl
  · exact absurd rfl (hv name)
  · rw [bound?_walkTo] at hbound
    obtain ⟨a, -, rfl⟩ := Option.map_eq_some_iff.1 hbound
    rfl

theorem isGrounded_of_resolveCall {a : Assignment} (ha : a ∈ d.assignments) {c : Call}
    (h : (d.walkTo hss).resolveCall a.call = .ok c) : c.isGrounded = true := by
  obtain ⟨i, hi, hget⟩ := List.getElem_of_mem ha
  have hreads := d.reads_earlier (List.getElem?_eq_some_iff.2 ⟨hi, hget⟩)
  obtain ⟨parameters, hparameters, hc⟩ := bind_eq_ok_iff.1 h
  cases pure_eq_ok_iff.1 hc
  refine List.all_eq_true.2 fun u hu => ?_
  obtain ⟨v, hv, hresolve⟩ := exists_of_forall₂_mem (mapM_ok_iff.1 hparameters) hu
  exact isLiteral_of_resolve (fun name => (hreads v hv).ne_unknown name) hresolve

end Distribution

namespace Model.Serves

variable {σ τ : Type} {view : σ → τ} {R : σ → σ → Prop} {M : Model σ} {N : Model τ}
  [hrefl : Std.Refl R] [IsTrans σ R] (hS : M.Serves view R N)

include hS

theorem readProbability (c : Call) (a : Handle) :
    Action.Shows view R (M.readProbability c a) (N.readProbability c a) :=
  (hS.toExternal a).bind fun _ => .liftM _

theorem release (handles : List Handle) :
    Action.Shows view R (handles.forM fun a => M.modifyCount a (-1))
      (handles.forM fun a => N.modifyCount a (-1)) :=
  .forM handles fun _ => hS.modifyCount (by decide : (-1 : Int) ≠ 0)

theorem settleUses (uses : List (Handle × Nat)) :
    Action.Shows view R (M.settleUses uses) (N.settleUses uses) := by
  induction uses with
  | nil => exact .pure ()
  | cons use rest ih =>
      obtain ⟨a, n⟩ := use
      rw [settleUses_cons, settleUses_cons]
      refine .bind ?_ fun _ => ih
      split
      · next hn => exact hS.modifyCount (by omega : (n : Int) - 1 ≠ 0)
      · exact .pure ()

theorem sampleCoin (c : Call) : Draw.Shows view R (M.sampleCoin c) (N.sampleCoin c) := by
  unfold Model.sampleCoin
  split
  · refine .bind (.ask (hS.readProbability c _)) fun p => ?_
    refine .bind (.ask (hS.modifyCount (by decide : (-1 : Int) ≠ 0))) fun _ => ?_
    exact .bind (.flip p) fun landed => .ask (hS.fromExternal _)
  · exact .throw _
  · exact .throw _

section

variable {draw : Call → Draw σ (List Handle)} {draw' : Call → Draw τ (List Handle)}
  (h : ∀ c : Call, c.isGrounded = true → Draw.Shows view R (draw c) (draw' c))

include h

theorem sampleAssignments {d : Distribution} (steps : List (Assignment × List Nat))
    (hsteps : ∀ st ∈ steps, st.1 ∈ d.assignments) (hss : List (List Handle)) :
    Draw.Shows view R (M.sampleAssignments draw (d.walkTo hss) steps)
      (N.sampleAssignments draw' (d.walkTo hss) steps) := by
  induction steps generalizing hss with
  | nil => exact .pure _
  | cons st rest ih =>
      obtain ⟨a, uses⟩ := st
      obtain ⟨ha, hrest⟩ := List.forall_mem_cons.1 hsteps
      unfold Model.sampleAssignments
      refine .bind_liftM fun c hc => ?_
      refine .bind (h c (Distribution.isGrounded_of_resolveCall ha (mapError_ok.1 hc))) fun rs => ?_
      refine .bind_liftM fun w hw => .bind (.ask (hS.settleUses _)) fun _ => ?_
      obtain ⟨-, rfl⟩ := Walk.bind_eq_ok_iff.1 (mapError_ok.1 hw)
      have hwalk : ({ d.walkTo hss with
          results := (d.walkTo hss).results ++ [rs.map Value.literal] } : Walk)
            = d.walkTo (hss ++ [rs]) := by simp [Distribution.walkTo]
      rw [hwalk]
      exact ih hrest _

theorem sampleDistribution (d : Distribution) :
    Draw.Shows view R (M.sampleDistribution draw d) (N.sampleDistribution draw' d) := by
  have hsteps : ∀ st ∈ d.assignments.zip d.useCounts, st.1 ∈ d.assignments := fun st hst =>
    (List.of_mem_zip hst).1
  unfold Model.sampleDistribution
  rw [show Walk.start d = d.walkTo [] from rfl]
  exact .bind (hS.sampleAssignments h _ hsteps []) fun w => .bind (.liftM _) fun results =>
    .mapM results fun v => .liftM _

end

/-- A draw of a grounded call asks only for what a guard hands on. -/
theorem sample (depth : Nat) {c : Call} (hc : c.isGrounded = true) :
    Draw.Shows view R (M.sample depth c) (N.sample depth c) := by
  induction depth generalizing c with
  | zero => exact .unfinished
  | succ depth ih =>
      unfold Model.sample
      split
      · exact .bind (hS.sampleCoin c) fun h => .pure _
      · next hprim =>
          refine .bind (.ask (hS.getDistribution ⟨hc, Bool.eq_false_iff.2 hprim⟩)) fun e => ?_
          refine .bind (.ask (hS.release c.handles)) fun _ => ?_
          exact hS.sampleDistribution (fun c hc => ih hc) e.distribution

end Model.Serves

end ChanceProof
