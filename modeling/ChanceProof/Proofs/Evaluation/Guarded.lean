import ChanceProof.Proofs.Evaluation.Frame
import ChanceProof.Proofs.Model.Watched
import ChanceProof.Wire.Proofs

/-!
# A guard changes no evaluation

A session compares handles only when they differ, and the calls that it asks about are grounded and
compound: their arguments are canonical handles, and the proof of a coin asks for no distribution.
So an evaluation, with all that is read from a file before and exported after it, only depends on
what models do at the requests that a guard hands on (`Model.Serves.proveFile`).
-/

namespace ChanceProof

variable {σ τ α : Type} {view : σ → τ} {R : σ → σ → Prop} {M : Model σ} {N : Model τ}

/-! ## All that an evaluation tells -/

/-- Results without handles. -/
structure Exported (α : Type) where
  labels : List (PortableLabel × α)
  proved : List PortableLabel
  bindings : List (String × Json)
  stats : Stats

namespace Model

variable {σ α : Type} (M : Model σ)

/-- Export all labels and all values of unknowns. -/
def exportResults (r : Results α) : Action σ (Exported α) := do
  let labels ← r.labels.mapM fun v => do return (← M.exportLabel v.1, v.2)
  let proved ← r.proved.mapM M.exportLabel
  let bindings ← r.bindings.mapM fun b => do return (b.1, ← M.toExternal b.2)
  return ⟨labels, proved, bindings, r.stats⟩

/-- Evaluate the proofs of a file and export what they lead to. -/
def proveFile (A : Arithmetic α) (settings : Settings) (limit : Nat) (text : String) :
    Run σ (Exported α) := do
  let proofs ← Run.ofAction (M.loadProofs text)
  let results ← M.evaluate A settings limit proofs
  Run.ofAction (M.exportResults results)

end Model

namespace Model.Serves

variable [Std.Refl R] [IsTrans σ R] (hS : M.Serves view R N)

include hS

omit [IsTrans σ R] in
theorem frame : Session.Frame view M N (Order.Preimage Session.world R) where
  toExternal h w := (hS.toExternal h w).2
  isEqual _ _ hne w := (hS.isEqual hne w).2
  keeps_toExternal h s := (hS.toExternal h s.world).1
  keeps_isEqual _ _ hne s := (hS.isEqual hne s.world).1
  canonicalOf s _ _ _ _ := Std.Refl.refl s.world
  bindings s _ := Std.Refl.refl s.world
  records s _ _ := Std.Refl.refl s.world

theorem evaluate (A : Arithmetic α) (settings : Settings) (limit : Nat) (ps : List Proof) :
    Run.Shows view R (M.evaluate A settings limit ps) (N.evaluate A settings limit ps) := by
  intro w
  have hexpand := hS.frame.expandAll (fun c hgrounded hprim =>
    Session.shows_distribution (hS.getDistribution ⟨hgrounded, hprim⟩)) ps
  obtain ⟨hkeeps, hshows⟩ := hexpand (.start settings w)
  have hstart : Session.seen view (.start settings w) = .start settings (view w) := rfl
  rw [evaluate_eq, evaluate_eq, ← hstart, hshows]
  rcases hr : (Session.expandAll M ps).run (.start settings w) with ⟨x, s⟩
  rw [hr] at hkeeps
  have hconclude := Session.conclude_shows hS.frame.reading A limit x s
  simp only
  rcases hc : Session.conclude M A limit (x, s) with _ | ⟨r, w'⟩ <;> rw [hc] at hconclude
  · exact hconclude
  · exact ⟨IsTrans.trans (r := R) _ _ _ hkeeps hconclude.1, hconclude.2⟩

theorem importValue (v : Json) :
    Action.Shows view R (M.importValue v) (N.importValue v) := by
  refine .bind (.liftM _) fun x => ?_
  cases x with
  | some x => exact .pure _
  | none => exact (hS.fromExternal v).bind fun _ => .pure _

theorem importLabel (l : PortableLabel) :
    Action.Shows view R (M.importLabel l) (N.importLabel l) := by
  unfold Model.importLabel
  refine .bind (.mapM _ hS.importValue) fun _ => ?_
  exact .bind (.mapM _ hS.importValue) fun _ => .pure _

theorem importMapping (m : Dictionary Json) :
    Action.Shows view R (M.importMapping m) (N.importMapping m) := by
  unfold Model.importMapping
  refine .bind (.mapM _ fun e => ?_) fun _ => .pure _
  exact .bind (hS.importValue e.2) fun _ => .pure _

theorem importProof (p : PortableProof) :
    Action.Shows view R (M.importProof p) (N.importProof p) := by
  unfold Model.importProof
  refine .bind (hS.importLabel p.label) fun _ => ?_
  exact .bind (.mapM _ hS.importMapping) fun _ => .liftM _

theorem loadProofs (text : String) :
    Action.Shows view R (M.loadProofs text) (N.loadProofs text) :=
  .bind (.liftM _) fun file => .mapM file hS.importProof

omit [IsTrans σ R] in
theorem exportValue (v : Value) : Action.Shows view R (M.exportValue v) (N.exportValue v) := by
  cases v with
  | literal h => exact hS.toExternal h
  | unknown x => exact .pure _
  | _ => exact .throw _

theorem exportLabel (l : Label) : Action.Shows view R (M.exportLabel l) (N.exportLabel l) := by
  unfold Model.exportLabel
  refine .bind (.mapM _ hS.exportValue) fun _ => ?_
  exact .bind (.mapM _ hS.exportValue) fun _ => .pure _

theorem exportResults (r : Results α) :
    Action.Shows view R (M.exportResults r) (N.exportResults r) := by
  unfold Model.exportResults
  refine .bind (.mapM _ fun v => ?_) fun _ => ?_
  · exact .bind (hS.exportLabel v.1) fun _ => .pure _
  refine .bind (.mapM _ hS.exportLabel) fun _ => .bind (.mapM _ fun b => ?_) fun _ => .pure _
  exact .bind (hS.toExternal b.2) fun _ => .pure _

/-- Loading a file, evaluating its proofs and exporting the results asks only for what a guard hands
on. -/
theorem proveFile (A : Arithmetic α) (settings : Settings) (limit : Nat) (text : String) :
    Run.Shows view R (M.proveFile A settings limit text) (N.proveFile A settings limit text) :=
  .bind (.ofAction (hS.loadProofs text)) fun ps => .bind (hS.evaluate A settings limit ps) fun r =>
    .ofAction (hS.exportResults r)

end Model.Serves

end ChanceProof
