import ChanceProof.Proofs.CommandLine.Outcomes
import ChanceProof.Proofs.Evaluation.Guarded

/-!
# The commands do not notice a guard

Draws of grounded calls, the command that samples and all that is done with a proof file make only
requests that a guard hands on, over any model: `clients_discreet`. So with a guard and without they
have the same results, fail in the same way, and leave the model in the same state. That the call is
grounded matters as soon as a model is asked about it (`not_discreet_of_open`).
-/

namespace ChanceProof

namespace CommandLine

section

variable {σ τ : Type} {view : σ → τ} {R : σ → σ → Prop} [Std.Refl R] [IsTrans σ R]
  {M : Model σ} {N : Model τ} (hS : M.Serves view R N)

include hS

/-- The command asks only for what a guard hands on. -/
theorem proveReport_shows (limit : Nat) (text : String) (settings : Settings) :
    Run.Shows view R (proveReport M limit text settings) (proveReport N limit text settings) := by
  unfold proveReport
  refine .bind (shows_explain (.ofAction (hS.loadProofs text)) _) fun ps => ?_
  refine .bind (shows_explain (hS.evaluate _ settings limit ps) _) fun r => ?_
  refine .bind (shows_explain (.mapM _ fun v => ?_) _) fun proved => ?_
  · exact .bind (.ofAction (hS.exportLabel v.1)) fun _ => .pure _
  refine .bind (shows_explain (.mapM _ fun b => ?_) _) fun bindings => .pure _
  exact .bind (.ofAction (hS.toExternal b.2)) fun _ => .pure _

end

end CommandLine

open CommandLine Client

/-- Draws of grounded calls, sampling a function, evaluating the proofs of a file with the export of
all results, and the report on a file make only requests that a guard hands on, and do the same with
a guard and without. -/
theorem clients_discreet :
    (∀ (depth : Nat) (c : Call) (r : Randomness), c.isGrounded = true →
      (drawing (fun _ M => M.sample depth c) r).Discreet) ∧
    (∀ (depth : Nat) (function : String) (arguments : List Json) (count : Nat) (r : Randomness),
      (drawing (fun _ M => sampleOutcomes M depth function arguments count) r).Discreet) ∧
    (∀ {α : Type} (A : Arithmetic α) (settings : Settings) (limit : Nat) (text : String),
      (running fun _ M => M.proveFile A settings limit text).Discreet) ∧
    ∀ (limit : Nat) (text : String) (settings : Settings),
      (running fun _ M => proveReport M limit text settings).Discreet :=
  ⟨fun depth _ r hc => drawing_discreet (fun hS => hS.sample depth hc) r,
    fun depth function arguments count =>
      drawing_discreet fun hS => sampleOutcomes_shows hS depth function arguments count,
    fun A settings limit text => running_discreet fun hS => hS.proveFile A settings limit text,
    fun limit text settings => running_discreet fun hS => proveReport_shows hS limit text settings⟩

/-! ## A flip whose requests are listed -/

def sharedCall : Call := ⟨"share", [.literal ⟨0⟩]⟩

/-- What a draw of the call asks. The first coin is read twice and gets another count, the second
one is never read and is given back. -/
def sharedRequests : List Command :=
  [.getDistribution sharedCall, .modifyCount ⟨0⟩ (-1),
    .toExternal ⟨1⟩, .modifyCount ⟨1⟩ (-1), .fromExternal (.bool true), .modifyCount ⟨4⟩ 1,
    .toExternal ⟨2⟩, .modifyCount ⟨2⟩ (-1), .fromExternal (.bool true), .modifyCount ⟨5⟩ (-1)]

theorem sharedFlip_requests : sharedCall.isGrounded = true ∧ ∃ r s',
    drawing (fun _ M => M.sample 2 sharedCall) (.cycle []) Store sharedFlip.model.checked halfStore
      = some ((.ok [⟨4⟩, ⟨4⟩, ⟨3⟩], r), s') ∧
    drawing (fun _ M => M.sample 2 sharedCall) (.cycle []) (Store × List Command)
      sharedFlip.model.watched (halfStore, [])
      = some ((.ok [⟨4⟩, ⟨4⟩, ⟨3⟩], r), (s', sharedRequests)) ∧
    ∀ c ∈ sharedRequests, c.Passes := by
  have hgrounded : sharedCall.isGrounded = true := rfl
  have hdiscreet := clients_discreet.1 2 sharedCall (.cycle []) hgrounded
  have hresult : (drawing (fun _ M => M.sample 2 sharedCall) (.cycle []) Store sharedFlip.model
      halfStore).map (fun x => x.1.1.toOption) = some (some [⟨4⟩, ⟨4⟩, ⟨3⟩]) := by
    decide +kernel
  have hasked : (drawing (fun _ M => M.sample 2 sharedCall) (.cycle []) (Store × List Command)
      sharedFlip.model.watched (halfStore, [])).map (fun x => x.2.2) = some sharedRequests := by
    decide +kernel
  rcases hr : drawing (fun _ M => M.sample 2 sharedCall) (.cycle []) Store sharedFlip.model
      halfStore with _ | ⟨⟨_ | results, r⟩, s'⟩ <;> rw [hr] at hresult <;> cases hresult
  obtain ⟨asked, hwatched, hpass⟩ := hdiscreet.requests hr
  rw [hwatched] at hasked
  cases hasked
  exact ⟨hgrounded, r, s', (hdiscreet.guarded _ _).trans hr, hwatched, hpass⟩

/-! ## Open calls -/

/-- A model that knows no function, and no value but one. -/
def Model.barren : Model Unit where
  getDistribution c := throw (.unknownFunction c.function)
  modifyCount _ _ := pure ()
  toExternal _ := pure .null
  fromExternal _ := pure ⟨0⟩
  isEqual _ _ := pure true

/-- A draw of a compound call that is open makes a request that a guard answers by itself. -/
theorem not_discreet_of_open {c : Call} (hprim : c.isPrimitive = false)
    (hopen : c.isGrounded = false) (depth : Nat) (r : Randomness) :
    ¬ (drawing (fun _ M => M.sample (depth + 1) c) r).Discreet := by
  intro h
  have hrun : drawing (fun _ M => M.sample (depth + 1) c) r Unit .barren ()
      = some ((.error (.unknownFunction c.function), r), ()) := by
    simp only [drawing, Model.sample, hprim]
    rfl
  have hwatched : drawing (fun _ M => M.sample (depth + 1) c) r _ Model.barren.watched ((), [])
      = some ((.error (.unknownFunction c.function), r), ((), [.getDistribution c])) := by
    simp only [drawing, Model.sample, hprim]
    rfl
  obtain ⟨asked, hasked, hpass⟩ := h.requests hrun
  cases hwatched.symm.trans hasked
  have hgrounded := (hpass _ List.mem_cons_self).1
  exact Bool.false_ne_true (hopen.symm.trans hgrounded)

end ChanceProof
