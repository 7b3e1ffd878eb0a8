import ChanceProof.Proofs.Evaluation.Unifier
import ChanceProof.Proofs.Distribution.Walked

/-!
# Verified labels are an execution

Labels from anywhere may be offered as the calls that a distribution makes. Those that are verified
enact it (`Session.Enacts`): there is one for each assignment, with a result for each name, its call
is that of the assignment where the results of the labels before stand for the references, and the
returned values are the results of the verified label.

References are resolved while unknowns in the results before are still being found. What stands for
a reference is therefore said of the labels as they were offered (`Distribution.Stands`, which is
one value by `Distribution.Stands.unique`), and that two values are the same is said of what was
found in the end: what is found later keeps it.
-/

namespace ChanceProof

namespace Session

variable {σ : Type}

/-! ## Executions -/

section

variable (M : Model σ) (s : Session σ) (d : Distribution)

/-- With what the session has found, the claimed values are those that stand for the values of the
distribution. -/
def Confirms (results : List (List Value)) (claimed vs : List Value) : Prop :=
  ∃ us, List.Forall₂ (d.Stands results) vs us ∧ M.Solves s.world s.binding? claimed us

/-- The label is the call of the assignment, after these results, with a result for each name. -/
structure Calls (results : List (List Value)) (claim : Label) (a : Assignment) : Prop where
  function : claim.call.function = a.call.function
  parameters : s.Confirms M d results claim.call.parameters a.call.parameters
  returned : claim.result.length = a.names.length

/-- The labels are an execution of the distribution that returns these values. -/
structure Enacts (claims : List Label) (result : List Value) : Prop where
  complete : claims.length = d.assignments.length
  calls : ∀ i a claim, d.assignments[i]? = some a → claims[i]? = some claim →
    s.Calls M d ((claims.take i).map (·.result)) claim a
  returns : s.Confirms M d (claims.map (·.result)) result d.result

end

variable {M : Model σ} {I : σ → Prop} {expand : Expander} {s s' : Session σ} {l : Label}
  {d : Distribution} {results : List (List Value)} (hM : M.Lawful I expand)

include hM

theorem Learns.solves (h : Learns M I expand s s') (hs : s.Coherent M I expand)
    {ps ms : List Value} (hsolves : M.Solves s.world s.binding? ps ms) :
    M.Solves s'.world s'.binding? ps ms := by
  refine hsolves.imp fun p m hsame => ?_
  rw [← resolve_eq_under, ← resolve_eq_under] at hsame ⊢
  exact h.same hM hs hsame

theorem Learns.confirms (h : Learns M I expand s s') (hs : s.Coherent M I expand)
    {claimed vs : List Value} (hconfirms : s.Confirms M d results claimed vs) :
    s'.Confirms M d results claimed vs :=
  let ⟨us, hstands, hsolves⟩ := hconfirms
  ⟨us, hstands, h.solves hM hs hsolves⟩

theorem Learns.calls (h : Learns M I expand s s') (hs : s.Coherent M I expand) {claim : Label}
    {a : Assignment} (hcalls : s.Calls M d results claim a) : s'.Calls M d results claim a :=
  ⟨hcalls.function, h.confirms hM hs hcalls.parameters, hcalls.returned⟩

theorem unifyValues_same (hs : s.Coherent M I expand) {ps ms : List Value}
    (hr : (unifyValues M l ps ms).run s = (.ok (), s')) : M.Solves s'.world s'.binding? ps ms := by
  unfold unifyValues at hr
  split at hr
  · exact (Action.run_throw_ok hr).elim
  · next hlen => exact unifyEach_same hM (Decidable.not_not.1 hlen) hs hr

theorem unifyCalls_same (hs : s.Coherent M I expand) {p m : Call}
    (hr : (unifyCalls M l p m).run s = (.ok (), s')) :
    p.function = m.function ∧ M.Solves s'.world s'.binding? p.parameters m.parameters := by
  unfold unifyCalls at hr
  split at hr
  · exact (Action.run_throw_ok hr).elim
  · next heq => exact ⟨Decidable.not_not.1 heq, unifyValues_same hM hs hr⟩

/-- One verified label, and the walk that goes on after it. -/
theorem calls_of_step (hs : s.Coherent M I expand) {w : Walk} {a : Assignment} {claim : Label}
    {rest : List Label} {w' : Walk} (ha : w.next? = some a)
    (hr : (verifySteps M l w (claim :: rest)).run s = (.ok w', s')) :
    ∃ s₁, s₁.Coherent M I expand ∧ s₁.Calls M w.distribution w.results claim a ∧
      (verifySteps M l { w with results := w.results ++ [claim.result] } rest).run s₁
        = (.ok w', s') := by
  have hallows := w.distribution.wellFormed.parameters _ a ha
  rw [verifySteps, ha] at hr
  obtain ⟨call, s₁, hlift, hr⟩ := Action.run_bind_ok.1 hr
  obtain ⟨hcall, rfl⟩ := Action.run_liftM_ok.1 hlift
  obtain ⟨us, hus, hcall⟩ := bind_eq_ok_iff.1 (mapError_ok.1 hcall)
  cases hcall
  obtain ⟨_, s₂, hunify, hr⟩ := Action.run_bind_ok.1 hr
  obtain ⟨w₁, s₃, hlift, hr⟩ := Action.run_bind_ok.1 hr
  obtain ⟨hbind, rfl⟩ := Action.run_liftM_ok.1 hlift
  obtain ⟨⟨a', ha', hlen⟩, rfl⟩ := Walk.bind_eq_ok_iff.1 (mapError_ok.1 hbind)
  cases ha.symm.trans ha'
  obtain ⟨hfunction, hsolves⟩ := unifyCalls_same hM hs hunify
  exact ⟨s₂, ((keeps_unifyCalls hM l _ _).of_run hunify).coherent hs,
    ⟨hfunction, ⟨us, Walk.stands_of_resolveAll hallows hus, hsolves⟩, hlen.symm⟩, hr⟩

/-- By induction on the labels: what a label was verified for holds to the end. -/
theorem calls_of_verifySteps (hs : s.Coherent M I expand) {w w' : Walk} {claims : List Label}
    (hr : (verifySteps M l w claims).run s = (.ok w', s')) {i : Nat} {a : Assignment}
    {claim : Label} (ha : w.distribution.assignments[w.results.length + i]? = some a)
    (hclaim : claims[i]? = some claim) :
    s'.Calls M w.distribution (w.results ++ (claims.take i).map (·.result)) claim a := by
  induction claims generalizing w s i with
  | nil => cases hclaim
  | cons first rest ih =>
      obtain ⟨b, hb⟩ : ∃ b, w.next? = some b := by
        have hlt := (List.getElem?_eq_some_iff.1 ha).1
        exact ⟨_, List.getElem?_eq_getElem (by omega)⟩
      obtain ⟨s₁, hs₁, hcalls, hrest⟩ := calls_of_step hM hs hb hr
      cases i with
      | zero =>
          cases hb.symm.trans ha
          cases hclaim
          rw [List.take_zero, List.map_nil, List.append_nil]
          exact ((keeps_verifySteps hM l _ rest).of_run hrest).calls hM hs₁ hcalls
      | succ i =>
          have hlater := ih (w := { w with results := w.results ++ [first.result] }) hs₁ hrest
            (i := i) (by simpa [Nat.add_assoc, Nat.add_comm 1] using ha) hclaim
          simpa using hlater

/-- Labels that are verified, in a session that can be reached or after anything learnt since, are
an execution of the distribution that returns the results of the label. -/
theorem verify_enacts {s₀ : Session σ} (hreach : Reachable M I s₀)
    (hlearns : Learns M I expand s₀ s) {claims : List Label}
    (hr : (verify M l d claims).run s = (.ok (), s')) : s'.Enacts M d claims l.result := by
  have hs := hlearns.coherent (hreach.sound hM).coherent
  obtain ⟨hlen, s₁, result, hs₁, hsteps, hresult, hunify⟩ := verify_parts hM hs hr
  refine ⟨hlen, fun i a claim ha hclaim => ?_, result, ?_, unifyValues_same hM hs₁ hunify⟩
  · have hcalls := calls_of_verifySteps hM hs hsteps (w := .start d)
      (by rwa [Walk.start, List.length_nil, Nat.zero_add]) hclaim
    exact ((keeps_unifyValues hM l _ _).of_run hunify).calls hM hs₁ hcalls
  · exact Walk.stands_of_resolveAll d.wellFormed.result hresult

end Session

/-! ## An unknown that is found late -/

namespace pickThenEcho

/-- What is picked is read twice, by its name and by its place. -/
def distribution : Distribution where
  assignments := [⟨⟨"pick", [.literal ⟨0⟩]⟩, ["x"]⟩,
    ⟨⟨"echo", [.named "x", .output 0 0, .literal ⟨1⟩]⟩, ["y"]⟩]
  result := [.named "y", .named "x"]
  checked := by decide

/-- The second label says what the first one was to find. -/
def claims : List Label :=
  [⟨⟨"pick", [.unknown "a"]⟩, [.unknown "b"]⟩,
    ⟨⟨"echo", [.literal ⟨0⟩, .unknown "b", .literal ⟨1⟩]⟩, [.unknown "c"]⟩]

def label : Label := ⟨⟨"pickThenEcho", []⟩, [.literal ⟨1⟩, .literal ⟨0⟩]⟩

def verified : Except Failure Unit × Session Store :=
  (Session.verify untilTails.model label distribution claims).run (.start .standard Library.truths)

end pickThenEcho

theorem pickThenEcho_enacted :
    pickThenEcho.verified.1 = .ok () ∧ pickThenEcho.verified.2.boundNames = ["a", "b", "c"] ∧
    pickThenEcho.verified.2.Enacts untilTails.model pickThenEcho.distribution pickThenEcho.claims
      pickThenEcho.label.result := by
  have hok : pickThenEcho.verified.1 = .ok () := by decide +kernel
  exact ⟨hok, by decide +kernel, Session.verify_enacts untilTails.lawful
    (.start .standard Library.truths_holds) (.refl _) (Prod.ext hok rfl)⟩

end ChanceProof
