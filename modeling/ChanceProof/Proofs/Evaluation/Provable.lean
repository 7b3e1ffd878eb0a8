import ChanceProof.Proofs.Evaluation.Occurrences
import ChanceProof.Proofs.Evaluation.Reordered
import ChanceProof.Proofs.Sampling.Conservation

/-!
# Sampled outcomes are provable

Whatever a call is sampled to can be proved. The proofs are taken from the record of the draw: one
for each label that occurred, with one mapping, which is what the variables were bound to when the
label occurred first. Their objects are interned anew, since the draw has let go of its own by then.
First occurrences go through labels that occurred before, so there is no recursion even where calls
recur, and every label is found to be possible: `Library.sampled_provable`.
-/

namespace ChanceProof

/-- The label with what its variables were bound to, by handles with these objects. -/
def Occurrence.proof (name : Json → Handle) (o : Occurrence) : Proof :=
  ⟨⟨⟨o.label.function, o.label.parameters.map fun v => .literal (name v)⟩,
      o.label.result.map fun v => .literal (name v)⟩,
    [.ofList (o.mapping.map fun e => (e.1, .literal (name e.2)))]⟩

/-- The handles stand for the objects of the occurrences. -/
def Names (φ : Handle → Option Json) (name : Json → Handle) (os : List Occurrence) : Prop :=
  ∀ o ∈ os, ∀ v ∈ o.values, φ (name v) = some v

namespace Occurrence

variable {φ : Handle → Option Json} {name : Json → Handle} {o : Occurrence}

theorem means_proof (h : ∀ v ∈ o.values, φ (name v) = some v) :
    (o.proof name).Means φ o.thesis := by
  have hobjects : ∀ vs : List Json, (∀ v ∈ vs, φ (name v) = some v) →
      List.Forall₂ (Value.Means φ) (vs.map fun v => .literal (name v))
        (vs.map Referent.object) := by
    intro vs hvs
    rw [List.forall₂_map_left_iff, List.forall₂_map_right_iff]
    exact List.forall₂_same.2 fun v hv => .object (hvs v hv)
  refine ⟨⟨rfl, hobjects _ fun v hv => h v ?_, hobjects _ fun v hv => h v ?_⟩, .cons ?_ .nil⟩
  · exact List.mem_append_left _ (List.mem_append_left _ hv)
  · exact List.mem_append_left _ (List.mem_append_right _ hv)
  · show List.Forall₂ _ (Keyed.ofList _) (Keyed.ofList _)
    rw [← Keyed.map_ofList (fun v => Value.literal (name v)), ← Keyed.map_ofList Referent.object,
      List.forall₂_map_left_iff, List.forall₂_map_right_iff]
    refine List.forall₂_same.2 fun e he => ⟨rfl, .object (h e.2 ?_)⟩
    exact List.mem_append_right _ (List.mem_map_of_mem (Keyed.mem_of_mem_ofList he))

/-- The proof of an occurrence has one mapping and no unknowns. -/
theorem proof_ok (name : Json → Handle) (o : Occurrence) :
    Proof.check (o.proof name).label (o.proof name).mappings = .ok () ∧
      (o.proof name).unknowns = [] ∧ (o.proof name).mappings.length = 1 := by
  have hliteral : ∀ v ∈ (o.proof name).values, ∃ h, v = .literal h := by
    intro v hv
    rcases List.mem_append.1 hv with hv | hv
    · rcases List.mem_append.1 hv with hv | hv
      · obtain ⟨w, -, rfl⟩ := List.mem_map.1 hv
        exact ⟨_, rfl⟩
      · obtain ⟨w, -, rfl⟩ := List.mem_map.1 hv
        exact ⟨_, rfl⟩
    · obtain ⟨m, hm, hv⟩ := List.mem_flatMap.1 hv
      rw [List.mem_singleton.1 hm] at hv
      obtain ⟨e, he, rfl⟩ := List.mem_map.1 hv
      obtain ⟨e', -, rfl⟩ := List.mem_map.1 (Keyed.mem_of_mem_ofList he)
      exact ⟨_, rfl⟩
  refine ⟨Proof.check_ok_iff.2 ⟨fun v hv => ?_, fun m hm => ?_⟩,
    List.filterMap_eq_nil_iff.2 fun v hv => ?_, rfl⟩
  · obtain ⟨h, rfl⟩ := hliteral v hv
    rfl
  · rw [List.mem_singleton.1 hm]
    rfl
  · obtain ⟨h, rfl⟩ := hliteral v hv
    rfl

end Occurrence

/-- Every object can be named. -/
theorem exists_names {φ : Handle → Option Json} {hs : List Handle} {vs : List Json}
    (h : List.Forall₂ (fun h v => φ h = some v) hs vs) :
    ∃ name : Json → Handle, ∀ v ∈ vs, φ (name v) = some v := by
  have hnamed : ∀ v : Json, ∃ h : Handle, v ∈ vs → φ h = some v := by
    intro v
    by_cases hv : v ∈ vs
    · obtain ⟨h, -, hform⟩ := exists_of_forall₂_mem h hv
      exact ⟨h, fun _ => hform⟩
    · exact ⟨⟨0⟩, fun hmem => absurd hmem hv⟩
  exact ⟨fun v => (hnamed v).choose, fun v hv => (hnamed v).choose_spec hv⟩

/-! ## Proofs of chronicles -/

/-- Evaluating the proofs succeeds without recursion, whatever the arithmetic, the settings and the
limit, and in exact arithmetic it finds none of the labels impossible: no logarithm of their
probabilities is minus infinity. -/
structure Demonstrates {σ : Type} (M : Model σ) (world : σ) (ps : List Proof)
    (ls : List PortableLabel) : Prop where
  solved : ∀ {α : Type} (A : Arithmetic α) (settings : Settings) (limit : Nat), ∃ r world',
    M.evaluate A settings limit ps world = some (.ok r, world') ∧ r.stats.recursiveComponents = 0
  possible : ∀ (settled : ℚ → ℚ → Bool) (settings : Settings) (limit : Nat) (r : Results ℚ)
    (world' : σ), M.evaluate (exactArithmetic settled) settings limit ps world
      = some (.ok r, world') → ∀ l ∈ ls, ∃ v, r.Gives (M.form? world') l v ∧ v ≠ 0

open Session

/-- The proofs of a chronicle with one occurrence for each label demonstrate its labels. -/
theorem Chronicle.demonstrates {functions : Library} (hfunctions : functions.KeepsTo Json.Finite)
    {P : Json → Prop} {os : List Occurrence} (h : Chronicle functions.expand P os)
    (hnodup : (os.map Occurrence.label).Nodup) {w : Store} (hw : Library.Holds Json.Finite w)
    {name : Json → Handle} (hname : Names (functions.model.form? w) name os) :
    Demonstrates functions.model w (os.map (·.proof name)) (os.map Occurrence.label) := by
  have hM := Library.meets hfunctions fun v w hv hw => Json.same_iff v w hv hw
  have hrefl : ∀ v : Json, v.unsigned = v.unsigned := fun _ => rfl
  classical
  have hmeans : List.Forall₂ (Proof.Means (functions.model.form? w)) (os.map (·.proof name))
      (os.map Occurrence.thesis) := by
    rw [List.forall₂_map_left_iff, List.forall₂_map_right_iff]
    exact List.forall₂_same.2 fun o ho => o.means_proof (hname o ho)
  obtain ⟨a, ha, hderivation, hlabels⟩ := h.exists_derivation
    (E := fun v w => v.unsigned = w.unsigned) hrefl hnodup
  have hexpanded : ∀ settings, ∃ s,
      (expandAll functions.model (os.map (·.proof name))).run (start settings w) = (.ok (), s) ∧
        s.Tells functions.model (Library.Holds Json.Finite) functions.expand a := by
    intro settings
    have hstart : (start settings w).TellsInOrder functions.model (Library.Holds Json.Finite)
        functions.expand .start := tells_start settings hw
    obtain ⟨_, s, hs, -, ht, -⟩ :=
      (expandAll_mirrors hM failsAlike_true hrefl hstart hmeans).ok_right ha
    exact ⟨s, hs, ht.toTells⟩
  refine ⟨fun A settings limit => ?_, fun settled settings limit r w' hr l hl => ?_⟩
  · obtain ⟨s, hs, ht⟩ := hexpanded settings
    have halike := solve_mirrors hM A ht limit
    obtain ⟨found, hfound, hrecursive⟩ := hderivation.solve_ok A s.settings.maxPasses limit
    rw [hfound] at halike
    generalize hsolve : s.sort.solve functions.model A limit s = x at halike
    cases halike with
    | @solved r _ s' _ hr =>
        exact ⟨r, _, Model.evaluate_ok_iff.2 ⟨s, s', hs, hsolve, rfl⟩,
          hr.recursiveComponents.trans hrecursive⟩
  · obtain ⟨s, s', hs, hsolve, rfl⟩ := Model.evaluate_ok_iff.1 hr
    obtain ⟨s₁, hs₁, ht⟩ := hexpanded settings
    cases hs.symm.trans hs₁
    have halike := solve_mirrors hM (exactArithmetic settled) ht limit
    rw [hsolve] at halike
    generalize hfound : a.solve (exactArithmetic settled) s.settings.maxPasses limit = y at halike
    cases halike with
    | solved _ hr =>
        obtain ⟨v, hv, hne⟩ := hderivation.possible hfound ((hlabels l).2 hl)
        exact ⟨v, hr.gives_iff.2 hv, hne⟩

/-- Every sampled outcome is provable. For each label that occurs in a draw, one of its occurrences
makes a proof with one mapping and without unknowns. As soon as their objects are interned, which is
always possible, evaluating these proofs succeeds without recursion and finds every label possible,
that of the outcome among them. -/
theorem Library.sampled_provable {functions : Library}
    (hfunctions : functions.KeepsTo Json.Finite) {s s' : Store} (hs : Holds Json.Finite s)
    {c : Call} (hcall : c.isPrimitive = false) (hgrounded : c.isGrounded = true)
    (howned : ∀ h, (c.handles.count h : Int) ≤ s.counts h) {depth : Nat} {r r' : Randomness}
    {rs : List Handle}
    (hr : functions.model.sample depth c (s, r) = some (.ok rs, (s', r'))) :
    ∃ (vs ws : List Json) (log os : List Occurrence),
      functions.model.Forms s c.handles vs ∧ functions.model.Forms s' rs ws ∧
      functions.model.sampleRecorded depth c (s, r) = some (.ok (rs, log), (s', r')) ∧
      Occurrence.Represents os log ∧ ⟨c.function, vs, ws⟩ ∈ os.map Occurrence.label ∧
      (∀ name, ∀ o ∈ os, Proof.check (o.proof name).label (o.proof name).mappings = .ok () ∧
        (o.proof name).unknowns = [] ∧ (o.proof name).mappings.length = 1) ∧
      (∃ name hs w, ((os.flatMap Occurrence.values).mapM functions.model.fromExternal).run s'
        = (.ok hs, w) ∧ Holds Json.Finite w ∧ Names (functions.model.form? w) name os) ∧
      ∀ name w, Holds Json.Finite w → Names (functions.model.form? w) name os →
        Demonstrates functions.model w (os.map (·.proof name)) (os.map Occurrence.label) := by
  obtain ⟨vs, hvs⟩ := Store.exists_values howned
  have hwithin : ∀ v ∈ vs, v.Finite := fun v hv => by
    obtain ⟨h, -, hform⟩ := exists_of_forall₂_mem hvs hv
    exact hs.2 h v hform
  obtain ⟨log, hrecorded⟩ : ∃ log,
      functions.model.sampleRecorded depth c (s, r) = some (.ok (rs, log), (s', r')) := by
    rw [functions.model.erases_sampleRecorded depth c (s, r), Option.map_eq_some_iff] at hr
    obtain ⟨⟨answer, state⟩, hrecorded, heq⟩ := hr
    cases answer with
    | error f => cases heq
    | ok told =>
        cases heq
        exact ⟨told.2, hrecorded⟩
  obtain ⟨ws, hreturns, hchronicle, hbacks, hwithin'⟩ := sampleRecorded_chronicle hfunctions
    (fun _ => trivial) depth s c c.handles vs r hs.1 (Call.isGrounded_iff.1 hgrounded) hvs howned
    hwithin rs log s' r' hrecorded
  have hs' : Holds Json.Finite s' := hs.of_gained hreturns.2 fun h v hgained hv => by
    have hmem : h ∈ rs := List.count_pos_iff.1 (by omega)
    obtain ⟨w, hw, hform⟩ := exists_of_forall₂_mem hreturns.1.flip hmem
    cases hv.symm.trans hform
    exact hwithin' v hw
  obtain ⟨os, hos, hrepresents⟩ := hchronicle.exists_represents
  have hvalues : ∀ v ∈ os.flatMap Occurrence.values, v.Finite := by
    intro v hv
    obtain ⟨o, ho, hv⟩ := List.mem_flatMap.1 hv
    exact hos.values o ho v hv
  obtain ⟨hs, w, hinterned, hw, hforms, -⟩ := hs'.run_fromExternal functions hvalues
  obtain ⟨name, hname⟩ := exists_names hforms
  refine ⟨vs, ws, log, os, ?_, ?_, hrecorded, hrepresents, ?_,
    fun name o _ => o.proof_ok name, ⟨name, hs, w, hinterned, hw, ?_⟩,
    fun name w hw hname => hos.demonstrates hfunctions hrepresents.once hw hname⟩
  · exact hvs.imp fun h v hv => by rwa [form?_model]
  · exact hreturns.1.imp fun h v hv => by rwa [form?_model]
  · refine (hrepresents.all _).2 (hbacks.resolve_left fun hlanded => ?_)
    rw [Call.isPrimitive_iff.2 hlanded.function] at hcall
    cases hcall
  · intro o ho v hv
    rw [form?_model]
    exact hname v (List.mem_flatMap.2 ⟨o, ho, hv⟩)

/-! ## Heads once, then tails -/

namespace untilTails

theorem keepsTo : untilTails.KeepsTo Json.Finite := by
  intro f vs sk _ h item hitem v hv
  subst hv
  exact (plain_object h hitem).finite

/-- The first coin lands true, the second one does not. -/
def words : Randomness := .cycle [0, 0xffffffffffffffff]

def call : Call := ⟨"again", [.literal ⟨0⟩]⟩

/-- The same label occurs twice, the first time by a toss that ended the tossing. -/
def record : List Occurrence :=
  [⟨⟨"again", [.bool false], [.bool false]⟩, []⟩,
    ⟨⟨"again", [.bool true], [.bool false]⟩, [("x", .bool false), ("y", .bool false)]⟩,
    ⟨⟨"again", [.bool true], [.bool false]⟩, [("x", .bool true), ("y", .bool false)]⟩]

end untilTails

theorem untilTails_provable : ∃ (rs : List Handle) (os : List Occurrence) (s' : Store)
    (r' : Randomness) (name : Json → Handle) (w : Store),
    untilTails.model.sampleRecorded 4 untilTails.call (Library.truths, untilTails.words)
        = some (.ok (rs, untilTails.record), (s', r')) ∧
      Occurrence.Represents os untilTails.record ∧ Names (untilTails.model.form? w) name os ∧
      Demonstrates untilTails.model w (os.map (·.proof name)) (os.map Occurrence.label) := by
  have hrecord : (untilTails.model.sampleRecorded 4 untilTails.call
      (Library.truths, untilTails.words)).map (fun x => x.1.toOption.map Prod.snd)
        = some (some untilTails.record) := by
    decide +kernel
  have howned : ∀ h, (untilTails.call.handles.count h : Int) ≤ Library.truths.counts h := by
    intro h
    rw [show untilTails.call.handles = [⟨0⟩] from rfl, count_cons, List.count_nil]
    split
    · next heq =>
        rw [heq]
        decide
    · exact Library.truths_holds.1.counts_nonneg h
  obtain ⟨⟨answer, s', r'⟩, hrun, hanswer⟩ := Option.map_eq_some_iff.1 hrecord
  cases answer with
  | error f => cases hanswer
  | ok told =>
      obtain ⟨rs, log⟩ := told
      obtain rfl : log = untilTails.record := Option.some.inj hanswer
      have hsampled : untilTails.model.sample 4 untilTails.call (Library.truths, untilTails.words)
          = some (.ok rs, (s', r')) := by
        rw [untilTails.model.erases_sampleRecorded, hrun]
        rfl
      obtain ⟨vs, ws, log, os, -, -, hlog, hrepresents, -, -, ⟨name, hs, w, -, hw, hname⟩, hall⟩ :=
        Library.sampled_provable untilTails.keepsTo yesNo.truths_holds rfl rfl howned hsampled
      cases hrun.symm.trans hlog
      exact ⟨rs, os, s', r', name, w, hrun, hrepresents, hname, hall name w hw hname⟩

end ChanceProof
