import ChanceProof.Proofs.Evaluation.Derivation
import ChanceProof.Proofs.Evaluation.Regrouped

/-!
# Occurrences make a derivation

The thesis of an occurrence has one mapping: what the variables of the call were bound to. It
describes the execution that the call went through (`Occurrence.executions_thesis`). So the theses
of a chronicle that tells of each label once are accepted, and their account is a derivation, in
which labels are ranked by their places in the chronicle (`Chronicle.exists_derivation`).
-/

namespace ChanceProof

def PortableLabel.claim (l : PortableLabel) : Claim Referent :=
  ⟨l.function, l.parameters.map .object, l.result.map .object⟩

/-! ## Filling in objects -/

namespace Sketch

variable {sk : Sketch}

theorem fill?_objects (sk : Sketch) (results : List (List Json)) (item : Item) :
    sk.fill? Referent.object (results.map (·.map Referent.object)) item
      = (sk.resolve results item).map Referent.object := by
  have hplace : ∀ place, place? (results.map (·.map Referent.object)) place
      = (bound? results place).map Referent.object := by
    intro place
    unfold place? bound?
    rw [List.getElem?_map]
    cases results[place.1]? with
    | none => rfl
    | some vs => exact List.getElem?_map
  cases item with
  | object v => rfl
  | output call index => exact hplace (call, index)
  | named name =>
      rw [fill?, resolve]
      cases sk.locate? name with
      | none => rfl
      | some place => exact hplace place

theorem fillAll_objects {results : List (List Json)} {items : List Item} {vs : List Json}
    (h : sk.resolveAll results items = some vs) :
    sk.fillAll Referent.object (results.map (·.map Referent.object)) items
      = .ok (vs.map Referent.object) := by
  unfold fillAll
  unfold resolveAll at h
  induction items generalizing vs with
  | nil =>
      cases h
      rfl
  | cons item items ih =>
      rw [List.mapM_cons] at h
      obtain ⟨v, hv, h⟩ := Option.bind_eq_some_iff.1 h
      obtain ⟨vs', hvs, h⟩ := Option.bind_eq_some_iff.1 h
      cases h
      rw [List.mapM_cons, fill?_objects, hv, ih hvs]
      rfl

theorem map_fst_bindings {results : List (List Json)} {steps : List Step}
    {path : List PortableLabel} (h : sk.Follows results steps path) :
    (bindings steps path).map (·.1) = steps.flatMap (·.names) := by
  induction steps generalizing results path with
  | nil => rfl
  | cons st steps ih =>
      cases path with
      | nil => exact h.elim
      | cons l path =>
          obtain ⟨-, -, hlen, hrest⟩ := h
          rw [bindings, List.map_append, ih hrest, List.flatMap_cons, List.map_fst_zip hlen.ge]

/-- A mapping that binds what was bound in an execution claims that execution. -/
theorem claimsFrom_follows {m : String → Option Referent} {results : List (List Json)}
    {steps : List Step} {path : List PortableLabel} (h : sk.Follows results steps path)
    (hm : ∀ x v, (x, v) ∈ bindings steps path → m x = some (.object v)) :
    sk.claimsFrom Referent.object m (results.map (·.map Referent.object)) steps
      = .ok (path.map PortableLabel.claim) := by
  induction steps generalizing results path with
  | nil =>
      cases path with
      | nil => rfl
      | cons l path => exact h.elim
  | cons st steps ih =>
      cases path with
      | nil => exact h.elim
      | cons l path =>
          obtain ⟨hfunction, hparameters, hlen, hrest⟩ := h
          have hresult : st.names.mapM (fun name => Account.unproven.require (m name))
              = .ok (l.result.map Referent.object) := by
            refine mapM_ok_iff.2 (List.forall₂_map_right_iff.2
              (List.forall₂_iff_zip.2 ⟨hlen.symm, fun hmem => ?_⟩))
            rw [hm _ _ (List.mem_append_left _ hmem)]
            rfl
          have hlater := ih hrest fun x v hmem => hm x v (List.mem_append_right _ hmem)
          rw [List.map_append, List.map_singleton] at hlater
          rw [claimsFrom, fillAll_objects hparameters]
          refine bind_eq_ok_iff.2 ⟨_, rfl, bind_eq_ok_iff.2 ⟨_, hresult,
            bind_eq_ok_iff.2 ⟨_, hlater, ?_⟩⟩⟩
          rw [List.map_cons, PortableLabel.claim, hfunction]
          rfl

end Sketch

/-! ## Theses of occurrences -/

theorem filterMap_objects (vs : List Json) :
    (vs.map Referent.object).filterMap Referent.object? = vs := by
  rw [List.filterMap_map]
  exact List.filterMap_some

theorem forall_objects {vs : List Json} : ∀ r ∈ vs.map Referent.object, ∃ v, r = .object v := by
  intro r hr
  obtain ⟨v, -, rfl⟩ := List.mem_map.1 hr
  exact ⟨v, rfl⟩

namespace Account

variable {E : Json → Json → Prop} [DecidableRel E]

theorem run_unifyAll_objects (hE : ∀ v, E v v) (vs : List Json) (a : Account) :
    (unifyAll E (vs.map Referent.object) (vs.map Referent.object)).run a = (.ok (), a) := by
  have heach : (unifyEach E (vs.map Referent.object) (vs.map Referent.object)).run a
      = (.ok (), a) := by
    induction vs with
    | nil => rfl
    | cons v vs ih =>
        have hone : (unify E (.object v) (.object v)).run a = (.ok (), a) := by
          unfold unify
          rw [Action.run_bind_of_ok (Action.run_get a)]
          simp only [resolve, if_pos (hE v)]
          rfl
        exact (Action.run_bind_of_ok hone).trans ih
  unfold unifyAll
  rw [if_neg fun hne => hne rfl]
  exact heach

theorem run_groundClaims (path : List PortableLabel) (a : Account) :
    ((path.map PortableLabel.claim).mapM groundClaim).run a = (.ok path, a) := by
  induction path with
  | nil => rfl
  | cons l path ih =>
      have hone : (groundClaim l.claim).run a = (.ok l, a) := by
        have hground : ∀ vs : List Json,
            ((vs.map Referent.object).mapM ground).run a = (.ok vs, a) := fun vs => by
          rw [run_groundAll forall_objects, filterMap_objects]
        exact (Action.run_bind_of_ok (hground l.parameters)).trans
          ((Action.run_bind_of_ok (hground l.result)).trans rfl)
      rw [List.map_cons, List.mapM_cons, Action.run_bind_of_ok hone, Action.run_bind_of_ok ih]
      rfl

end Account

namespace Occurrence

open Account

/-- What the variables were bound to. -/
def bound (o : Occurrence) : Dictionary Referent :=
  .ofList (o.mapping.map fun e => (e.1, .object e.2))

/-- The label with what its variables were bound to. -/
def thesis (o : Occurrence) : Thesis := ⟨o.label.claim, [o.bound]⟩

theorem label_thesis (o : Occurrence) : o.thesis.label = o.label := by
  rw [Thesis.label, thesis, PortableLabel.claim, filterMap_objects, filterMap_objects]

theorem grounded_thesis (o : Occurrence) : o.thesis.Grounded := by
  refine ⟨forall_objects, forall_objects, fun m hm e he => ?_⟩
  rw [List.mem_singleton.1 hm] at he
  obtain ⟨e', -, rfl⟩ := List.mem_map.1 (Keyed.mem_of_mem_ofList he)
  exact ⟨e'.2, rfl⟩

variable {E : Json → Json → Prop} [DecidableRel E] {expand : Expander} {o : Occurrence}
  {sk : Sketch} {path : List PortableLabel}

/-- The one execution that the thesis of an occurrence describes is what the call went through. -/
theorem executions_thesis (hE : ∀ v, E v v) (h : o.Traces expand sk path) :
    executions expand E o.thesis = .ok [path] := by
  have hkeys : (o.mapping.map fun e => (e.1, Referent.object e.2)).map (·.1) = sk.names := by
    rw [List.map_map, h.mapping]
    exact Sketch.map_fst_bindings h.returns.follows
  have hclaims : sk.claims Referent.object o.bound.get?
      = .ok (path.map PortableLabel.claim) := by
    refine Sketch.claimsFrom_follows h.returns.follows fun x v hmem => ?_
    have hentry : (x, Referent.object v) ∈ o.bound.entries :=
      Keyed.mem_ofList_of_mem (hkeys ▸ h.distinct)
        (List.mem_map.2 ⟨(x, v), h.mapping ▸ hmem, rfl⟩)
    exact Dictionary.get?_of_mem hentry
  have hreturned : sk.returned Referent.object (path.map PortableLabel.claim)
      = .ok (o.label.result.map Referent.object) := by
    have hfill := Sketch.fillAll_objects h.returns.returns
    rw [List.map_map] at hfill
    rw [Sketch.returned, List.map_map]
    exact hfill
  have hsketch : expand o.thesis.claim.function o.thesis.label.parameters = .ok sk := by
    rw [label_thesis]
    exact h.sketch
  have hnames : checkNames o.thesis sk = .ok () := by
    have hsame : o.thesis.names = Keyed.names sk.names := by
      rw [← hkeys]
      exact Dictionary.keys_ofList _
    unfold checkNames
    rw [hsame]
    simp
  have hverify : (verify E (o.label.result.map Referent.object) sk
      (path.map PortableLabel.claim)).run .start = (.ok (), .start) :=
    (Action.run_bind_of_ok (Action.run_liftM_ok.2 ⟨hreturned, rfl⟩)).trans
      (run_unifyAll_objects hE _ _)
  have halternative : (alternative E (o.label.result.map Referent.object) sk o.bound).run .start
      = (.ok path, .start) :=
    (Action.run_bind_of_ok (Action.run_liftM_ok.2 ⟨hclaims, rfl⟩)).trans
      ((Action.run_bind_of_ok hverify).trans (run_groundClaims path _))
  rw [executions, if_neg (show o.thesis.claim.function ≠ Call.coinFunction from h.compound)]
  exact described_ok_iff.2 ⟨sk, hsketch, hnames, .cons (congrArg Prod.fst halternative) .nil⟩

end Occurrence

/-! ## The account of a chronicle -/

section

open Account Occurrence

variable {E : Json → Json → Prop} [DecidableRel E] {expand : Expander}

theorem gathered_eq_nil {ts : List Thesis} {l : PortableLabel}
    (h : l ∉ ts.map Thesis.label) : gathered expand E ts l = [] := by
  unfold gathered
  rw [List.filter_eq_nil_iff.2 fun t ht heq =>
    h (List.mem_map.2 ⟨t, ht, of_decide_eq_true heq⟩), List.flatMap_nil]

theorem labels_theses (os : List Occurrence) :
    (os.map thesis).map Thesis.label = os.map Occurrence.label := by
  rw [List.map_map, show Thesis.label ∘ thesis = Occurrence.label from funext label_thesis]

/-- With one occurrence for each label, only its own execution comes together at its label. -/
theorem gathered_theses {os : List Occurrence} (hnodup : (os.map Occurrence.label).Nodup)
    (hos : ∀ o ∈ os, ∃ path, executions expand E o.thesis = .ok [path]) {o : Occurrence}
    (ho : o ∈ os) {path : List PortableLabel} (hpath : executions expand E o.thesis = .ok [path]) :
    gathered expand E (os.map thesis) o.label = [path] := by
  induction os with
  | nil => exact absurd ho List.not_mem_nil
  | cons o' os ih =>
      obtain ⟨hnew, hnodup⟩ := List.nodup_cons.1 hnodup
      obtain ⟨⟨path', hpath'⟩, hos⟩ := List.forall_mem_cons.1 hos
      rw [List.map_cons, gathered_cons hpath', label_thesis]
      rcases List.mem_cons.1 ho with rfl | ho
      · have hnone : o.label ∉ (os.map thesis).map Thesis.label := by
          rw [labels_theses]
          exact hnew
        rw [if_pos rfl, gathered_eq_nil hnone, List.append_nil]
        exact Except.ok.inj (hpath'.symm.trans hpath)
      · have hne : o.label ≠ o'.label := fun heq => hnew (heq ▸ List.mem_map_of_mem ho)
        rw [if_neg hne, List.nil_append]
        exact ih hnodup hos ho

theorem gathered_theses_apart {os : List Occurrence} (hnodup : (os.map Occurrence.label).Nodup)
    (hos : ∀ o ∈ os, ∃ path, executions expand E o.thesis = .ok [path]) (l : PortableLabel) :
    (gathered expand E (os.map thesis) l).Pairwise Apart := by
  by_cases hl : l ∈ os.map Occurrence.label
  · obtain ⟨o, ho, rfl⟩ := List.mem_map.1 hl
    obtain ⟨path, hpath⟩ := hos o ho
    rw [gathered_theses hnodup hos ho hpath]
    exact List.pairwise_singleton _ _
  · rw [gathered_eq_nil (by rwa [labels_theses])]
    exact .nil

theorem Chronicle.exists_justified {P : Json → Prop} {os : List Occurrence}
    (h : Chronicle expand P os) {o : Occurrence} (ho : o ∈ os) :
    ∃ i, os[i]? = some o ∧ Justified expand (os.take i) o := by
  obtain ⟨i, hi⟩ := List.mem_iff_getElem?.1 ho
  exact ⟨i, hi, h.justified hi⟩

theorem Chronicle.exists_execution (hE : ∀ v, E v v) {P : Json → Prop} {os : List Occurrence}
    (h : Chronicle expand P os) {o : Occurrence} (ho : o ∈ os) :
    ∃ path, executions expand E o.thesis = .ok [path] := by
  obtain ⟨_, -, sk, path, htraces, -⟩ := h.exists_justified ho
  exact ⟨path, o.executions_thesis hE htraces⟩

theorem idxOf_lt_of_mem_take {xs : List PortableLabel} {i : Nat} {x : PortableLabel}
    (h : x ∈ xs.take i) : xs.idxOf x < i := by
  have hlt := List.idxOf_lt_length_of_mem h
  rw [List.length_take] at hlt
  conv => lhs; rw [← List.take_append_drop i xs]
  rw [List.idxOf_append_of_mem h]
  omega

/-- The theses of a chronicle with one occurrence for each label are accepted, to a derivation of
all its labels. -/
theorem Chronicle.exists_derivation (hE : ∀ v, E v v) {P : Json → Prop} {os : List Occurrence}
    (h : Chronicle expand P os) (hnodup : (os.map Occurrence.label).Nodup) :
    ∃ a, (expandAll expand E (os.map thesis)).run .start = (.ok (), a) ∧
      a.Derivation (fun l => (os.map Occurrence.label).idxOf l) ∧
      ∀ l, l ∈ a.labels ↔ l ∈ os.map Occurrence.label := by
  have hgrounded : ∀ t ∈ os.map thesis, t.Grounded := by
    intro t ht
    obtain ⟨o, -, rfl⟩ := List.mem_map.1 ht
    exact o.grounded_thesis
  have hexecutions : ∀ o ∈ os, ∃ path, executions expand E o.thesis = .ok [path] :=
    fun _ => h.exists_execution hE
  have hgathered : ∀ l, (Account.start.alternativesOf l ++
      gathered expand E (os.map thesis) l).Pairwise Apart :=
    gathered_theses_apart hnodup hexecutions
  obtain ⟨a, ha⟩ := (expandAll_ok_iff hgrounded fun _ => .nil).2 ⟨fun t ht => by
    obtain ⟨o, ho, rfl⟩ := List.mem_map.1 ht
    obtain ⟨path, hpath⟩ := hexecutions o ho
    exact ⟨_, hpath⟩, hgathered⟩
  have hgathers := gathers_of_run hgrounded ha
  have hmem : ∀ l, l ∈ a.labels ↔ l ∈ os.map Occurrence.label := by
    intro l
    rw [hgathers.labels, labels_theses]
    exact or_iff_right List.not_mem_nil
  refine ⟨a, ha, ⟨hgathers.distinct .nil, fun x hx => ?_⟩, hmem⟩
  obtain ⟨o, ho, rfl⟩ := List.mem_map.1 ((hmem x).1 hx)
  obtain ⟨i, hi, sk, path, htraces, hbacked⟩ := h.exists_justified ho
  have hplace : (os.map Occurrence.label).idxOf o.label = i := by
    obtain ⟨hlt, heq⟩ := List.getElem?_eq_some_iff.1
      (show (os.map Occurrence.label)[i]? = some o.label by rw [List.getElem?_map, hi]; rfl)
    rw [← heq]
    exact hnodup.idxOf_getElem i hlt
  refine ⟨path, ?_, fun y hy => (hbacked y hy).imp_right fun hbefore => ?_⟩
  · have hpath := o.executions_thesis hE htraces
    rw [hgathers.alternatives, gathered_theses hnodup hexecutions ho hpath]
    rfl
  · obtain ⟨o', ho', rfl⟩ := List.mem_map.1 hbefore
    obtain ⟨_, -, _, _, htraces', -⟩ := h.exists_justified (List.mem_of_mem_take ho')
    refine ⟨(hmem _).2 (List.mem_map_of_mem (List.mem_of_mem_take ho')), htraces'.compound, ?_⟩
    rw [hplace]
    rw [List.map_take] at hbefore
    exact idxOf_lt_of_mem_take hbefore

end

end ChanceProof
