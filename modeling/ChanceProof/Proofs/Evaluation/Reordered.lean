import ChanceProof.Proofs.Evaluation.Regrouped
import ChanceProof.Proofs.Evaluation.Substitution

/-!
# Proofs in any order and grouping

Handles and numbers of labels are given out in the order of first sight, so two sessions with the
same proofs in another order have little in common at first sight. But both have accounts, and these
differ in order only: `Library.expand_regrouped`.
-/

namespace ChanceProof

/-- The results give this probability to the label. -/
def Results.Gives {α : Type} (φ : Handle → Option Json) (r : Results α) (x : PortableLabel)
    (v : α) : Prop :=
  ∃ l, (l, v) ∈ r.labels ∧ l.Reads (literalForm? φ) x

theorem Results.Means.gives_iff {α : Type} {φ : Handle → Option Json} {r : Results α}
    {found : Account.Results α} (h : r.Means φ found) {x : PortableLabel} {v : α} :
    r.Gives φ x v ↔ (x, v) ∈ found.labels := by
  constructor
  · intro hgives
    obtain ⟨l, hl, hx⟩ := hgives
    obtain ⟨⟨x', v'⟩, hmem, hreads, rfl⟩ := exists_of_forall₂_mem h.labels.flip hl
    have hsame : x = x' := by
      obtain ⟨f, ps, rs⟩ := x
      obtain ⟨f', ps', rs'⟩ := x'
      obtain rfl : f = f' := hx.function.symm.trans hreads.function
      obtain rfl : ps = ps' := forall₂_some_unique hx.parameters hreads.parameters
      obtain rfl : rs = rs' := forall₂_some_unique hx.result hreads.result
      rfl
    exact hsame ▸ hmem
  · intro hmem
    obtain ⟨⟨l, v'⟩, hl, hreads, rfl⟩ := exists_of_forall₂_mem h.labels hmem
    exact ⟨l, hl, hreads⟩

namespace Session

variable {σ : Type}

/-- The labels are exported in one component. -/
def Together (M : Model σ) (s : Session σ) (x y : PortableLabel) : Prop :=
  ∃ c ∈ s.sort.componentLabels, ∃ l ∈ c, ∃ m ∈ c, s.Says M l x ∧ s.Says M m y

/-- The label leads to a recursive component, or is in one. -/
def LeadsToRecursion (M : Model σ) (s : Session σ) (x : PortableLabel) : Prop :=
  ∃ (i : Nat) (l : Label), s.labels[i]? = some l ∧ s.Says M l x ∧
    ∃ c ∈ s.sort.components, s.sort.graph.isRecursive c = true ∧
      ∃ j ∈ c, Graph.Reaches s.sort.graph.successors i j

/-- The sessions differ in order only: they export the same labels with the same terms and the same
components, and outside recursion they are solved to the same probabilities. -/
structure Reorders (M : Model σ) (I : σ → Prop) (expand : Expander) (s s' : Session σ) : Prop where
  accounts : ∃ a b, s.Tells M I expand a ∧ s'.Tells M I expand b ∧ a.Reordered b
  together : ∀ x y, s.Together M x y ↔ s'.Together M x y
  values : ∀ (settled : ℚ → ℚ → Bool) (limit : Nat) (r r' : Results ℚ) (t t' : Session σ),
    s.sort.solve M (exactArithmetic settled) limit s = some (.ok r, t) →
    s'.sort.solve M (exactArithmetic settled) limit s' = some (.ok r', t') →
    ∀ x, ¬s.LeadsToRecursion M x → ∀ v,
      r.Gives (M.form? t.world) x v ↔ r'.Gives (M.form? t'.world) x v

variable {M : Model σ} {I : σ → Prop} {expand : Expander} {E : Json → Json → Prop}

section

variable {s : Session σ} {a : Account} (ht : s.Tells M I expand a)

include ht

theorem Tells.label_iff {i : Nat} {x : PortableLabel} :
    (∃ l, s.labels[i]? = some l ∧ s.Says M l x) ↔ a.labels[i]? = some x := by
  have hlabels : List.Forall₂ (s.Says M) s.labels a.labels :=
    List.forall₂_map_left_iff.2 (List.forall₂_map_right_iff.2 (ht.entries.imp fun _ _ h => h.label))
  constructor
  · intro h
    obtain ⟨l, hl, hx⟩ := h
    obtain ⟨y, hy, hly⟩ := forall₂_some_left hlabels hl
    rwa [(ht.coherent.says_inj hx hly).1 rfl]
  · intro h
    obtain ⟨l, hl, hx⟩ := forall₂_some_left hlabels.flip h
    exact ⟨l, hl, hx⟩

theorem Tells.together_iff (hd : a.labels.Nodup) {x y : PortableLabel} : s.Together M x y ↔
    (x ∈ a.labels ∧ y ∈ a.labels) ∧
      Relation.ReflTransGen a.Needs x y ∧ Relation.ReflTransGen a.Needs y x := by
  have hcomponents : s.sort.components = a.graph.components := congrArg Graph.components ht.graph
  unfold Together SortedSession.componentLabels
  rw [hcomponents]
  constructor
  · intro h
    obtain ⟨c', hc', l, hl, m, hm, hx, hy⟩ := h
    obtain ⟨c, hc, rfl⟩ := List.mem_map.1 hc'
    obtain ⟨i, hi, hl⟩ := List.mem_filterMap.1 hl
    obtain ⟨j, hj, hm⟩ := List.mem_filterMap.1 hm
    have hi' := ht.label_iff.1 ⟨l, hl, hx⟩
    have hj' := ht.label_iff.1 ⟨m, hm, hy⟩
    exact ⟨⟨List.mem_of_getElem? hi', List.mem_of_getElem? hj'⟩,
      ((Account.numbers_graph hd).together_iff hi' hj').1 ⟨c, hc, hi, hj⟩⟩
  · intro h
    obtain ⟨⟨hx, hy⟩, hreach⟩ := h
    obtain ⟨i, hi⟩ := List.mem_iff_getElem?.1 hx
    obtain ⟨j, hj⟩ := List.mem_iff_getElem?.1 hy
    obtain ⟨c, hc, hic, hjc⟩ := ((Account.numbers_graph hd).together_iff hi hj).2 hreach
    obtain ⟨l, hl, hx⟩ := ht.label_iff.2 hi
    obtain ⟨m, hm, hy⟩ := ht.label_iff.2 hj
    exact ⟨_, List.mem_map_of_mem hc, l, List.mem_filterMap.2 ⟨i, hic, hl⟩, m,
      List.mem_filterMap.2 ⟨j, hjc, hm⟩, hx, hy⟩

/-- What a label needs that does not lead to recursion does not depend on itself. -/
theorem Tells.free_of_not_leadsToRecursion (hd : a.labels.Nodup) {x : PortableLabel}
    (hx : x ∈ a.labels) (hnot : ¬s.LeadsToRecursion M x) (y : PortableLabel)
    (hxy : Relation.ReflTransGen a.Needs x y) : ¬Relation.TransGen a.Needs y y := by
  intro hrecurs
  obtain ⟨i, hi⟩ := List.mem_iff_getElem?.1 hx
  obtain ⟨j, hj⟩ : ∃ j, a.labels[j]? = some y := by
    rcases Relation.ReflTransGen.cases_tail hxy with rfl | ⟨z, -, hneed⟩
    · exact ⟨i, hi⟩
    · exact List.mem_iff_getElem?.1 hneed.1
  have hlt : j < a.graph.size := by
    rw [Account.size_graph]
    exact (List.getElem?_eq_some_iff.1 hj).1
  obtain ⟨c, hc, hjc⟩ := List.mem_flatten.1 ((Account.proper_graph a).mem_components.2 hlt)
  obtain ⟨l, hl, hlx⟩ := ht.label_iff.2 hi
  refine hnot ⟨i, l, hl, hlx, ?_⟩
  rw [show s.sort.graph = a.graph from ht.graph,
    show s.sort.components = a.graph.components from congrArg Graph.components ht.graph]
  exact ⟨c, hc, ((Account.proper_graph a).isRecursive_iff hc hjc).2
    (((Account.numbers_graph hd).recurs_iff hj).2 hrecurs), j, hjc,
    ((Account.numbers_graph hd).reaches_iff hi).2 ⟨y, hj, hxy⟩⟩

/-- What a session is solved to says of its account what that is solved to. -/
theorem Tells.solved (hM : M.Meets I expand E) (hd : a.labels.Nodup) {settled : ℚ → ℚ → Bool}
    {limit : Nat} {r : Results ℚ} {t : Session σ}
    (h : s.sort.solve M (exactArithmetic settled) limit s = some (.ok r, t)) :
    ∃ values, a.Solved settled values ∧
      ∀ x v, r.Gives (M.form? t.world) x v ↔ (x, v) ∈ a.labels.zip values.toList := by
  have halike := solve_mirrors hM (exactArithmetic settled) ht limit
  rw [h] at halike
  generalize hfound : a.solve (exactArithmetic settled) s.settings.maxPasses limit = y at halike
  cases halike with
  | solved _ hmeans =>
      obtain ⟨values, hvalues, hlabels⟩ := Account.solved_of_solve hd hfound
      refine ⟨values, hvalues, fun x v => ?_⟩
      rw [hmeans.gives_iff, hlabels]

end

/-- Sessions of which the accounts differ in order only do so themselves. -/
theorem Reorders.of_tells (hM : M.Meets I expand E) {s s' : Session σ} {a b : Account}
    (ht : s.Tells M I expand a) (ht' : s'.Tells M I expand b) (h : a.Reordered b) :
    Reorders M I expand s s' := by
  refine ⟨⟨a, b, ht, ht', h⟩, fun x y => ?_, ?_⟩
  · rw [ht.together_iff h.distinct, ht'.together_iff h.distinct', h.labels, h.labels, h.needs_eq]
  · intro settled limit r r' t t' hsolve hsolve' x hnot v
    obtain ⟨values, hs, hgives⟩ := ht.solved hM h.distinct hsolve
    obtain ⟨values', hs', hgives'⟩ := ht'.solved hM h.distinct' hsolve'
    rw [hgives, hgives']
    by_cases hx : x ∈ a.labels
    · exact h.mem_zip_iff hs hs' (ht.free_of_not_leadsToRecursion h.distinct hx hnot)
    · exact iff_of_false (fun hmem => hx (List.of_mem_zip hmem).1)
        fun hmem => hx ((h.labels x).2 (List.of_mem_zip hmem).1)

end Session

/-! ## Theses of proofs without unknowns -/

section

variable {φ : Handle → Option Json} {p : Proof} {t : Thesis}

theorem Proof.Means.grounded (h : p.Means φ t) (hnone : p.unknowns = []) : t.Grounded := by
  have hvalue : ∀ {v : Value} {r : Referent}, v ∈ p.values → v.Means φ r → ∃ w, r = .object w := by
    intro v r hv hr
    cases hr with
    | object => exact ⟨_, rfl⟩
    | unknown =>
        have hmem : _ ∈ p.unknowns := List.mem_filterMap.2 ⟨_, hv, rfl⟩
        rw [hnone] at hmem
        exact absurd hmem List.not_mem_nil
  refine ⟨fun r hr => ?_, fun r hr => ?_, fun m hm e he => ?_⟩
  · obtain ⟨v, hv, hmeans⟩ := exists_of_forall₂_mem h.label.parameters hr
    exact hvalue (List.mem_append_left _ (List.mem_append_left _ hv)) hmeans
  · obtain ⟨v, hv, hmeans⟩ := exists_of_forall₂_mem h.label.result hr
    exact hvalue (List.mem_append_left _ (List.mem_append_right _ hv)) hmeans
  · obtain ⟨m', hm', hmm⟩ := exists_of_forall₂_mem h.mappings hm
    obtain ⟨e', he', -, hmeans⟩ := exists_of_forall₂_mem hmm he
    exact hvalue (List.mem_append_right _ (List.mem_flatMap.2
      ⟨m', hm', List.mem_map.2 ⟨e', he', rfl⟩⟩)) hmeans

theorem Proof.Means.uniform (h : p.Means φ t) (hp : Proof.check p.label p.mappings = .ok ()) :
    t.Uniform := by
  intro m hm
  obtain ⟨m', hm', hmm⟩ := exists_of_forall₂_mem h.mappings hm
  rw [← hmm.keys, ← h.names]
  exact (Proof.check_ok_iff.1 hp).2 m' hm'

end

open Session

/-- Lists of live proofs without unknowns that consist of the same parts, in any order and grouping,
are accepted alike, to sessions that differ in order only. -/
theorem Library.expand_regrouped {functions : Library} (hfunctions : functions.KeepsTo Json.Finite)
    (settings : Settings) {w : Store} (hw : Library.Holds Json.Finite w) {ps ps' : List Proof}
    (hps : ∀ p ∈ ps, Proof.check p.label p.mappings = .ok () ∧
      p.Live (functions.model.form? w) ∧ p.unknowns = [])
    (hps' : ∀ p ∈ ps', Proof.check p.label p.mappings = .ok () ∧
      p.Live (functions.model.form? w) ∧ p.unknowns = [])
    (h : Regrouped ps ps') :
    ((∃ s, (expandAll functions.model ps).run (start settings w) = (.ok (), s)) ↔
        ∃ s', (expandAll functions.model ps').run (start settings w) = (.ok (), s')) ∧
      ∀ s s', (expandAll functions.model ps).run (start settings w) = (.ok (), s) →
        (expandAll functions.model ps').run (start settings w) = (.ok (), s') →
        Reorders functions.model (Library.Holds Json.Finite) functions.expand s s' := by
  have hM := Library.meets hfunctions fun v w hv hw => Json.same_iff v w hv hw
  have hrefl : ∀ v : Json, v.unsigned = v.unsigned := fun _ => rfl
  classical
  have hstart : (start settings w).TellsInOrder functions.model (Library.Holds Json.Finite)
      functions.expand .start := tells_start settings hw
  obtain ⟨ts, hts⟩ := exists_forall₂ fun p hp => (hps p hp).2.1.exists_means
  obtain ⟨ts', hts'⟩ := exists_forall₂ fun p hp => (hps' p hp).2.1.exists_means
  have hground : ∀ t ∈ ts, t.Grounded ∧ t.Uniform := by
    intro t ht
    obtain ⟨p, hp, hpt⟩ := exists_of_forall₂_mem hts ht
    exact ⟨hpt.grounded (hps p hp).2.2, hpt.uniform (hps p hp).1⟩
  have hground' : ∀ t ∈ ts', t.Grounded ∧ t.Uniform := by
    intro t ht
    obtain ⟨p, hp, hpt⟩ := exists_of_forall₂_mem hts' ht
    exact ⟨hpt.grounded (hps' p hp).2.2, hpt.uniform (hps' p hp).1⟩
  have hmirrors := expandAll_mirrors hM failsAlike_true hrefl hstart hts
  have hmirrors' := expandAll_mirrors hM failsAlike_true hrefl hstart hts'
  have hparts := h.theses hts hts'
  constructor
  · constructor
    · intro hok
      obtain ⟨s, hs⟩ := hok
      obtain ⟨_, a, ha, -⟩ := hmirrors.ok_left hs
      obtain ⟨b, hb, -⟩ := Account.expandAll_regrouped hground hground' hparts ha
      obtain ⟨_, s', hs', -⟩ := hmirrors'.ok_right hb
      exact ⟨s', hs'⟩
    · intro hok
      obtain ⟨s', hs'⟩ := hok
      obtain ⟨_, b, hb, -⟩ := hmirrors'.ok_left hs'
      obtain ⟨a, ha, -⟩ := Account.expandAll_regrouped hground' hground hparts.symm hb
      obtain ⟨_, s, hs, -⟩ := hmirrors.ok_right ha
      exact ⟨s, hs⟩
  · intro s s' hs hs'
    obtain ⟨_, a, ha, -, ht, -⟩ := hmirrors.ok_left hs
    obtain ⟨_, b, hb, -, ht', -⟩ := hmirrors'.ok_left hs'
    obtain ⟨b', hb', hsame⟩ := Account.expandAll_regrouped hground hground' hparts ha
    cases hb.symm.trans hb'
    exact .of_tells hM ht.toTells ht'.toTells hsame

namespace tossFirst

theorem keepsTo : tossFirst.KeepsTo Json.Finite := by
  intro f vs sk _ h item hitem v hv
  subst hv
  rw [object_eq h hitem]
  exact plain_half.finite

/-- The second toss is submitted first, and the two ways of the other call one by one. -/
def regrouped : List Proof :=
  [⟨toss, [.ofList [("x", .literal ⟨0⟩)]]⟩,
    ⟨first, [.ofList [("x", .literal ⟨0⟩), ("y", .literal ⟨1⟩)]]⟩,
    ⟨first, [.ofList [("x", .literal ⟨0⟩), ("y", .literal ⟨0⟩)]]⟩]

theorem literals {p : Proof} (hp : p ∈ proofs ++ regrouped) :
    Proof.check p.label p.mappings = .ok () ∧ p.Live (tossFirst.model.form? Library.truths) ∧
      p.unknowns = [] := by
  have hvalues : ∀ v ∈ p.values, v = .literal ⟨0⟩ ∨ v = .literal ⟨1⟩ := by
    revert p
    decide +kernel
  refine ⟨?_, fun v hv => ?_, ?_⟩
  · revert p
    decide +kernel
  · rcases hvalues v hv with rfl | rfl
    · exact ⟨.object (.bool true), .object rfl⟩
    · exact ⟨.object (.bool false), .object rfl⟩
  · revert p
    decide +kernel

end tossFirst

theorem tossFirst_regrouped : ∃ s s',
    (expandAll tossFirst.model tossFirst.proofs).run (start .standard Library.truths)
        = (.ok (), s) ∧
      (expandAll tossFirst.model tossFirst.regrouped).run (start .standard Library.truths)
        = (.ok (), s') ∧
      Reorders tossFirst.model (Library.Holds Json.Finite) tossFirst.expand s s' := by
  have hsame : Regrouped tossFirst.proofs tossFirst.regrouped := by
    unfold Regrouped
    decide +kernel
  obtain ⟨haccepted, hreorders⟩ := Library.expand_regrouped tossFirst.keepsTo .standard
    yesNo.truths_holds (fun p hp => tossFirst.literals (List.mem_append_left _ hp))
    (fun p hp => tossFirst.literals (List.mem_append_right _ hp)) hsame
  obtain ⟨s', hs'⟩ := haccepted.1 ⟨_, tossFirst.accepted⟩
  exact ⟨_, s', tossFirst.accepted, hs', hreorders _ s' tossFirst.accepted hs'⟩

namespace yesNo

def yes : Proof := ⟨⟨⟨"yes", []⟩, [.literal ⟨0⟩]⟩, [.empty]⟩

/-- The parameter is there once the other function was asked. -/
def noOfYes : Proof := ⟨⟨⟨"no", [.literal ⟨0⟩]⟩, [.literal ⟨1⟩]⟩, [.empty]⟩

end yesNo

/-- A literal that is not live at the start may name an object that an earlier proof interns, so
that the order matters. -/
theorem yesNo_outOfOrder :
    Regrouped [yesNo.yes, yesNo.noOfYes] [yesNo.noOfYes, yesNo.yes] ∧
      (∀ p ∈ [yesNo.yes, yesNo.noOfYes],
        Proof.check p.label p.mappings = .ok () ∧ p.unknowns = []) ∧
      ((expandAll yesNo.model [yesNo.yes, yesNo.noOfYes]).run
        (start .standard .empty)).1.isOk = true ∧
      ((expandAll yesNo.model [yesNo.noOfYes, yesNo.yes]).run
        (start .standard .empty)).1.isOk = false := by
  refine ⟨.of_perm (.swap _ _ _), ?_⟩
  decide +kernel

end ChanceProof
