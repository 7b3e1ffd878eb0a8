import ChanceProof.Proofs.Evaluation.Alike
import ChanceProof.Proofs.Evaluation.Substitution

/-!
# Handles are only names

Two lists of proofs that differ only in the handles of their literals, each over a store of its own,
stand for the same theses as long as the literals at the same places denote objects of one printed
form. It does not matter whether equal objects have equal handles or which other objects the stores
hold, and every request to the model brings in new handles for both. So the evaluations find the
same or fail alike, and the model is asked equally often: `Library.evaluate_renamed`.
-/

namespace ChanceProof

/-! ## Proofs with other handles -/

/-- The values are the same unknown, or literals of live objects with the same printed form. -/
inductive Value.Renamed (φ ψ : Handle → Option Json) : Value → Value → Prop
  | literal {h h' : Handle} {v v' : Json} (form : φ h = some v) (form' : ψ h' = some v')
    (same : v.print = v'.print) : Renamed φ ψ (.literal h) (.literal h')
  | unknown {name : String} : Renamed φ ψ (.unknown name) (.unknown name)

/-- The proofs differ in the handles of their literals only. -/
structure Proof.Renamed (φ ψ : Handle → Option Json) (p p' : Proof) : Prop where
  function : p.label.call.function = p'.label.call.function
  parameters : List.Forall₂ (Value.Renamed φ ψ) p.label.call.parameters p'.label.call.parameters
  result : List.Forall₂ (Value.Renamed φ ψ) p.label.result p'.label.result
  mappings : List.Forall₂ (Dictionary.Related (Value.Renamed φ ψ)) p.mappings p'.mappings

section

variable {φ ψ : Handle → Option Json}

theorem Value.Renamed.exists_means {v v' : Value} (h : v.Renamed φ ψ v') : ∃ r, v.Means φ r := by
  cases h with
  | literal hform => exact ⟨_, .object hform⟩
  | unknown => exact ⟨_, .unknown⟩

theorem Value.Renamed.means {v v' : Value} {r : Referent} (h : v.Renamed φ ψ v')
    (hr : v.Means φ r) : v'.Means ψ r := by
  cases h with
  | literal hform hform' hsame =>
      cases hr with
      | object hv =>
          cases hform.symm.trans hv
          rw [Json.print_injective hsame]
          exact .object hform'
  | unknown =>
      cases hr with
      | unknown => exact .unknown

theorem Proof.Renamed.live {p p' : Proof} (h : p.Renamed φ ψ p') : p.Live φ := by
  intro v hv
  have hvalues : ∀ {vs vs' : List Value}, List.Forall₂ (Value.Renamed φ ψ) vs vs' → v ∈ vs →
      ∃ r, v.Means φ r := fun hvs hmem =>
    let ⟨_, _, hrenamed⟩ := exists_of_forall₂_mem hvs.flip hmem
    hrenamed.exists_means
  cases List.mem_append.1 hv with
  | inl hlabel =>
      cases List.mem_append.1 hlabel with
      | inl hparameter => exact hvalues h.parameters hparameter
      | inr hresult => exact hvalues h.result hresult
  | inr hmapping =>
      obtain ⟨m, hm, hmem⟩ := List.mem_flatMap.1 hmapping
      obtain ⟨e, he, rfl⟩ := List.mem_map.1 hmem
      obtain ⟨m', -, hmm⟩ := exists_of_forall₂_mem h.mappings.flip hm
      obtain ⟨e', -, -, hrenamed⟩ := exists_of_forall₂_mem (List.Forall₂.flip hmm) he
      exact hrenamed.exists_means

/-- A proof with other handles stands for the same thesis. -/
theorem Proof.Renamed.means {p p' : Proof} {t : Thesis} (h : p.Renamed φ ψ p')
    (ht : p.Means φ t) : p'.Means ψ t := by
  have hvalues : ∀ {vs vs' : List Value} {rs : List Referent},
      List.Forall₂ (Value.Renamed φ ψ) vs vs' → List.Forall₂ (Value.Means φ) vs rs →
      List.Forall₂ (Value.Means ψ) vs' rs := fun hvs hrs =>
    forall₂_join hvs.flip hrs.flip fun _ _ _ hv hr => Value.Renamed.means hv hr
  refine ⟨⟨h.function.symm.trans ht.label.function, hvalues h.parameters ht.label.parameters,
    hvalues h.result ht.label.result⟩, ?_⟩
  refine forall₂_join h.mappings.flip ht.mappings.flip fun m' d m hm hd => ?_
  exact forall₂_join (List.Forall₂.flip hm) (List.Forall₂.flip hd) fun _ _ _ he hr =>
    ⟨he.1.symm.trans hr.1, he.2.means hr.2⟩

theorem exists_theses {ps ps' : List Proof} (h : List.Forall₂ (Proof.Renamed φ ψ) ps ps') :
    ∃ ts, List.Forall₂ (Proof.Means φ) ps ts ∧ List.Forall₂ (Proof.Means ψ) ps' ts := by
  obtain ⟨ts, hts⟩ := exists_forall₂ fun p hp =>
    let ⟨_, _, hrenamed⟩ := exists_of_forall₂_mem h.flip hp
    hrenamed.live.exists_means
  exact ⟨ts, hts, forall₂_join h.flip hts.flip fun _ _ _ hp ht => Proof.Renamed.means hp ht⟩

end

/-! ## Evaluating the same theses -/

/-- The statistics are the same but for the time that the model took. -/
def Stats.SameButTime (x y : Stats) : Prop := y = { x with modelSeconds := y.modelSeconds }

/-- A proof is that of a coin just when its thesis is. -/
theorem Proof.Means.isPrimitive {φ : Handle → Option Json} {p : Proof} {t : Thesis}
    (h : p.Means φ t) : p.label.isPrimitive = (t.claim.function == Call.coinFunction) := by
  rw [← h.label.function]
  rfl

/-- The proofs of compound calls are as many as the theses about them. -/
theorem countP_of_means {φ : Handle → Option Json} {ps : List Proof} {ts : List Thesis}
    (h : List.Forall₂ (Proof.Means φ) ps ts) : ps.countP (!·.label.isPrimitive)
      = ts.countP (·.claim.function != Call.coinFunction) := by
  induction h with
  | nil => rfl
  | cons hp _ ih =>
      rw [List.countP_cons, List.countP_cons, ih, hp.isPrimitive]
      rfl

/-- Proofs that stand for the same theses are evaluated alike, with as many queries and hits. -/
theorem Model.evaluate_alike {σ α : Type} {M : Model σ} {I : σ → Prop} {expand : Expander}
    {E : Json → Json → Prop} (hM : M.Meets I expand E)
    (hF : Session.FailsAlike M I expand fun f g => f.kind = g.kind) [DecidableRel E]
    (hrefl : ∀ v, E v v) (A : Arithmetic α) (settings : Settings) (limit : Nat) {w w' : σ}
    (hw : I w) (hw' : I w') {ps ps' : List Proof} {ts : List Thesis}
    (hps : List.Forall₂ (Proof.Means (M.form? w)) ps ts)
    (hps' : List.Forall₂ (Proof.Means (M.form? w')) ps' ts) :
    EvaluatedAlike M Stats.SameButTime (M.evaluate A settings limit ps w)
      (M.evaluate A settings limit ps' w') := by
  have hstart : ∀ {w : σ}, I w → (Session.start settings w).TellsInOrder M I expand .start :=
    Session.tells_start settings
  rw [M.evaluate_eq, M.evaluate_eq]
  rcases (Session.expandAll_mirrors hM hF hrefl (hstart hw) hps).both
    (Session.expandAll_mirrors hM hF hrefl (hstart hw') hps') with
    ⟨_, _, _, s, t, a, hx, hy, ⟨hG, hs, -⟩, hG', ht, -⟩ | ⟨f, g, k, s, t, hx, hy, hf, hg⟩
  · rw [hx, hy]
    refine (Session.conclude_alike hM hs ht A (hG'.settings.trans hG.settings.symm) limit).imp ?_
    rintro _ _ ⟨stats, rfl, rfl⟩
    have hqueries : t.queries = s.queries := by
      have hcounted : ∀ {w : σ} {ps : List Proof} {s : Session σ}, I w →
          (Session.expandAll M ps).run (.start settings w) = (.ok (), s) → s.Counted := fun hw hr =>
        (Session.counted_start settings _).of_expandAll hM (.start settings hw) hr
      rw [(hcounted hw hx).queries_eq hs.toTells, (hcounted hw' hy).queries_eq ht.toTells]
    have hsum := Session.queries_add_hits hM hx
    have hsum' := Session.queries_add_hits hM hy
    rw [countP_of_means hps] at hsum
    rw [countP_of_means hps'] at hsum'
    have hzero : ∀ w : σ,
        (Session.start settings w).queries + (Session.start settings w).hits = 0 := fun _ => rfl
    rw [hzero] at hsum hsum'
    have hhits : t.hits = s.hits := by omega
    rw [Stats.SameButTime, hqueries, hhits]
  · rw [hx, hy]
    exact .failed (hf.trans hg.symm)

/-- The failure of a request is the one that the functions of the library give. -/
theorem Library.failsAlike (functions : Library) (P : Json → Prop) :
    Session.FailsAlike functions.model (Library.Holds P) functions.expand
      fun f g => f.kind = g.kind where
  kind h := h
  getDistribution := by
    intro s s' c hs vs f f' hw hc hpar hforms hr hexpand
    have hvs : List.Forall₂ (fun h v => s.value? h = some v) hs vs :=
      hforms.imp fun h v hv => by rwa [form?_model] at hv
    rcases functions.getDistribution_cases hw.1 c with ⟨g, hr', hfails⟩ | ⟨e, t, hr', -⟩
    · cases hr.symm.trans hr'
      cases hexpand.symm.trans (hfails hs vs hc hpar hvs)
      rfl
    · cases hr.symm.trans hr'

/-- Handles are only names: over stores of the same functions, proofs that differ in the handles of
live objects with the same printed forms are evaluated alike. Both evaluations fail with the same
kind of failure, or export the same labels with the same probabilities and the same bindings, and
have the same statistics but for the time. -/
theorem Library.evaluate_renamed {α : Type} {functions : Library}
    (hfunctions : functions.KeepsTo Json.Finite) (A : Arithmetic α) (settings : Settings)
    (limit : Nat) {w w' : Store} (hw : Library.Holds Json.Finite w)
    (hw' : Library.Holds Json.Finite w') {ps ps' : List Proof}
    (hps : List.Forall₂ (Proof.Renamed (functions.model.form? w) (functions.model.form? w'))
      ps ps') :
    EvaluatedAlike functions.model Stats.SameButTime
      (functions.model.evaluate A settings limit ps w)
      (functions.model.evaluate A settings limit ps' w') := by
  classical
  have hM := Library.meets hfunctions fun v w hv hw => Json.same_iff v w hv hw
  obtain ⟨ts, hts, hts'⟩ := exists_theses hps
  exact Model.evaluate_alike hM (functions.failsAlike Json.Finite) (fun _ => rfl) A settings limit
    hw hw' hts hts'

namespace yesNo

/-- A store with both truth values, one of them twice, and something else. -/
def crowded : Store :=
  ⟨[(7, ⟨.bool true, 1⟩), (5, ⟨.bool false, 2⟩), (4, ⟨.string "more", 1⟩), (2, ⟨.bool true, 1⟩)], 8⟩

theorem crowded_holds : Library.Holds Json.Finite crowded := by
  refine ⟨by simp [Store.Sound, crowded], fun h v hv => ?_⟩
  obtain ⟨o, ho, rfl⟩ := Option.map_eq_some_iff.1 hv
  have hmem := Store.mem_of_lookup ho
  simp only [crowded, List.mem_cons, Prod.mk.injEq, List.not_mem_nil, or_false] at hmem
  obtain ⟨-, rfl⟩ | ⟨-, rfl⟩ | ⟨-, rfl⟩ | ⟨-, rfl⟩ := hmem <;> trivial

/-- The proofs of `answered` with the handles of the crowded store: what was one handle is two. -/
def elsewhere : List Proof :=
  [⟨⟨⟨"both", []⟩, [.literal ⟨7⟩, .literal ⟨5⟩]⟩, [.empty]⟩,
    ⟨⟨⟨"yes", []⟩, [.literal ⟨2⟩]⟩, [.empty]⟩]

theorem renamed : List.Forall₂ (Proof.Renamed (yesNo.model.form? Library.truths)
    (yesNo.model.form? crowded)) answered elsewhere := by
  have hliteral : ∀ {a b : Handle} (v : Json), Library.truths.value? a = some v →
      crowded.value? b = some v → Value.Renamed (yesNo.model.form? Library.truths)
        (yesNo.model.form? crowded) (.literal a) (.literal b) := fun v ha hb =>
    .literal (by rwa [Library.form?_model]) (by rwa [Library.form?_model]) rfl
  have hyes : Library.truths.value? ⟨0⟩ = some (.bool true) := rfl
  have hno : Library.truths.value? ⟨1⟩ = some (.bool false) := rfl
  exact .cons ⟨rfl, .nil, .cons (hliteral _ hyes rfl) (.cons (hliteral _ hno rfl) .nil),
      .cons .nil .nil⟩
    (.cons ⟨rfl, .nil, .cons (hliteral _ hyes rfl) .nil, .cons .nil .nil⟩ .nil)

end yesNo

theorem yesNo_elsewhere : ∃ r v r' v',
    yesNo.evaluate yesNo.answered Library.truths = some (.ok r, v) ∧
      yesNo.evaluate yesNo.elsewhere yesNo.crowded = some (.ok r', v') ∧
      r.Alike yesNo.model v v' r' ∧ r.stats.SameButTime r'.stats := by
  have halike : EvaluatedAlike yesNo.model Stats.SameButTime
      (yesNo.evaluate yesNo.answered Library.truths)
      (yesNo.evaluate yesNo.elsewhere yesNo.crowded) :=
    Library.evaluate_renamed yesNo.keepsTo _ _ _ yesNo.truths_holds yesNo.crowded_holds
      yesNo.renamed
  exact halike.exists_results (by decide +kernel)

end ChanceProof
