import ChanceProof.Proofs.Evaluation.Requests

/-!
# Evaluations that export the same

A caller never learns the handles of an evaluation: labels, bindings and terms leave it by the forms
of their objects. Two evaluations are alike when what they export is the same, object by object and
in the same order, with the same probabilities; or when they fail with the same kind of failure.

An evaluation expands its proofs and goes on from the session that this leads to
(`Model.evaluate_eq`). Sessions with the same account go on alike, whatever handles they use:
`Session.conclude_alike`.
-/

namespace ChanceProof

theorem literalForm?_mono {φ ψ : Handle → Option Json} (hle : ∀ h v, φ h = some v → ψ h = some v)
    {v : Value} {j : Json} (h : literalForm? φ v = some j) : literalForm? ψ v = some j := by
  obtain ⟨c, rfl, hform⟩ := literal_of_literalForm? h
  exact hle c j hform

theorem Label.Reads.of_literals {φ ψ : Handle → Option Json}
    (hle : ∀ h v, φ h = some v → ψ h = some v) {l : Label} {pl : PortableLabel}
    (h : l.Reads (literalForm? φ) pl) : l.Reads (literalForm? ψ) pl :=
  ⟨h.function, h.parameters.imp fun _ _ => literalForm?_mono hle,
    h.result.imp fun _ _ => literalForm?_mono hle⟩

/-! ## What is exported -/

namespace Model

variable {σ : Type} (M : Model σ)

/-- What is exported of a label. -/
def exported? (w : σ) (l : Label) : Option PortableLabel :=
  ((M.exportLabel l).run w).1.toOption

/-- The labels are exported, and what is exported of them is the same. -/
def ExportAlike (w w' : σ) (l l' : Label) : Prop :=
  ∃ pl, M.exported? w l = some pl ∧ M.exported? w' l' = some pl

variable {M} {I : σ → Prop} {expand : Expander} {E : Json → Json → Prop} (hM : M.Meets I expand E)

include hM

theorem exportValues_of_forms {w : σ} (hw : I w) {vs : List Value} {js : List Json}
    (h : List.Forall₂ (fun v j => literalForm? (M.form? w) v = some j) vs js) :
    ∃ w', (vs.mapM M.exportValue).run w = (.ok js, w') ∧ M.Later I w w' := by
  induction vs generalizing w js with
  | nil =>
      cases h
      exact ⟨w, rfl, .refl w⟩
  | cons v vs ih =>
      obtain ⟨j, js, hv, hvs, rfl⟩ := List.forall₂_cons_left_iff.1 h
      obtain ⟨c, rfl, hform⟩ := literal_of_literalForm? hv
      obtain ⟨w₁, hrun⟩ := run_of_form? hform
      have hlater := (hM.toExternal_later c).of_run hrun
      obtain ⟨hw₁, hle⟩ := hlater hw
      obtain ⟨w', hrest, hlater'⟩ := ih hw₁ (hvs.imp fun _ _ => literalForm?_mono hle)
      exact ⟨w', Action.run_mapM_cons_ok.2 ⟨j, w₁, js, hrun, hrest, rfl⟩,
        hlater.trans hlater'⟩

/-- A label of live objects is exported as what it says. -/
theorem exportLabel_of_reads {w : σ} (hw : I w) {l : Label} {pl : PortableLabel}
    (h : l.Reads (literalForm? (M.form? w)) pl) :
    ∃ w', (M.exportLabel l).run w = (.ok pl, w') ∧ M.Later I w w' := by
  obtain ⟨w₁, hparameters, hlater⟩ := exportValues_of_forms hM hw h.parameters
  obtain ⟨hw₁, hle⟩ := hlater hw
  obtain ⟨w₂, hresult, hlater'⟩ :=
    exportValues_of_forms hM hw₁ (h.result.imp fun _ _ => literalForm?_mono hle)
  refine ⟨w₂, ?_, hlater.trans hlater'⟩
  unfold exportLabel
  rw [Action.run_bind_of_ok hparameters, Action.run_bind_of_ok hresult, h.function]
  rfl

theorem exportAlike_of_reads {w w' : σ} (hw : I w) (hw' : I w') {l l' : Label} {pl : PortableLabel}
    (h : l.Reads (literalForm? (M.form? w)) pl) (h' : l'.Reads (literalForm? (M.form? w')) pl) :
    M.ExportAlike w w' l l' := by
  obtain ⟨_, hr, -⟩ := exportLabel_of_reads hM hw h
  obtain ⟨_, hr', -⟩ := exportLabel_of_reads hM hw' h'
  exact ⟨pl, by rw [exported?, hr]; rfl, by rw [exported?, hr']; rfl⟩

end Model

/-- What is exported of the results is the same. -/
structure Results.Alike {σ α : Type} (M : Model σ) (w w' : σ) (r r' : Results α) : Prop where
  labels : List.Forall₂ (fun x y => M.ExportAlike w w' x.1 y.1 ∧ x.2 = y.2) r.labels r'.labels
  proved : List.Forall₂ (M.ExportAlike w w') r.proved r'.proved
  bindings : List.Forall₂ (fun b b' => b.1 = b'.1 ∧
    ∃ v, M.form? w b.2 = some v ∧ M.form? w' b'.2 = some v) r.bindings r'.bindings

/-- Both evaluations are unfinished, or fail with the same kind of failure, or export the same
results; then `S` is said of their statistics. -/
inductive EvaluatedAlike {σ α : Type} (M : Model σ) (S : Stats → Stats → Prop) :
    Option (Except Failure (Results α) × σ) → Option (Except Failure (Results α) × σ) → Prop
  | stopped : EvaluatedAlike M S none none
  | failed {f g : Failure} {w w' : σ} (kind : f.kind = g.kind) :
    EvaluatedAlike M S (some (.error f, w)) (some (.error g, w'))
  | solved {r r' : Results α} {w w' : σ} (alike : r.Alike M w w' r') (stats : S r.stats r'.stats) :
    EvaluatedAlike M S (some (.ok r, w)) (some (.ok r', w'))

theorem EvaluatedAlike.imp {σ α : Type} {M : Model σ} {S S' : Stats → Stats → Prop}
    {x y : Option (Except Failure (Results α) × σ)} (h : EvaluatedAlike M S x y)
    (hS : ∀ stats stats', S stats stats' → S' stats stats') : EvaluatedAlike M S' x y := by
  cases h with
  | stopped => exact .stopped
  | failed hkind => exact .failed hkind
  | solved halike hstats => exact .solved halike (hS _ _ hstats)

theorem EvaluatedAlike.exists_results {σ α : Type} {M : Model σ} {S : Stats → Stats → Prop}
    {x y : Option (Except Failure (Results α) × σ)} (h : EvaluatedAlike M S x y)
    (hx : x.map (·.1.isOk) = some true) : ∃ r w r' w', x = some (.ok r, w) ∧
      y = some (.ok r', w') ∧ r.Alike M w w' r' ∧ S r.stats r'.stats := by
  cases h with
  | stopped => cases hx
  | failed => cases hx
  | solved halike hstats => exact ⟨_, _, _, _, rfl, rfl, halike, hstats⟩

/-! ## Going on from the same account -/

/-- What a sorted session is solved to when it is solved. -/
theorem SortedSession.solve_results {σ α : Type} {M : Model σ} {A : Arithmetic α} {limit : Nat}
    {s : SortedSession σ} {t s' : Session σ} {r : Results α}
    (h : s.solve M A limit t = some (.ok r, s')) : ∃ system values passes,
      (Session.system M A).run t = (.ok system, s') ∧ r = s.results values passes := by
  unfold solve at h
  obtain ⟨system, t', hsystem, h⟩ := Run.bind_ok.1 h
  cases hsolve : system.solve A s.graph s.components s.session.settings.maxPasses limit with
  | none =>
      rw [hsolve] at h
      cases h
  | some answer =>
      rw [hsolve] at h
      cases answer with
      | error e => cases h
      | ok found =>
          cases h
          exact ⟨system, found.1, found.2, Option.some.inj hsystem, rfl⟩

/-- Solving does nothing to a session but make its equations. -/
theorem SortedSession.solve_state {σ α : Type} {M : Model σ} {A : Arithmetic α} {limit : Nat}
    {s : SortedSession σ} {t t' : Session σ} {x : Except Failure (Results α)}
    (h : s.solve M A limit t = some (x, t')) :
    t' = ((Session.system M A).run t).2 := by
  unfold solve at h
  rw [Run.bind_apply,
    show Run.ofAction (Session.system M A) t = some ((Session.system M A).run t) from rfl] at h
  rcases hr : (Session.system M A).run t with ⟨f | equations, t₁⟩ <;> rw [hr] at h
  · cases h
    rfl
  · simp only at h
    rcases hsolve : equations.solve A s.graph s.components s.session.settings.maxPasses limit with
      _ | e | ⟨values, passes⟩ <;> rw [hsolve] at h <;> cases h
    · rfl
    · rfl

namespace Session

variable {σ α : Type} {M : Model σ} {I : σ → Prop} {expand : Expander} {E : Json → Json → Prop}

section

variable (hM : M.Meets I expand E) {s t : Session σ} {a : Account}
  (hs : s.TellsInOrder M I expand a) (ht : t.TellsInOrder M I expand a)

include hs ht

/-- Results that mean the same are exported alike, with the bindings in their order. -/
theorem TellsInOrder.results_alike {w w' : σ} (hw : I w) (hw' : I w') {r r' : Results α}
    {found : Account.Results α} (h : r.Means (M.form? w) found) (h' : r'.Means (M.form? w') found)
    (hbound : found.bindings = a.bindings) (hr : r.bindings = s.bindings)
    (hr' : r'.bindings = t.bindings) (hM : M.Meets I expand E) : r.Alike M w w' r' := by
  have horder : BoundInOrder (M.form? w) r.bindings found.bindings :=
    h.bindings.inOrder (by rw [hr, hbound]; exact hs.names) (by rw [hr]; exact hs.distinct)
  have horder' : BoundInOrder (M.form? w') r'.bindings found.bindings :=
    h'.bindings.inOrder (by rw [hr', hbound]; exact ht.names) (by rw [hr']; exact ht.distinct)
  refine ⟨?_, ?_, ?_⟩
  · exact forall₂_join h.labels h'.labels fun _ _ _ hx hy =>
      ⟨Model.exportAlike_of_reads hM hw hw' hx.1 hy.1, hx.2.trans hy.2.symm⟩
  · exact forall₂_join h.proved h'.proved fun _ _ _ hx hy =>
      Model.exportAlike_of_reads hM hw hw' hx hy
  · exact forall₂_join horder horder' fun _ _ b hx hy =>
      ⟨hx.1.trans hy.1.symm, b.2, hx.2, hy.2⟩

theorem TellsInOrder.same_sort : t.sort.components = s.sort.components ∧
    t.sort.components.countP t.sort.graph.isRecursive
      = s.sort.components.countP s.sort.graph.isRecursive := by
  have hgraph : t.graph = s.graph := ht.toTells.graph.trans hs.toTells.graph.symm
  show t.graph.components = s.graph.components ∧
    t.graph.components.countP t.graph.isRecursive = s.graph.components.countP s.graph.isRecursive
  rw [hgraph]
  exact ⟨rfl, rfl⟩

include hM

/-- Two sessions with the same account go on alike. Of queries, hits and time they tell what each of
them has counted. -/
theorem conclude_alike (A : Arithmetic α) (hsettings : t.settings = s.settings) (limit : Nat) :
    EvaluatedAlike M (fun x y => ∃ stats : Stats,
        x = { stats with
          modelQueries := s.queries, cacheHits := s.hits, modelSeconds := s.seconds } ∧
        y = { stats with
          modelQueries := t.queries, cacheHits := t.hits, modelSeconds := t.seconds })
      (conclude M A limit (.ok (), s)) (conclude M A limit (.ok (), t)) := by
  have halike := hs.toTells.solvedAlike hM A ht.toTells hsettings rfl rfl limit
  have hR : Frame id M M (Quiet M I fun _ => ()) :=
    quiet_frame hM (fun _ _ => rfl) (fun _ _ _ => rfl) (fun _ _ => rfl) fun _ _ _ => rfl
  simp only [conclude]
  generalize hx : s.sort.solve M A limit s = x at halike
  generalize hy : t.sort.solve M A limit t = y at halike
  cases halike with
  | stopped => exact .stopped
  | failed hkind => exact .failed hkind
  | @solved _ _ s' t' found _ hmeans hmeans' hsame =>
      obtain ⟨hbound, rfl⟩ := hsame
      obtain ⟨_, values, passes, hsystem, rfl⟩ := SortedSession.solve_results hx
      obtain ⟨_, values', passes', hsystem', rfl⟩ := SortedSession.solve_results hy
      have hw := (((hR.system A).keeps.of_run hsystem).world hs.coherent.world).1
      have hw' := (((hR.system A).keeps.of_run hsystem').world ht.coherent.world).1
      have hfound : { found with bindings := a.bindings } = found := by rw [← hbound]
      rw [hfound] at hmeans'
      refine .solved (hs.results_alike ht hw hw' hmeans hmeans' hbound rfl rfl hM)
        ⟨(s.sort.results values passes).stats, rfl, ?_⟩
      have hlabels : t.entries.length = s.entries.length :=
        ht.entries.length_eq.trans hs.entries.length_eq.symm
      obtain ⟨hcomponents, hrecursive⟩ := hs.same_sort ht
      have hpasses : passes' = passes := hmeans'.passes.trans hmeans.passes.symm
      unfold SortedSession.results
      rw [hcomponents] at hrecursive ⊢
      rw [hrecursive, hpasses, show t.sort.session.entries.length = _ from hlabels]
      rfl

end

end Session

end ChanceProof
