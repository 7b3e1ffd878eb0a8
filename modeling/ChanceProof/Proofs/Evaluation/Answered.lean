import ChanceProof.Proofs.Evaluation.Alike

/-!
# Accepted proofs are answered

An accepted proof proves the label of the proof with a value for each unknown in it, and every
unknown that the proof names, in its label or in a mapping, has a value then: `Proves`. Values stay
as they were found, so after a list of proofs the labels that are proved answer the proofs one by
one (`Proves.of_expandAll`). A caller of the evaluation finds the same said of the results:
`Model.evaluate_answers`.
-/

namespace ChanceProof

namespace Session

variable {σ : Type} {M : Model σ} {I : σ → Prop} {expand : Expander} {E : Json → Json → Prop}

/-- The label says what the label of the proof says, and all unknowns of the proof have values. -/
structure Proves (M : Model σ) (s : Session σ) (p : Proof) (l : Label) : Prop where
  canonical : s.Canonical l
  reads : ∃ pl, p.label.Reads (s.form? M) pl ∧ l.Reads (s.form? M) pl
  found : ∀ x ∈ p.unknowns, ∃ j, s.form? M (.unknown x) = some j

theorem Proves.mono {s s' : Session σ} {p : Proof} {l : Label} (h : s.Proves M p l)
    (hcanonical : ∀ c, s.IsCanonical c → s'.IsCanonical c)
    (hforms : ∀ v j, s.form? M v = some j → s'.form? M v = some j) : s'.Proves M p l := by
  have hreads : ∀ {l : Label} {pl : PortableLabel}, l.Reads (s.form? M) pl →
      l.Reads (s'.form? M) pl := fun h =>
    ⟨h.function, h.parameters.imp fun v j => hforms v j, h.result.imp fun v j => hforms v j⟩
  obtain ⟨pl, hp, hl⟩ := h.reads
  refine ⟨h.canonical.mono hcanonical, ⟨pl, hreads hp, hreads hl⟩, fun x hx => ?_⟩
  obtain ⟨j, hj⟩ := h.found x hx
  exact ⟨j, hforms _ j hj⟩

theorem names_of_checkNames {p : Proof} {d : Distribution} (h : checkNames p d = .ok ())
    {m : Mapping} (hm : m ∈ p.mappings) : p.names = Keyed.names d.names := by
  unfold checkNames at h
  simp only at h
  split at h
  · next hor =>
      rw [Bool.or_eq_true, List.isEmpty_iff, decide_eq_true_iff] at hor
      refine hor.resolve_left fun hnil => ?_
      rw [hnil] at hm
      cases hm
  · cases h

variable (hM : M.Meets I expand E) {s s' : Session σ} {p : Proof} {l : Label}

include hM

/-- Every value in a mapping belongs to a variable of the distribution, so it was compared with one
of the results and has a form. -/
theorem alternatives_found (hs : s.Coherent M I expand) {c : Call} (hc : c.isPrimitive = false)
    {hs' : List Handle} {vs : List Json} (hpar : c.parameters = hs'.map .literal)
    (hforms : M.Forms s.world hs' vs) (hcheck : Proof.check p.label p.mappings = .ok ())
    {as : List (List Label)} (hr : (alternatives M p c).run s = (.ok as, s')) :
    ∀ m ∈ p.mappings, ∀ e ∈ m.entries, ∃ j, s'.form? M e.2 = some j := by
  intro m hm e he
  obtain ⟨d, s₁, hd, hr⟩ := Action.run_bind_ok.1 hr
  obtain ⟨_, s₂, hnames, has⟩ := Action.run_bind_ok.1 hr
  obtain ⟨hchecked, rfl⟩ := Action.run_liftM_ok.1 hnames
  rcases distribution_cases hM hs hc hpar hforms with
    ⟨d', s₁', sk, hd', hlearns, hsk, hreads⟩ | ⟨f, f', s₁', hd', -, -⟩
  · cases hd.symm.trans hd'
    have htraces := mapM_alternative_ok hM (hlearns.coherent hs) hreads has
    obtain ⟨a, -, subs, htraces⟩ := exists_of_forall₂_mem htraces.flip hm
    have hname : e.1 ∈ d.names := by
      refine Keyed.mem_of_mem_names ?_
      rw [← names_of_checkNames hchecked hm, ← (Proof.check_ok_iff.1 hcheck).2 m hm]
      exact List.mem_map_of_mem he
    rw [hreads.names] at hname
    obtain ⟨st, hst, hname⟩ := List.mem_flatMap.1 hname
    obtain ⟨sub, -, hmaps⟩ := exists_of_forall₂_mem htraces.maps.flip hst
    obtain ⟨j, -, v, hv, hj⟩ := exists_of_forall₂_mem hmaps.flip hname
    rw [Dictionary.get?_of_mem he] at hv
    cases hv
    exact ⟨j, hj⟩
  · cases hd.symm.trans hd'

/-- An accepted proof is answered. -/
theorem Proves.of_expand (hs : s.Coherent M I expand)
    (hcheck : Proof.check p.label p.mappings = .ok ())
    (hr : (Session.expand M p).run s = (.ok l, s')) : s'.Proves M p l := by
  obtain ⟨ps, s₁, s₂, as, hps, hlearns, hrecord, hkind⟩ := expand_parts hM hs hr
  have hs₁ := ((keeps_groundValues hM p.label _).of_run hps).coherent hs
  have hs₂ := hlearns.coherent hs₁
  obtain ⟨rs, s₃, hrs, rfl, hform, hcanonical, -⟩ := record_ok hrecord
  have hlearns₃ := (keeps_groundValues hM p.label _).of_run hrs
  obtain ⟨hpc, args, hpargs, hargs⟩ := groundValues_ok hM hs hps
  obtain ⟨hrc, js, hjs, hjs'⟩ := groundValues_ok hM hs₂ hrs
  -- What has a form on the way has it in the end.
  have hkept₂ : ∀ v j, s₂.form? M v = some j → s'.form? M v = some j := fun v j hv =>
    (hform v).trans (hlearns₃.form? hs₂ hv)
  have hkept₁ : ∀ v j, s₁.form? M v = some j → s'.form? M v = some j := fun v j hv =>
    hkept₂ v j (hlearns.form? hs₁ hv)
  have hkept₃ : ∀ v j, s₃.form? M v = some j → s'.form? M v = some j := fun v j hv =>
    (hform v).trans hv
  refine ⟨Canonical.mono hcanonical fun v hv => ?_, ⟨⟨p.label.call.function, args, js⟩,
    ⟨rfl, hpargs.imp hkept₁, hjs.imp hkept₃⟩, ⟨rfl, hargs.imp hkept₁, hjs'.imp hkept₃⟩⟩,
    fun x hx => ?_⟩
  · cases List.mem_append.1 hv with
    | inl hv =>
        obtain ⟨c, rfl, hc⟩ := hpc v hv
        exact ⟨c, rfl, (hlearns.trans hlearns₃).isCanonical hc⟩
    | inr hv => exact hrc v hv
  · rcases List.mem_append.1 (Proof.mem_unknowns.1 hx) with hlabel | hmapping
    · rcases List.mem_append.1 hlabel with hparameter | hresult
      · obtain ⟨j, -, hj⟩ := exists_of_forall₂_mem hpargs.flip hparameter
        exact ⟨j, hkept₁ _ j hj⟩
      · obtain ⟨j, -, hj⟩ := exists_of_forall₂_mem hjs.flip hresult
        exact ⟨j, hkept₃ _ j hj⟩
    · obtain ⟨m, hm, hmem⟩ := List.mem_flatMap.1 hmapping
      obtain ⟨e, he, hex⟩ := List.mem_map.1 hmem
      rcases hkind with ⟨-, hnil, -⟩ | ⟨hprim, found, hfound, -⟩
      · rw [hnil] at hm
        cases hm
      · obtain ⟨hs', hpar, hforms⟩ := literals_of_canonical hpc hargs
        obtain ⟨j, hj⟩ := alternatives_found hM (c := ⟨p.label.call.function, ps⟩) hs₁ hprim hpar
          hforms hcheck hfound m hm e he
        rw [hex] at hj
        exact ⟨j, hkept₂ _ j hj⟩

/-- What is canonical or has a form before a proof is accepted is and has so after it. -/
theorem expand_stays (hs : s.Coherent M I expand) (hr : (Session.expand M p).run s = (.ok l, s')) :
    (∀ c, s.IsCanonical c → s'.IsCanonical c) ∧
      ∀ v j, s.form? M v = some j → s'.form? M v = some j := by
  obtain ⟨ps, s₁, s₂, as, hps, hlearns, hrecord, -⟩ := expand_parts hM hs hr
  obtain ⟨rs, s₃, hrs, rfl, hform, hcanonical, -⟩ := record_ok hrecord
  have hlearns₃ := (((keeps_groundValues hM p.label _).of_run hps).trans hlearns).trans
    ((keeps_groundValues hM p.label _).of_run hrs)
  exact ⟨fun c hc => hcanonical c (hlearns₃.isCanonical hc), fun v j hv =>
    (hform v).trans (hlearns₃.form? hs hv)⟩

theorem expandAll_stays (hs : s.Sound M I expand E) {ps : List Proof}
    (hr : (Session.expandAll M ps).run s = (.ok (), s')) :
    (∀ c, s.IsCanonical c → s'.IsCanonical c) ∧
      ∀ v j, s.form? M v = some j → s'.form? M v = some j := by
  refine (Action.forM_invariant_of_ok (P := fun t => t.Sound M I expand E ∧
    (∀ c, s.IsCanonical c → t.IsCanonical c) ∧ ∀ v j, s.form? M v = some j → t.form? M v = some j)
    ?_ ⟨hs, fun _ h => h, fun _ _ h => h⟩ hr).2
  intro t q k t' ⟨ht, hcanonical, hform⟩ hk
  have ht' := ht.of_expand hM q
  rw [hk] at ht'
  obtain ⟨hcanonical', hform'⟩ := expand_stays hM ht.coherent hk
  exact ⟨ht', fun c hc => hcanonical' c (hcanonical c hc), fun v j hv => hform' v j (hform v j hv)⟩

/-- An accepted list of proofs is answered one by one. -/
theorem Proves.of_expandAll (hs : s.Sound M I expand E) {ps : List Proof}
    (hcheck : ∀ p ∈ ps, Proof.check p.label p.mappings = .ok ())
    (hr : (Session.expandAll M ps).run s = (.ok (), s')) :
    ∃ ls, s'.proved = s.proved ++ ls ∧ List.Forall₂ (s'.Proves M) ps ls := by
  induction ps generalizing s with
  | nil =>
      obtain ⟨-, rfl⟩ := Action.run_pure_ok.1 hr
      exact ⟨[], (List.append_nil _).symm, .nil⟩
  | cons p ps ih =>
      obtain ⟨hp, hps⟩ := List.forall_mem_cons.1 hcheck
      obtain ⟨l, s₁, hl, hr⟩ := Action.run_forM_cons_ok.1 hr
      have hs₁ := hs.of_expand hM p
      rw [hl] at hs₁
      obtain ⟨ls, hproved, hanswers⟩ := ih hs₁ hps hr
      refine ⟨l :: ls, ?_, .cons ?_ hanswers⟩
      · rw [hproved, expand_proved hM hs.coherent hl, List.append_assoc]
        rfl
      · obtain ⟨hcanonical, hform⟩ := expandAll_stays hM hs₁ hr
        exact (Proves.of_expand hM hs.coherent hp hl).mono hcanonical hform

end Session

/-! ## Results -/

namespace Results

variable {α : Type}

/-- What a value of a proof stands for by the results, where `φ` gives the forms of objects. -/
def form? (φ : Handle → Option Json) (r : Results α) : Value → Option Json
  | .literal h => φ h
  | .unknown name => (r.binding? name).bind φ
  | _ => none

/-- The labels that are proved say what the labels of the proofs say with the values of their
unknowns. Every unknown has one value, and labels that say the same are one label. -/
structure Answers (φ : Handle → Option Json) (ps : List Proof) (r : Results α) : Prop where
  proved : List.Forall₂ (fun p l => ∃ pl, p.label.Reads (r.form? φ) pl ∧
    l.Reads (literalForm? φ) pl) ps r.proved
  found : ∀ p ∈ ps, ∀ x ∈ p.unknowns, ∃ j, r.form? φ (.unknown x) = some j
  distinct : (r.bindings.map (·.1)).Nodup
  label_inj : ∀ l ∈ r.proved, ∀ m ∈ r.proved, ∀ pl, l.Reads (literalForm? φ) pl →
    m.Reads (literalForm? φ) pl → l = m

/-- A value stands for the same by the session that is solved and by its results. -/
theorem form?_of_session {σ : Type} {M : Model σ} {s : Session σ} {r : Results α} {w : σ}
    (hbindings : r.bindings = s.bindings)
    (hforms : ∀ h j, M.form? s.world h = some j → M.form? w h = some j) {v : Value} {j : Json}
    (hv : s.form? M v = some j) : r.form? (M.form? w) v = some j := by
  unfold Session.form? at hv
  cases v with
  | literal h => exact hforms h j hv
  | unknown x =>
      show (r.bindings.lookup x).bind _ = _
      rw [hbindings]
      show (s.binding? x).bind _ = _
      rw [Session.resolve] at hv
      cases hx : s.binding? x with
      | none =>
          rw [hx] at hv
          cases hv
      | some h =>
          rw [hx] at hv
          exact hforms h j hv
  | _ => cases hv

end Results

/-- The results of an evaluation answer its proofs. -/
theorem Model.evaluate_answers {σ α : Type} {M : Model σ} {I : σ → Prop} {expand : Expander}
    {E : Json → Json → Prop} (hM : M.Meets I expand E) {A : Arithmetic α} {settings : Settings}
    {limit : Nat} {ps : List Proof} {w w' : σ} {r : Results α} (hw : I w)
    (hcheck : ∀ p ∈ ps, Proof.check p.label p.mappings = .ok ())
    (h : M.evaluate A settings limit ps w = some (.ok r, w')) :
    I w' ∧ (∀ h j, M.form? w h = some j → M.form? w' h = some j) ∧ r.Answers (M.form? w') ps := by
  obtain ⟨s, s', hexpand, hsolve, rfl⟩ := evaluate_ok_iff.1 h
  obtain ⟨_, values, passes, hsystem, rfl⟩ := SortedSession.solve_results hsolve
  have hstart : Session.Reachable M I (.start settings w) := .start settings hw
  have hreach := hstart.forM_expand hexpand
  have hs := (hreach.sound hM).coherent
  obtain ⟨ls, hproved, hanswers⟩ := Session.Proves.of_expandAll hM (hstart.sound hM) hcheck hexpand
  have hproved : s.proved = ls := hproved
  have hsystem : Session.Quiet M I (fun _ => ()) s s' :=
    ((Session.quiet_frame hM (fun _ _ => rfl) (fun _ _ _ => rfl) (fun _ _ => rfl)
      fun _ _ _ => rfl : Session.Frame id M M _).system A).keeps.of_run hsystem
  obtain ⟨hw', hforms⟩ := hsystem.world hs.world
  have hstay : ∀ h j, M.form? w h = some j → M.form? s'.world h = some j := fun h j hj =>
    hforms h j ((Session.expandAll_stays hM (hstart.sound hM) hexpand).2 (.literal h) j hj)
  have hvalue : ∀ v j, s.form? M v = some j →
      (s.sort.results values passes).form? (M.form? s'.world) v = some j := fun _ _ =>
    Results.form?_of_session rfl hforms
  have hreading : ∀ {l : Label} {pl : PortableLabel}, s.Canonical l → l.Reads (s.form? M) pl →
      l.Reads (literalForm? (M.form? s'.world)) pl := fun hl hreads =>
    (hl.reads_literals hreads).of_literals hforms
  refine ⟨hw', hstay, ?_, fun p hp x hx => ?_, hreach.distinct hM, ?_⟩
  · show List.Forall₂ _ ps s.proved
    rw [hproved]
    refine hanswers.imp fun p l h => ?_
    obtain ⟨pl, hp, hl⟩ := h.reads
    exact ⟨pl, ⟨hp.function, hp.parameters.imp hvalue, hp.result.imp hvalue⟩,
      hreading h.canonical hl⟩
  · obtain ⟨l, -, h⟩ := exists_of_forall₂_mem hanswers.flip hp
    obtain ⟨j, hj⟩ := h.found x hx
    exact ⟨j, hvalue _ j hj⟩
  · have hcanonical : ∀ l ∈ s.proved, s.Canonical l ∧ ∃ pl, l.Reads (s.form? M) pl := by
      intro l hl
      rw [hproved] at hl
      obtain ⟨p, -, h⟩ := exists_of_forall₂_mem hanswers hl
      obtain ⟨pl, -, hreads⟩ := h.reads
      exact ⟨h.canonical, pl, hreads⟩
    intro l hl m hm pl hlpl hmpl
    obtain ⟨hlc, pl₁, hl₁⟩ := hcanonical l hl
    obtain ⟨hmc, pl₂, hm₂⟩ := hcanonical m hm
    obtain rfl := Session.reads_unique (hreading hlc hl₁) hlpl
    obtain rfl := Session.reads_unique (hreading hmc hm₂) hmpl
    exact hs.label_inj hlc hmc hl₁ hm₂

end ChanceProof
