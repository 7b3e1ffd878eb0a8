import ChanceProof.Proofs.Evaluation.Mirror

/-!
# Proofs and theses are expanded in lock step

Labels of a session are equal just when they say the same, and two alternatives differ just when
what they say is apart. So a session looks up, compares and records labels as its account does, and
a proof is accepted or rejected as the thesis that it stands for: `expand_mirrors`.
-/

namespace ChanceProof

theorem forall₂_findIdx? {α β : Type} {R : α → β → Prop} {xs : List α} {ys : List β}
    (h : List.Forall₂ R xs ys) {p : α → Bool} {q : β → Bool} (hpq : ∀ x y, R x y → p x = q y) :
    xs.findIdx? p = ys.findIdx? q := by
  induction h with
  | nil => rfl
  | cons hxy _ ih => rw [List.findIdx?_cons, List.findIdx?_cons, hpq _ _ hxy, ih]

theorem forall₂_find? {α β : Type} {R : α → β → Prop} {xs : List α} {ys : List β}
    (h : List.Forall₂ R xs ys) {p : α → Bool} {q : β → Bool} (hpq : ∀ x y, R x y → p x = q y) :
    xs.find? p = none ∧ ys.find? q = none ∨
      ∃ x y, xs.find? p = some x ∧ ys.find? q = some y ∧ R x y := by
  induction h with
  | nil => exact .inl ⟨rfl, rfl⟩
  | @cons x y xs ys hxy _ ih =>
      rw [List.find?_cons, List.find?_cons, hpq x y hxy]
      cases q y with
      | true => exact .inr ⟨x, y, rfl, rfl, hxy⟩
      | false => exact ih

namespace Session

variable {σ : Type} {M : Model σ} {I : σ → Prop} {expand : Expander} {E : Json → Json → Prop}

/-- Failures of a model and of the evaluator that count as the same. The kind of a failure is the
least that has to be the same. -/
structure FailsAlike (M : Model σ) (I : σ → Prop) (expand : Expander)
    (F : Failure → Failure → Prop) : Prop where
  kind : ∀ {f g : Failure}, f.kind = g.kind → F f g
  getDistribution : ∀ {s s' c hs vs f f'}, I s → c.isPrimitive = false →
    c.parameters = hs.map .literal → M.Forms s hs vs →
    (M.getDistribution c).run s = (.error f, s') → expand c.function vs = .error f' → F f f'

theorem failsAlike_true : FailsAlike M I expand fun _ _ => True :=
  ⟨fun _ => trivial, fun _ _ _ _ _ _ => trivial⟩

/-! ## Labels and alternatives -/

section

variable {s : Session σ} {a : Account} (ht : s.Tells M I expand a)

include ht

theorem Tells.number? {l : Label} {pl : PortableLabel} (hl : s.Says M l pl) :
    s.number? l = a.number? pl :=
  forall₂_findIdx? ht.entries fun _ _ he => decide_eq_decide.2 (ht.coherent.says_inj he.label hl)

theorem Tells.alternativesOf {l : Label} {pl : PortableLabel} (hl : s.Says M l pl) :
    List.Forall₂ (List.Forall₂ (s.Says M)) (s.alternativesOf l) (a.alternativesOf pl) := by
  unfold Session.alternativesOf Account.alternativesOf
  rcases forall₂_find? ht.entries (p := (·.label = l)) (q := (·.label = pl)) fun _ _ he =>
    decide_eq_decide.2 (ht.coherent.says_inj he.label hl) with ⟨hx, hy⟩ | ⟨e, e', hx, hy, he⟩
  · rw [hx, hy]
    exact .nil
  · rw [hx, hy]
    exact he.alternatives

theorem Tells.differ_iff {xs ys : List Label} {subs subs' : List PortableLabel}
    (hx : List.Forall₂ (s.Says M) xs subs) (hy : List.Forall₂ (s.Says M) ys subs') :
    Differ xs ys ↔ Apart subs subs' := by
  refine ⟨fun ⟨i, l, m, hl, hm, hne⟩ => ?_, differ_of_apart (hx.imp fun _ _ => Says.reads)
    (hy.imp fun _ _ => Says.reads)⟩
  obtain ⟨p, hp, hlp⟩ := forall₂_some_left hx hl
  obtain ⟨q, hq, hmq⟩ := forall₂_some_left hy hm
  refine ⟨i, p.result, q.result, by rw [List.getElem?_map, hp]; rfl,
    by rw [List.getElem?_map, hq]; rfl, fun heq => hne ?_⟩
  have hmp := hmq.reads_form?.result
  rw [← heq] at hmp
  exact ht.coherent.literals_inj (fun v hv => hlp.canonical v (List.mem_append_right _ hv))
    (fun v hv => hmq.canonical v (List.mem_append_right _ hv)) hlp.reads_form?.result hmp

theorem Tells.pairwise_iff {as : List (List Label)} {subss : List (List PortableLabel)}
    (h : List.Forall₂ (List.Forall₂ (s.Says M)) as subss) :
    as.Pairwise Differ ↔ subss.Pairwise Apart :=
  ⟨fun hp => pairwise_of_forall₂ h.flip hp fun _ _ _ _ hx hy => (ht.differ_iff hx hy).1,
    fun hp => pairwise_of_forall₂ h hp fun _ _ _ _ hx hy => (ht.differ_iff hx hy).2⟩

theorem Tells.withEntry {l : Label} {pl : PortableLabel} (hl : s.Says M l pl) :
    (s.withEntry l).Tells M I expand (a.withEntry pl) := by
  unfold Session.withEntry Account.withEntry
  rw [← ht.number? hl]
  split
  · have hsame : Grows M s { s with entries := s.entries ++ [⟨l, []⟩] } := grows_recording s _ _
    exact ⟨ht.coherent.recording _ _, ht.bindings,
      List.rel_append (ht.entries.imp fun _ _ => hsame.lists) (.cons ⟨hsame.saying hl, .nil⟩ .nil),
      ht.proved.imp fun _ _ => hsame.saying⟩
  · exact ht

theorem Tells.setAlternatives {l : Label} {pl : PortableLabel} (hl : s.Says M l pl)
    {as : List (List Label)} {subss : List (List PortableLabel)}
    (has : List.Forall₂ (List.Forall₂ (s.Says M)) as subss) :
    (s.setAlternatives l as).Tells M I expand (a.setAlternatives pl subss) := by
  have hsame : Grows M s (s.setAlternatives l as) := grows_recording s _ _
  refine ⟨ht.coherent.recording _ _, ht.bindings, ?_, ht.proved.imp fun _ _ => hsame.saying⟩
  unfold Session.setAlternatives Account.setAlternatives
  refine List.forall₂_map_left_iff.2 (List.forall₂_map_right_iff.2 (ht.entries.imp ?_))
  intro e e' he
  have hiff := ht.coherent.says_inj he.label hl
  by_cases heq : e.label = l
  · rw [if_pos heq, if_pos (hiff.1 heq)]
    exact ⟨hsame.saying he.label, has.imp fun _ _ h => h.imp fun _ _ => hsame.saying⟩
  · rw [if_neg heq, if_neg fun h => heq (hiff.2 h)]
    exact hsame.lists he

end

theorem bindings_withEntry (s : Session σ) (l : Label) : (s.withEntry l).bindings = s.bindings := by
  rw [withEntry_eq]

section

variable {s : Session σ} {a : Account} (ht : s.TellsInOrder M I expand a) {l : Label}
  {pl : PortableLabel} (hl : s.Says M l pl)

include ht hl

theorem TellsInOrder.withEntry : (s.withEntry l).TellsInOrder M I expand (a.withEntry pl) := by
  refine ⟨ht.toTells.withEntry hl, ?_, ?_⟩
  · rw [boundNames, bindings_withEntry, Account.bindings_withEntry]
    exact ht.names
  · rw [boundNames, bindings_withEntry]
    exact ht.distinct

theorem TellsInOrder.setAlternatives {as : List (List Label)} {subss : List (List PortableLabel)}
    (has : List.Forall₂ (List.Forall₂ (s.Says M)) as subss) :
    (s.setAlternatives l as).TellsInOrder M I expand (a.setAlternatives pl subss) :=
  ⟨ht.toTells.setAlternatives hl has, ht.names, ht.distinct⟩

end

theorem grows_withEntry (s : Session σ) (l : Label) : Grows M s (s.withEntry l) := by
  rw [withEntry_eq]
  exact grows_recording s _ _

/-! ## Expanding -/

section

variable {F : Failure → Failure → Prop} (hM : M.Meets I expand E)
  (hF : FailsAlike M I expand F) {s : Session σ} {a : Account} (ht : s.TellsInOrder M I expand a)

include hM hF ht

theorem distribution_mirrors {c : Call} (hc : c.isPrimitive = false) {vs : List Json}
    (hpar : List.Forall₂ (s.Denotes M) c.parameters vs) :
    (distribution M c).Mirrors (Grows M) (TellsInOrder M I expand) F
      (fun d sk s' => d.Reads (M.form? s'.world) sk)
      (liftM (expand c.function vs) : Action Account Sketch) s a := by
  obtain ⟨hs, hlit, hforms⟩ := literals_of_canonical
    (fun v hv => by
      obtain ⟨j, -, c, hc, hcanon, -⟩ := exists_of_forall₂_mem hpar.flip hv
      exact ⟨c, hc, hcanon⟩)
    (hpar.imp fun v j ⟨c, hc, _, hj⟩ => (by rw [hc]; exact hj : s.form? M v = some j))
  rcases distribution_cases hM ht.coherent hc hlit hforms with
    ⟨d, s', sk, hr, hlearns, hsk, hreads⟩ | ⟨f, f', s', hr, hlearns, hsk⟩
  · rw [hsk]
    exact .of_ok hr rfl (hlearns.grows ht.coherent)
      (ht.learns hlearns ((sameBindings_distribution c).of_run hr)) hreads
  · rw [hsk]
    refine .of_error hr rfl (hlearns.grows ht.coherent)
      (ht.learns hlearns ((sameBindings_distribution c).of_run hr)) ?_
    rw [run_distribution] at hr
    split at hr
    · cases hr
    · split at hr
      · next hget =>
          cases hr
          exact hF.getDistribution ht.coherent.world hc hlit hforms hget hsk
      · cases hr

variable [DecidableRel E] (hrefl : ∀ v, E v v)

include hrefl

theorem verify_mirrors {l : Label} {d : Distribution} {m : Mapping} {sk : Sketch} {cs : List Label}
    {cs' : List (Claim Referent)} {result : List Referent} (hd : d.Reads (M.form? s.world) sk)
    (hcs : claims l d m = .ok cs) (hmeans : List.Forall₂ (Label.Means (M.form? s.world)) cs cs')
    (hl : List.Forall₂ (Value.Means (M.form? s.world)) l.result result) :
    (verify M l d cs).Mirrors (Grows M) (TellsInOrder M I expand) F (fun _ _ _ => True)
      (Account.verify E result sk cs') s a := by
  have hretraces : Retraces d [] cs := retraces_of_claims hcs fun c hc v hv => by
    obtain ⟨c', -, hmc⟩ := exists_of_forall₂_mem hmeans.flip hc
    obtain ⟨r, -, hr⟩ := exists_of_forall₂_mem hmc.parameters.flip hv
    exact checkValue_of_means hr
  have hresults : List.Forall₂ (List.Forall₂ (Value.Means (M.form? s.world)))
      (cs.map (·.result)) (cs'.map (·.result)) :=
    List.forall₂_map_left_iff.2 (List.forall₂_map_right_iff.2 (hmeans.imp fun _ _ h => h.result))
  refine .congr_left (hretraces.run_verify l s) (Action.Mirrors.bind (Q := fun vs rs s' =>
    List.Forall₂ (Value.Means (M.form? s'.world)) vs rs) (.liftM ht ?_)
    fun vs rs s' a' hG ht' hvs => unifyValues_mirrors hM ht' hF.kind hrefl l
      (hl.imp fun _ _ => .mono hG.forms) hvs)
  unfold Walk.resolveResult Sketch.returned
  rcases Walk.resolveAll_fill (w := ⟨d, cs.map (·.result)⟩) hd hresults (fun _ _ => .object)
    hd.result with ⟨⟨e, hx⟩, hy⟩ | ⟨vs, rs, hx, hy, hvs⟩
  · rw [hx, hy]
    exact hF.kind rfl
  · rw [hx, hy]
    exact hvs

theorem alternative_mirrors {l : Label} {d : Distribution} {m : Mapping}
    {m' : Dictionary Referent} {sk : Sketch} {result : List Referent}
    (hm : m.Means (M.form? s.world) m') (hd : d.Reads (M.form? s.world) sk)
    (hl : List.Forall₂ (Value.Means (M.form? s.world)) l.result result) :
    (alternative M l d m).Mirrors (Grows M) (TellsInOrder M I expand) F
      (fun ls pls s' => List.Forall₂ (s'.Says M) ls pls) (Account.alternative E result sk m')
      s a := by
  have hclaims : Accords F (fun cs cs' => claims l d m = .ok cs ∧
      List.Forall₂ (Label.Means (M.form? s.world)) cs cs') (claims l d m)
      (sk.claims .object m'.get?) :=
    (accords_claimsFrom hF.kind hm (fun _ _ => .object) l (w := .start d) hd hd.steps rfl
      .nil).and_left fun _ h => h
  unfold alternative Account.alternative
  refine (Action.Mirrors.liftM ht (Q := fun cs cs' s' => claims l d m = .ok cs ∧
    List.Forall₂ (Label.Means (M.form? s.world)) cs cs') hclaims).bind
    fun cs cs' s₁ a₁ hG₁ ht₁ ⟨hcs, hmeans⟩ => ?_
  refine (verify_mirrors hM hF ht₁ hrefl (hd.mono hG₁.forms) hcs
    (hmeans.imp fun _ _ => .mono hG₁.forms) (hl.imp fun _ _ => .mono hG₁.forms)).bind
    fun _ _ s₂ a₂ hG₂ ht₂ _ => ?_
  exact groundLabels_mirrors hM ht₂ hF.kind l
    (hmeans.imp fun _ _ h => (h.mono hG₁.forms).mono hG₂.forms)

theorem alternatives_mirrors {p : Proof} {t : Thesis} (hp : p.Means (M.form? s.world) t) {c : Call}
    (hc : c.isPrimitive = false) (hfun : c.function = t.claim.function) {vs : List Json}
    (hpar : List.Forall₂ (s.Denotes M) c.parameters vs) :
    (alternatives M p c).Mirrors (Grows M) (TellsInOrder M I expand) F
      (fun as subss s' => List.Forall₂ (List.Forall₂ (s'.Says M)) as subss)
      (Account.alternatives expand E t vs) s a := by
  unfold alternatives Account.alternatives
  rw [← hfun]
  refine (distribution_mirrors hM hF ht hc hpar).bind fun d sk s₁ a₁ hG₁ ht₁ hd => ?_
  have hnames : Accords F (fun _ _ => True) (checkNames p d) (Account.checkNames t sk) := by
    have hempty : p.mappings.isEmpty = t.mappings.isEmpty := by
      rw [Bool.eq_iff_iff, List.isEmpty_iff_length_eq_zero, List.isEmpty_iff_length_eq_zero,
        hp.mappings.length_eq]
    unfold checkNames Account.checkNames
    rw [hd.names, hp.names, hempty]
    by_cases h : (t.mappings.isEmpty || decide (t.names = Keyed.names sk.names)) = true
    · simp only [if_pos h]
      trivial
    · simp only [if_neg h]
      exact hF.kind rfl
  refine (Action.Mirrors.liftM ht₁ (Q := fun _ _ _ => True) hnames).bind
    fun _ _ s₂ a₂ hG₂ ht₂ _ => ?_
  have hp₂ := (hp.mono hG₁.forms).mono hG₂.forms
  refine .mapM (R := fun m m' s => m.Means (M.form? s.world) m' ∧ d.Reads (M.form? s.world) sk ∧
      List.Forall₂ (Value.Means (M.form? s.world)) p.label.result t.claim.result)
    (fun _ _ _ _ hG ⟨hm, hd, hl⟩ =>
      ⟨hm.mono hG.forms, hd.mono hG.forms, hl.imp fun _ _ => .mono hG.forms⟩)
    (fun _ _ _ _ hG h => h.imp fun _ _ => hG.saying)
    (fun _ _ _ _ ht ⟨hm, hd, hl⟩ => alternative_mirrors hM hF ht hrefl hm hd hl) ht₂
    (hp₂.mappings.imp fun _ _ hm => ⟨hm, hd.mono hG₂.forms, hp₂.label.result⟩)

omit hrefl [DecidableRel E]

omit hM in
theorem addAlternatives_mirrors {l : Label} {pl : PortableLabel} (hl : s.Says M l pl)
    {as : List (List Label)} {subss : List (List PortableLabel)}
    (has : List.Forall₂ (List.Forall₂ (s.Says M)) as subss) :
    (addAlternatives l as).Mirrors (Grows M) (TellsInOrder M I expand) F (fun _ _ _ => True)
      (Account.add pl subss) s a := by
  have hall := List.rel_append (ht.alternativesOf hl) has
  have hgrows := grows_withEntry (M := M) s l
  have ht' := ht.withEntry hl
  have hcheck : checkDisjoint l (s.alternativesOf l ++ as) = .ok () ↔
      (a.alternativesOf pl ++ subss).Pairwise Apart :=
    checkDisjoint_ok_iff.trans (ht.pairwise_iff hall)
  have hadd := Account.run_add a pl subss
  have hrun := run_addAlternatives s l as
  by_cases h : (a.alternativesOf pl ++ subss).Pairwise Apart
  · rw [if_pos h] at hadd
    rw [hcheck.2 h] at hrun
    refine .of_ok hrun hadd ?_ (ht'.setAlternatives (hgrows.saying hl)
      (hall.imp fun _ _ h => h.imp fun _ _ => hgrows.saying)) trivial
    exact ⟨hgrows.forms, hgrows.canonicalOf, hgrows.settings⟩
  · rw [if_neg h] at hadd
    unfold checkDisjoint at hrun hcheck
    cases hd : disjointFrom ((s.alternativesOf l ++ as).foldl (fun n a => max n a.length) 0) 0
        (s.alternativesOf l ++ as) with
    | ok u => exact absurd (hcheck.1 (by rw [hd]; rfl)) h
    | error place =>
        rw [hd] at hrun
        exact .of_error hrun hadd hgrows ht' (hF.kind rfl)

theorem record_mirrors {l : Label} {c : Claim Referent} (call : Call) {vs : List Json}
    (hfun : call.function = c.function) (hpar : List.Forall₂ (s.Denotes M) call.parameters vs)
    (hl : List.Forall₂ (Value.Means (M.form? s.world)) l.result c.result)
    {as : Label → List (List Label)} {subss : PortableLabel → List (List PortableLabel)}
    (has : ∀ s' g pl, Grows M s s' → s'.Says M g pl →
      List.Forall₂ (List.Forall₂ (s'.Says M)) (as g) (subss pl)) :
    (record M l call as).Mirrors (Grows M) (TellsInOrder M I expand) F
      (fun g pl s' => s'.Says M g pl) (Account.record c vs subss) s a := by
  unfold record Account.record
  refine (groundValues_mirrors hM ht hF.kind l hl).bind fun rs js s₁ a₁ hG₁ ht₁ hrs => ?_
  have hsays : s₁.Says M ⟨call, rs⟩ ⟨c.function, vs, js⟩ :=
    ⟨hfun, hpar.imp fun _ _ => hG₁.denotes, hrs⟩
  refine (addAlternatives_mirrors hF ht₁ hsays (has s₁ _ _ hG₁ hsays)).bind
    fun _ _ s₂ a₂ hG₂ ht₂ _ => ?_
  have hsame : Grows M s₂ { s₂ with proved := s₂.proved ++ [⟨call, rs⟩] } :=
    grows_recording s₂ _ _
  refine .of_ok rfl rfl hsame ⟨⟨ht₂.coherent.recording _ _, ht₂.bindings,
    ht₂.entries.imp fun _ _ => hsame.lists, ?_⟩, ht₂.names, ht₂.distinct⟩
    (hsame.saying (hG₂.saying hsays))
  exact List.rel_append (ht₂.proved.imp fun _ _ => hsame.saying)
    (.cons (hsame.saying (hG₂.saying hsays)) .nil)

include hrefl

/-- A proof is expanded as the thesis that it stands for. -/
theorem expand_mirrors [DecidableRel E] {p : Proof} {t : Thesis}
    (hp : p.Means (M.form? s.world) t) :
    (Session.expand M p).Mirrors (Grows M) (TellsInOrder M I expand) F
      (fun l pl s' => s'.Says M l pl) (Account.expand expand E t) s a := by
  rw [expand_eq]
  unfold Account.expand
  refine (groundValues_mirrors hM ht hF.kind p.label hp.label.parameters).bind
    fun ps vs s₁ a₁ hG₁ ht₁ hps => ?_
  have hp₁ := hp.mono hG₁.forms
  have hprim : Call.isPrimitive ⟨p.label.call.function, ps⟩ = true ↔
      t.claim.function = Call.coinFunction := by
    rw [Call.isPrimitive_iff, ← hp.label.function]
  have hempty : p.mappings.isEmpty = t.mappings.isEmpty := by
    rw [Bool.eq_iff_iff, List.isEmpty_iff_length_eq_zero, List.isEmpty_iff_length_eq_zero,
      hp.mappings.length_eq]
  by_cases h : t.claim.function = Call.coinFunction
  · simp only [if_pos h, if_pos (hprim.2 h), hempty]
    cases t.mappings.isEmpty with
    | true =>
        simp only [Bool.not_true, Bool.false_eq_true, if_false]
        exact record_mirrors hM hF ht₁ ⟨p.label.call.function, ps⟩ hp.label.function hps
          hp₁.label.result fun s' g pl _ hg => .cons (.cons hg .nil) .nil
    | false =>
        simp only [Bool.not_false, if_true]
        exact .of_error rfl rfl (.refl s₁) ht₁ (hF.kind rfl)
  · have hprim' : Call.isPrimitive ⟨p.label.call.function, ps⟩ = false :=
      Bool.eq_false_iff.2 fun h' => h (hprim.1 h')
    simp only [if_neg h, hprim', Bool.false_eq_true, if_false]
    refine (alternatives_mirrors hM hF ht₁ hrefl hp₁ hprim' hp.label.function hps).bind
      fun as subss s₂ a₂ hG₂ ht₂ has => ?_
    exact record_mirrors hM hF ht₂ ⟨p.label.call.function, ps⟩ hp.label.function
      (hps.imp fun _ _ => hG₂.denotes)
      (hp₁.label.result.imp fun _ _ => .mono hG₂.forms)
      fun s' g pl hG _ => has.imp fun _ _ h => h.imp fun _ _ => hG.saying

end

end Session

end ChanceProof
