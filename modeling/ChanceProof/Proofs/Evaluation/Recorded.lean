import ChanceProof.Proofs.Evaluation.Disjoint
import ChanceProof.Proofs.Evaluation.Paths

/-!
# What a session has recorded

In every session that can be reached, the entries are sound: their labels are different and
canonical, the alternatives of a label read as execution paths of the sketch of its call that
return its result, and any two of them differ in a result (`Reachable.sound`). It does not matter
what was asked of the session on the way and how much of it failed.
-/

namespace ChanceProof.Session

variable {σ : Type}

def alternativesOf (s : Session σ) (l : Label) : List (List Label) :=
  ((s.entries.find? (·.label = l)).map (·.alternatives)).getD []

structure Records (M : Model σ) (expand : Expander) (E : Json → Json → Prop) (s : Session σ)
    (l : Label) (a : List Label) : Prop where
  canonical : ∀ g ∈ a, s.Canonical g
  path : ∃ pl sk subs rs, l.Reads (s.form? M) pl ∧ expand pl.function pl.parameters = .ok sk ∧
    List.Forall₂ (Label.Reads (s.form? M)) a subs ∧ sk.Path subs rs ∧
      List.Forall₂ (Alike E) pl.result rs

structure Recorded (M : Model σ) (expand : Expander) (E : Json → Json → Prop) (s : Session σ)
    (e : Entry) : Prop where
  label : s.Canonical e.label
  coin : e.label.isPrimitive = true → ∀ a ∈ e.alternatives, a = [e.label]
  paths : e.label.isPrimitive = false → ∀ a ∈ e.alternatives, s.Records M expand E e.label a
  disjoint : e.alternatives.Pairwise Differ

structure Sound (M : Model σ) (I : σ → Prop) (expand : Expander) (E : Json → Json → Prop)
    (s : Session σ) : Prop where
  coherent : s.Coherent M I expand
  recorded : ∀ e ∈ s.entries, s.Recorded M expand E e
  distinct : s.entries.Pairwise (·.label ≠ ·.label)

variable {M : Model σ} {I : σ → Prop} {expand : Expander} {E : Json → Json → Prop}

section Mono

variable {s s' : Session σ} (hc : ∀ c, s.IsCanonical c → s'.IsCanonical c)
  (hf : ∀ v j, s.form? M v = some j → s'.form? M v = some j)

include hc

theorem Canonical.mono {l : Label} (h : s.Canonical l) : s'.Canonical l := fun v hv => by
  obtain ⟨c, rfl, hcanon⟩ := h v hv
  exact ⟨c, rfl, hc c hcanon⟩

include hf

/-- Records need only canonical handles to stay canonical and forms to stay. -/
theorem Records.mono {l : Label} {a : List Label} (h : s.Records M expand E l a) :
    s'.Records M expand E l a := by
  have hreads : ∀ {l : Label} {pl : PortableLabel}, l.Reads (s.form? M) pl →
      l.Reads (s'.form? M) pl := fun h =>
    ⟨h.function, h.parameters.imp hf, h.result.imp hf⟩
  obtain ⟨pl, sk, subs, rs, hl, hsk, hsubs, hpath, hrs⟩ := h.path
  exact ⟨fun g hg => (h.canonical g hg).mono hc, pl, sk, subs, rs, hreads hl, hsk,
    hsubs.imp fun _ _ => hreads, hpath, hrs⟩

theorem Recorded.mono {e : Entry} (h : s.Recorded M expand E e) : s'.Recorded M expand E e :=
  ⟨h.label.mono hc, h.coin, fun hp a ha => (h.paths hp a ha).mono hc hf, h.disjoint⟩

end Mono

theorem Learns.sound {s s' : Session σ} (h : Learns M I expand s s')
    (hs : s.Sound M I expand E) : s'.Sound M I expand E := by
  refine ⟨h.coherent hs.coherent, fun e he => ?_, ?_⟩
  · rw [h.entries] at he
    exact (hs.recorded e he).mono (fun _ => h.isCanonical) fun _ _ => h.form? hs.coherent
  · rw [h.entries]
    exact hs.distinct

theorem Learns.alternativesOf {s s' : Session σ} (h : Learns M I expand s s') (l : Label) :
    s'.alternativesOf l = s.alternativesOf l := by
  rw [Session.alternativesOf, Session.alternativesOf, h.entries]

theorem Recorded.canonical_of_mem {s : Session σ} {e : Entry} (h : s.Recorded M expand E e)
    {a : List Label} (ha : a ∈ e.alternatives) {l : Label} (hl : l ∈ a) : s.Canonical l := by
  cases hp : e.label.isPrimitive with
  | true =>
      rw [h.coin hp a ha, List.mem_singleton] at hl
      rw [hl]
      exact h.label
  | false => exact (h.paths hp a ha).canonical l hl

theorem Sound.exists_alternatives {s : Session σ} (hs : s.Sound M I expand E) {e : Entry}
    (he : e ∈ s.entries) :
    ∃ subss, List.Forall₂ (List.Forall₂ (Label.Reads (s.form? M))) e.alternatives subss :=
  exists_forall₂ fun _ ha => exists_forall₂ fun _ hl =>
    hs.coherent.exists_reads ((hs.recorded e he).canonical_of_mem ha hl)

/-- The results of alternatives that differ say different things. -/
theorem results_ne_of_differ {s : Session σ} (hs : s.Coherent M I expand) {a b : List Label}
    (ha : ∀ l ∈ a, s.Canonical l) (hb : ∀ l ∈ b, s.Canonical l) {subs subs' : List PortableLabel}
    (hsubs : List.Forall₂ (Label.Reads (s.form? M)) a subs)
    (hsubs' : List.Forall₂ (Label.Reads (s.form? M)) b subs') (h : Differ a b) :
    subs.map (·.result) ≠ subs'.map (·.result) := by
  intro heq
  obtain ⟨i, l, m, hl, hm, hne⟩ := h
  obtain ⟨p, hp, hlp⟩ := forall₂_some_left hsubs hl
  obtain ⟨q, hq, hmq⟩ := forall₂_some_left hsubs' hm
  have hresult : p.result = q.result := by
    have hi := congrArg (·[i]?) heq
    simpa [hp, hq] using hi
  have hmp := hresult ▸ hmq.result
  refine hne (hs.literals_inj (fun v hv => ?_) (fun v hv => ?_) hlp.result hmp)
  · exact ha l (List.mem_of_getElem? hl) v (List.mem_append_right _ hv)
  · exact hb m (List.mem_of_getElem? hm) v (List.mem_append_right _ hv)

/-! ## Distributions -/

theorem run_distribution (M : Model σ) (s : Session σ) (c : Call) :
    (distribution M c).run s =
      match s.expansions.lookup c with
      | some e => (.ok e.distribution, { s with hits := s.hits + 1 })
      | none =>
        match (M.getDistribution c).run s.world with
        | (.error e, w) => (.error e, { s with world := w })
        | (.ok e, w) => (.ok e.distribution,
            { s with world := w, queries := s.queries + 1, seconds := s.seconds + e.seconds,
                     expansions := (c, e) :: s.expansions }) := by
  unfold distribution
  rw [Action.run_bind_of_ok (Action.run_get s)]
  cases s.expansions.lookup c with
  | some e => rfl
  | none =>
      simp only [Action.run_bind, run_ask]
      rcases (M.getDistribution c).run s.world with ⟨e | e, w⟩
      · rfl
      · rfl

section

variable (hM : M.Meets I expand E) {s : Session σ} (hs : s.Coherent M I expand) {c : Call}
  (hc : c.isPrimitive = false) {hs' : List Handle} {vs : List Json}
  (hpar : c.parameters = hs'.map .literal) (hforms : M.Forms s.world hs' vs)

include hM hs hc hpar hforms

/-- The distribution of a grounded call reads as the sketch of the call, and asking for it only
teaches the session something. -/
theorem distribution_cases :
    (∃ d s' sk, (distribution M c).run s = (.ok d, s') ∧ Learns M I expand s s' ∧
        expand c.function vs = .ok sk ∧ d.Reads (M.form? s'.world) sk) ∨
      ∃ f f' s', (distribution M c).run s = (.error f, s') ∧ Learns M I expand s s' ∧
        expand c.function vs = .error f' := by
  rw [run_distribution]
  have hlater := hM.getDistribution_later c s.world
  cases hknown : s.expansions.lookup c with
  | some e =>
      obtain ⟨ks, ws, sk, hks, hws, hsk, hreads⟩ := hs.expansions c e hknown hc
      rw [Call.handles_unique hks hpar] at hws
      rw [hws.unique hforms] at hsk
      refine .inl ⟨_, _, sk, rfl, ?_, hsk, hreads⟩
      exact ⟨fun h => ⟨h.world, h.known, h.forms, h.bindings, h.expansions⟩,
        fun h => ⟨h, fun _ _ h => h⟩, fun _ _ h => h, ⟨[], by simp⟩, rfl, rfl, rfl, id⟩
  | none =>
      rcases hM.getDistribution_cases hs.world hc hpar hforms with
        ⟨e, w, sk, hr, hsk, hreads⟩ | ⟨f, f', w, hr, hsk⟩
      · rw [hr] at hlater ⊢
        refine .inl ⟨_, _, sk, rfl, ?_, hsk, hreads⟩
        refine ⟨fun h => ?_, hlater, fun _ _ h => h, ⟨[], by simp⟩, rfl, rfl, rfl, id⟩
        have h' := h.later hlater
        refine ⟨h'.world, h'.known, h'.forms, h'.bindings, fun c' e' hlook hp => ?_⟩
        simp only [List.lookup_cons] at hlook
        split at hlook
        · next heq =>
            obtain rfl := beq_iff_eq.1 heq
            cases hlook
            exact ⟨hs', vs, sk, hpar, hforms.mono (hlater hs.world).2, hsk, hreads⟩
        · exact h'.expansions c' e' hlook hp
      · rw [hr] at hlater ⊢
        exact .inr ⟨f, f', _, rfl, ⟨fun h => h.later hlater, hlater, fun _ _ h => h,
          ⟨[], by simp⟩, rfl, rfl, rfl, id⟩, hsk⟩

theorem learns_distribution : Learns M I expand s ((distribution M c).run s).2 := by
  rcases distribution_cases hM hs hc hpar hforms with
    ⟨d, s₁, sk, hd, hlearns, -, -⟩ | ⟨f, f', s₁, hd, hlearns, -⟩
  · rw [hd]
    exact hlearns
  · rw [hd]
    exact hlearns

theorem learns_alternatives (p : Proof) :
    Learns M I expand s ((alternatives M p c).run s).2 := by
  have hlearns := learns_distribution hM hs hc hpar hforms
  unfold alternatives
  rw [Action.run_bind]
  rcases hd : (distribution M c).run s with ⟨f | d, s₁⟩ <;> rw [hd] at hlearns
  · exact hlearns
  · simp only
    rw [Action.run_bind, Action.run_liftM]
    cases checkNames p d with
    | error f => exact hlearns
    | ok _ => exact hlearns.trans (Action.Keeps.mapM p.mappings (keeps_alternative hM p.label d) s₁)

/-- The alternatives of a proof trace the execution paths of the sketch of its call. -/
theorem alternatives_ok {s' : Session σ} {p : Proof} {as : List (List Label)}
    (hr : (alternatives M p c).run s = (.ok as, s')) :
    ∃ sk, expand c.function vs = .ok sk ∧
      List.Forall₂ (fun m a => ∃ subs, s'.Traces M E p.label sk m a subs) p.mappings as := by
  obtain ⟨d, s₁, hd, hr⟩ := Action.run_bind_ok.1 hr
  obtain ⟨_, s₂, hnames, has⟩ := Action.run_bind_ok.1 hr
  obtain ⟨-, rfl⟩ := Action.run_liftM_ok.1 hnames
  rcases distribution_cases hM hs hc hpar hforms with
    ⟨d', s₁', sk, hd', hlearns, hsk, hreads⟩ | ⟨f, f', s₁', hd', -, -⟩
  · cases hd.symm.trans hd'
    exact ⟨sk, hsk, mapM_alternative_ok hM (hlearns.coherent hs) hreads has⟩
  · cases hd.symm.trans hd'

end

/-! ## Recording alternatives -/

def withEntry (s : Session σ) (l : Label) : Session σ :=
  if (s.number? l).isNone then { s with entries := s.entries ++ [⟨l, []⟩] } else s

def setAlternatives (s : Session σ) (l : Label) (as : List (List Label)) : Session σ :=
  { s with entries := s.entries.map fun e =>
      if e.label = l then { e with alternatives := as } else e }

theorem number?_isNone_iff {s : Session σ} {l : Label} :
    (s.number? l).isNone = true ↔ ∀ e ∈ s.entries, e.label ≠ l := by
  rw [number?, Option.isNone_iff_eq_none, List.findIdx?_eq_none_iff]
  simp

theorem alternativesOf_of_mem {s : Session σ} (hd : s.entries.Pairwise (·.label ≠ ·.label))
    {e : Entry} (he : e ∈ s.entries) : s.alternativesOf e.label = e.alternatives := by
  unfold alternativesOf
  generalize s.entries = es at hd he
  induction es with
  | nil => cases he
  | cons e₀ es ih =>
      obtain ⟨hhead, htail⟩ := List.pairwise_cons.1 hd
      rcases List.mem_cons.1 he with rfl | he
      · simp
      · rw [List.find?_cons_of_neg (by simpa using hhead e he)]
        exact ih htail he

theorem alternativesOf_of_not_mem {s : Session σ} {l : Label}
    (h : ∀ e ∈ s.entries, e.label ≠ l) : s.alternativesOf l = [] := by
  have hnone : s.entries.find? (·.label = l) = none := by
    rw [List.find?_eq_none]
    exact fun e he => by simpa using h e he
  rw [alternativesOf, hnone]
  rfl

/-- A new entry changes nothing but the entries. -/
theorem withEntry_eq (s : Session σ) (l : Label) :
    s.withEntry l = { s with entries := (s.withEntry l).entries } := by
  unfold withEntry
  split <;> rfl

theorem proved_setAlternatives_withEntry (s : Session σ) (l : Label) (as : List (List Label)) :
    ((s.withEntry l).setAlternatives l as).proved = s.proved := by
  rw [withEntry_eq]
  rfl

theorem mem_withEntry {s : Session σ} {l : Label} {e : Entry} (h : e ∈ (s.withEntry l).entries) :
    e ∈ s.entries ∨ e = ⟨l, []⟩ ∧ ∀ e' ∈ s.entries, e'.label ≠ l := by
  unfold withEntry at h
  split at h
  · next hnone =>
      rcases List.mem_append.1 h with h | h
      · exact .inl h
      · exact .inr ⟨List.mem_singleton.1 h, number?_isNone_iff.1 hnone⟩
  · exact .inl h

theorem alternativesOf_withEntry (s : Session σ) (l l' : Label) :
    (s.withEntry l).alternativesOf l' = s.alternativesOf l' := by
  unfold withEntry
  split
  · next hnone =>
      unfold alternativesOf
      simp only [List.find?_append]
      cases hfound : s.entries.find? (·.label = l') with
      | some e => rfl
      | none =>
          by_cases heq : l = l'
          · simp [heq]
          · simp [heq]
  · rfl

theorem exists_withEntry (s : Session σ) (l : Label) :
    ∃ e ∈ (s.withEntry l).entries, e.label = l := by
  unfold withEntry
  split
  · exact ⟨⟨l, []⟩, by simp, rfl⟩
  · next hsome =>
      rw [number?_isNone_iff] at hsome
      push Not at hsome
      exact hsome

theorem distinct_withEntry {s : Session σ} (hd : s.entries.Pairwise (·.label ≠ ·.label))
    (l : Label) : (s.withEntry l).entries.Pairwise (·.label ≠ ·.label) := by
  unfold withEntry
  split
  · next hnone =>
      refine List.pairwise_append.2 ⟨hd, List.pairwise_singleton _ _, fun e he e' he' => ?_⟩
      rw [List.mem_singleton.1 he']
      exact number?_isNone_iff.1 hnone e he
  · exact hd

theorem label_setAlternatives (l : Label) (as : List (List Label)) (e : Entry) :
    (if e.label = l then { e with alternatives := as } else e).label = e.label := by
  split <;> rfl

theorem labels_setAlternatives (s : Session σ) (l : Label) (as : List (List Label)) :
    (s.setAlternatives l as).labels = s.labels := by
  unfold labels setAlternatives
  rw [List.map_map]
  exact List.map_congr_left fun e _ => label_setAlternatives l as e

theorem distinct_setAlternatives {s : Session σ} (hd : s.entries.Pairwise (·.label ≠ ·.label))
    (l : Label) (as : List (List Label)) :
    (s.setAlternatives l as).entries.Pairwise (·.label ≠ ·.label) := by
  refine List.pairwise_map.2 (hd.imp fun hne => ?_)
  rwa [label_setAlternatives, label_setAlternatives]

theorem alternativesOf_setAlternatives (s : Session σ) (l l' : Label) (as : List (List Label))
    (h : ∃ e ∈ s.entries, e.label = l) :
    (s.setAlternatives l as).alternativesOf l' = if l' = l then as else s.alternativesOf l' := by
  obtain ⟨e, he, hel⟩ := h
  unfold alternativesOf setAlternatives
  simp only [List.find?_map, Function.comp_def, label_setAlternatives]
  cases hfound : s.entries.find? (·.label = l') with
  | none =>
      have hne : l' ≠ l := by
        rintro rfl
        exact absurd hel (by simpa using List.find?_eq_none.1 hfound e he)
      rw [if_neg hne]
      rfl
  | some e' =>
      have hl' : e'.label = l' := by simpa using List.find?_some hfound
      simp only [Option.map_some, Option.getD_some, hl']
      split <;> rfl

theorem run_addAlternatives (s : Session σ) (l : Label) (as : List (List Label)) :
    (addAlternatives l as).run s =
      match checkDisjoint l (s.alternativesOf l ++ as) with
      | .error f => (.error f, s.withEntry l)
      | .ok () => (.ok (), (s.withEntry l).setAlternatives l (s.alternativesOf l ++ as)) := by
  have hrecord : ∀ t : Session σ, (do
      let before := (((← get).entries.find? (·.label = l)).map (·.alternatives)).getD []
      checkDisjoint l (before ++ as)
      modify fun s => s.setAlternatives l (before ++ as) : Action (Session σ) Unit).run t =
        match checkDisjoint l (t.alternativesOf l ++ as) with
        | .error f => (.error f, t)
        | .ok () => (.ok (), t.setAlternatives l (t.alternativesOf l ++ as)) := by
    intro t
    rw [Action.run_bind_of_ok (Action.run_get t), Action.run_bind, Action.run_liftM]
    unfold alternativesOf
    cases checkDisjoint l
      (((t.entries.find? (·.label = l)).map (·.alternatives)).getD [] ++ as) <;> rfl
  rw [← alternativesOf_withEntry s l l]
  unfold addAlternatives withEntry
  rw [Action.run_bind_of_ok (Action.run_get s)]
  by_cases hnone : (s.number? l).isNone = true
  · simp only [if_pos hnone]
    exact hrecord _
  · simp only [if_neg hnone]
    exact hrecord _

/-- An alternative of a canonical label that may be recorded. -/
def Fits (M : Model σ) (expand : Expander) (E : Json → Json → Prop) (s : Session σ) (l : Label)
    (a : List Label) : Prop :=
  if l.isPrimitive then a = [l] else s.Records M expand E l a

theorem fits_coin {s : Session σ} {l : Label} {a : List Label} (h : l.isPrimitive = true) :
    s.Fits M expand E l a ↔ a = [l] := by
  rw [Fits, if_pos h]

theorem fits_call {s : Session σ} {l : Label} {a : List Label} (h : l.isPrimitive = false) :
    s.Fits M expand E l a ↔ s.Records M expand E l a := by
  rw [Fits, if_neg (by rw [h]; decide)]

theorem Fits.mono {s s' : Session σ} (hc : ∀ c, s.IsCanonical c → s'.IsCanonical c)
    (hf : ∀ v j, s.form? M v = some j → s'.form? M v = some j) {l : Label} {a : List Label}
    (h : s.Fits M expand E l a) : s'.Fits M expand E l a := by
  unfold Fits at h ⊢
  split
  · next hprim => rwa [if_pos hprim] at h
  · next hprim =>
      rw [if_neg hprim] at h
      exact h.mono hc hf

/-- An entry may be given more alternatives that fit, when they all differ. -/
theorem Recorded.append {s : Session σ} {e : Entry} (h : s.Recorded M expand E e)
    {as : List (List Label)} (has : ∀ a ∈ as, s.Fits M expand E e.label a)
    (hdiffer : (e.alternatives ++ as).Pairwise Differ) :
    s.Recorded M expand E { e with alternatives := e.alternatives ++ as } := by
  refine ⟨h.label, fun hp a ha => ?_, fun hp a ha => ?_, hdiffer⟩
  · rcases List.mem_append.1 ha with ha | ha
    · exact h.coin hp a ha
    · exact (fits_coin hp).1 (has a ha)
  · rcases List.mem_append.1 ha with ha | ha
    · exact h.paths hp a ha
    · exact (fits_call hp).1 (has a ha)

theorem Sound.withEntry {s : Session σ} (hs : s.Sound M I expand E) {l : Label}
    (hl : s.Canonical l) : (s.withEntry l).Sound M I expand E := by
  have hnew : s.Recorded M expand E ⟨l, []⟩ :=
    ⟨hl, fun _ _ h => (nomatch h), fun _ _ h => (nomatch h), .nil⟩
  have hrec : ∀ e ∈ (s.withEntry l).entries, s.Recorded M expand E e := by
    intro e he
    rcases mem_withEntry he with he | ⟨rfl, -⟩
    · exact hs.recorded e he
    · exact hnew
  have hdistinct := distinct_withEntry hs.distinct l
  rw [withEntry_eq]
  refine ⟨hs.coherent.recording _ _, fun e he => ?_, hdistinct⟩
  refine Recorded.mono ?_ ?_ (hrec e he)
  · exact fun _ h => h
  · exact fun _ _ h => h

/-- Recording alternatives that fit keeps a session sound, whether they turn out to be disjoint or
not. -/
theorem Sound.of_addAlternatives {s : Session σ} (hs : s.Sound M I expand E) {l : Label}
    (hl : s.Canonical l) {as : List (List Label)} (has : ∀ a ∈ as, s.Fits M expand E l a) :
    ((addAlternatives l as).run s).2.Sound M I expand E := by
  have hentry := hs.withEntry hl
  have hfits : ∀ a ∈ as, (s.withEntry l).Fits M expand E l a := by
    rw [withEntry_eq]
    intro a ha
    refine Fits.mono ?_ ?_ (has a ha)
    · exact fun _ h => h
    · exact fun _ _ h => h
  rw [run_addAlternatives]
  split
  · exact hentry
  · next hok =>
      refine ⟨hentry.coherent.recording _ _, fun e he => ?_,
        distinct_setAlternatives hentry.distinct l _⟩
      obtain ⟨e₀, he₀, rfl⟩ := List.mem_map.1 he
      have hrec := hentry.recorded e₀ he₀
      -- Only the entries have changed.
      refine Recorded.mono (s := s.withEntry l) ?_ ?_ ?_
      · exact fun _ h => h
      · exact fun _ _ h => h
      split
      · next heq =>
          subst heq
          have hbefore : s.alternativesOf e₀.label = e₀.alternatives := by
            rw [← alternativesOf_withEntry s e₀.label e₀.label]
            exact alternativesOf_of_mem hentry.distinct he₀
          have hdiffer := checkDisjoint_ok_iff.1 hok
          rw [hbefore] at hdiffer ⊢
          exact hrec.append hfits hdiffer
      · exact hrec

/-! ## Expanding a proof -/

/-- The end of an expansion: ground the result of a proof's label and record alternatives. -/
def record (M : Model σ) (l : Label) (c : Call) (as : Label → List (List Label)) :
    Action (Session σ) Label := do
  let grounded : Label := ⟨c, ← groundValues M l l.result⟩
  addAlternatives grounded (as grounded)
  modify fun s => { s with proved := s.proved ++ [grounded] }
  return grounded

theorem expand_eq (M : Model σ) (p : Proof) :
    Session.expand M p = (do
      let ps ← groundValues M p.label p.label.call.parameters
      let c : Call := ⟨p.label.call.function, ps⟩
      if c.isPrimitive then
        if !p.mappings.isEmpty then throw (ProofDefect.mappedCoin.failure p.label)
        record M p.label c fun grounded => [[grounded]]
      else
        let as ← alternatives M p c
        record M p.label c fun _ => as) := rfl

/-- What recording does once the result of the label is grounded. -/
theorem run_record {s s₁ : Session σ} {l : Label} {rs : List Value}
    (hrs : (groundValues M l l.result).run s = (.ok rs, s₁)) (c : Call)
    (as : Label → List (List Label)) :
    (record M l c as).run s =
      match checkDisjoint ⟨c, rs⟩ (s₁.alternativesOf ⟨c, rs⟩ ++ as ⟨c, rs⟩) with
      | .error f => (.error f, s₁.withEntry ⟨c, rs⟩)
      | .ok () => (.ok ⟨c, rs⟩, { (s₁.withEntry ⟨c, rs⟩).setAlternatives ⟨c, rs⟩
          (s₁.alternativesOf ⟨c, rs⟩ ++ as ⟨c, rs⟩) with proved := s₁.proved ++ [⟨c, rs⟩] }) := by
  have hadd := run_addAlternatives s₁ ⟨c, rs⟩ (as ⟨c, rs⟩)
  unfold record
  rw [Action.run_bind_of_ok hrs]
  cases hcheck : checkDisjoint ⟨c, rs⟩ (s₁.alternativesOf ⟨c, rs⟩ ++ as ⟨c, rs⟩) with
  | error f =>
      rw [hcheck] at hadd
      exact Action.run_bind_of_error hadd
  | ok _ =>
      rw [hcheck] at hadd
      rw [Action.run_bind_of_ok hadd, Action.run_bind_of_ok (Action.run_modify _ _),
        proved_setAlternatives_withEntry]
      rfl

/-- The parts of recording that succeeds. -/
theorem record_parts {s s' : Session σ} {l g : Label} {c : Call} {as : Label → List (List Label)}
    (hr : (record M l c as).run s = (.ok g, s')) :
    ∃ rs s₁, (groundValues M l l.result).run s = (.ok rs, s₁) ∧ g = ⟨c, rs⟩ ∧
      s' = { (s₁.withEntry g).setAlternatives g (s₁.alternativesOf g ++ as g) with
        proved := s₁.proved ++ [g] } := by
  obtain ⟨rs, s₁, hrs, -⟩ := Action.run_bind_ok.1 hr
  rw [run_record hrs] at hr
  split at hr
  · cases hr
  · cases hr
    exact ⟨rs, s₁, hrs, rfl, rfl⟩

/-- Recording that succeeds adds the alternatives behind those of the grounded label, and changes
nothing else that can be read. -/
theorem record_ok {s s' : Session σ} {l g : Label} {c : Call} {as : Label → List (List Label)}
    (hr : (record M l c as).run s = (.ok g, s')) :
    ∃ rs s₁, (groundValues M l l.result).run s = (.ok rs, s₁) ∧ g = ⟨c, rs⟩ ∧
      (∀ v, s'.form? M v = s₁.form? M v) ∧ (∀ c, s₁.IsCanonical c → s'.IsCanonical c) ∧
      ∀ l', s'.alternativesOf l'
        = if l' = g then s₁.alternativesOf g ++ as g else s₁.alternativesOf l' := by
  obtain ⟨rs, s₁, hrs, hg, rfl⟩ := record_parts hr
  refine ⟨rs, s₁, hrs, hg, fun v => ?_, fun c hc => ?_, fun l' => ?_⟩
  · rw [withEntry_eq]
    rfl
  · rw [withEntry_eq]
    exact hc
  · refine (alternativesOf_setAlternatives _ _ l' _ (exists_withEntry s₁ _)).trans ?_
    rw [alternativesOf_withEntry]

/-- What a mapping yielded may be recorded for the grounded label. -/
theorem Traces.records {s : Session σ} {l : Label} {sk : Sketch} {m : Mapping} {a : List Label}
    {subs : List PortableLabel} (h : s.Traces M E l sk m a subs) {g : Label} {pl : PortableLabel}
    (hg : g.Reads (s.form? M) pl) (hsk : expand pl.function pl.parameters = .ok sk)
    (hl : List.Forall₂ (fun v j => s.form? M v = some j) l.result pl.result) :
    s.Records M expand E g a := by
  obtain ⟨rs, hpath, hrs⟩ := h.path hl
  exact ⟨h.canonical, pl, sk, subs, rs, hg, hsk, h.reads, hpath, hrs⟩

/-- The literals of canonical values, with their forms. -/
theorem literals_of_canonical {s : Session σ} {vs : List Value} {js : List Json}
    (hc : ∀ v ∈ vs, ∃ c, v = .literal c ∧ s.IsCanonical c)
    (hf : List.Forall₂ (fun v j => s.form? M v = some j) vs js) :
    ∃ hs, vs = hs.map .literal ∧ M.Forms s.world hs js := by
  induction hf with
  | nil => exact ⟨[], rfl, .nil⟩
  | cons hv _ ih =>
      obtain ⟨c, rfl, -⟩ := hc _ List.mem_cons_self
      obtain ⟨hs, rfl, hforms⟩ := ih fun v hv => hc v (List.mem_cons_of_mem _ hv)
      exact ⟨c :: hs, rfl, .cons hv hforms⟩

variable (hM : M.Meets I expand E)

include hM

theorem Sound.of_record {s : Session σ} (hs : s.Sound M I expand E) {l : Label} {c : Call}
    {as : Label → List (List Label)}
    (hc : ∀ v ∈ c.parameters, ∃ h, v = .literal h ∧ s.IsCanonical h)
    (has : ∀ rs s', (groundValues M l l.result).run s = (.ok rs, s') → ∀ a ∈ as ⟨c, rs⟩,
      s'.Fits M expand E ⟨c, rs⟩ a) :
    ((Session.record M l c as).run s).2.Sound M I expand E := by
  unfold Session.record
  have hlearns := keeps_groundValues hM l l.result s
  rw [Action.run_bind]
  rcases hrs : (groundValues M l l.result).run s with ⟨f | rs, s₁⟩ <;> rw [hrs] at hlearns
  · exact hlearns.sound hs
  obtain ⟨hcanon, -⟩ := groundValues_ok hM hs.coherent hrs
  have hlabel : s₁.Canonical ⟨c, rs⟩ := fun v hv => by
    rcases List.mem_append.1 hv with hv | hv
    · obtain ⟨h, rfl, hh⟩ := hc v hv
      exact ⟨h, rfl, hlearns.isCanonical hh⟩
    · exact hcanon v hv
  have hadd := (hlearns.sound hs).of_addAlternatives hlabel (has rs s₁ hrs)
  simp only [Action.run_bind]
  rcases hr : (addAlternatives ⟨c, rs⟩ (as ⟨c, rs⟩)).run s₁ with ⟨f | _, s₂⟩ <;> rw [hr] at hadd
  · exact hadd
  refine ⟨hadd.coherent.recording _ _, fun e he => ?_, hadd.distinct⟩
  refine Recorded.mono ?_ ?_ (hadd.recorded e he)
  · exact fun _ h => h
  · exact fun _ _ h => h

/-- Whatever becomes of a proof, the session stays sound. -/
theorem Sound.of_expand {s : Session σ} (hs : s.Sound M I expand E) (p : Proof) :
    ((Session.expand M p).run s).2.Sound M I expand E := by
  have hlearns := keeps_groundValues hM p.label p.label.call.parameters s
  rw [expand_eq, Action.run_bind]
  rcases hps : (groundValues M p.label p.label.call.parameters).run s with ⟨f | ps, s₁⟩ <;>
    rw [hps] at hlearns
  · exact hlearns.sound hs
  have hs₁ := hlearns.sound hs
  obtain ⟨hpc, args, -, hargs⟩ := groundValues_ok hM hs.coherent hps
  simp only
  split
  · next hprim =>
      split
      · exact hs₁
      · refine hs₁.of_record hM hpc fun rs s' _ a ha => ?_
        exact (fits_coin (l := ⟨⟨p.label.call.function, ps⟩, rs⟩) hprim).2 (List.mem_singleton.1 ha)
  · next hprim =>
      have hprim' := Bool.eq_false_iff.2 hprim
      obtain ⟨hs', hpar, hforms⟩ := literals_of_canonical hpc hargs
      have hlearns₂ := learns_alternatives hM hs₁.coherent hprim' hpar hforms p
      rw [Action.run_bind]
      rcases has : (alternatives M p ⟨p.label.call.function, ps⟩).run s₁ with ⟨f | as, s₂⟩ <;>
        rw [has] at hlearns₂
      · exact hlearns₂.sound hs₁
      have hs₂ := hlearns₂.sound hs₁
      obtain ⟨sk, hsk, htraces⟩ := alternatives_ok hM hs₁.coherent hprim' hpar hforms has
      refine hs₂.of_record hM (fun v hv => ?_) fun rs s' hrs a ha => ?_
      · obtain ⟨c, rfl, hc⟩ := hpc v hv
        exact ⟨c, rfl, hlearns₂.isCanonical hc⟩
      · have hlearns₃ := (keeps_groundValues hM p.label p.label.result).of_run hrs
        obtain ⟨-, js, hjs, hjs'⟩ := groundValues_ok hM hs₂.coherent hrs
        obtain ⟨m, -, subs, ht⟩ := exists_of_forall₂_mem htraces ha
        rw [fits_call (l := ⟨⟨p.label.call.function, ps⟩, rs⟩) hprim']
        have hargs' := (hlearns₂.trans hlearns₃).forms? hs₁.coherent hargs
        have hreads : Label.Reads (s'.form? M) ⟨⟨p.label.call.function, ps⟩, rs⟩
            ⟨p.label.call.function, args, js⟩ := ⟨rfl, hargs', hjs'⟩
        exact (hlearns₃.traces hs₂.coherent ht).records hreads hsk hjs

/-- The parts of an accepted proof: its parameters are grounded, the alternatives are found, which
for a coin is the label itself, and the label is recorded with them. -/
theorem expand_parts {s s' : Session σ} (hs : s.Coherent M I expand) {p : Proof} {l : Label}
    (hr : (Session.expand M p).run s = (.ok l, s')) :
    ∃ ps s₁ s₂ as, (groundValues M p.label p.label.call.parameters).run s = (.ok ps, s₁) ∧
      Learns M I expand s₁ s₂ ∧
      (record M p.label ⟨p.label.call.function, ps⟩ as).run s₂ = (.ok l, s') ∧
      (p.label.isPrimitive = true ∧ p.mappings = [] ∧ s₂ = s₁ ∧ (as = fun g => [[g]]) ∨
        p.label.isPrimitive = false ∧ ∃ found,
          (alternatives M p ⟨p.label.call.function, ps⟩).run s₁ = (.ok found, s₂) ∧
          as = fun _ => found) := by
  rw [expand_eq] at hr
  obtain ⟨ps, s₁, hps, hr⟩ := Action.run_bind_ok.1 hr
  simp only at hr
  split at hr
  · next hprim =>
      split at hr
      · obtain ⟨_, _, hthrow, -⟩ := Action.run_bind_ok.1 hr
        exact (Action.run_throw_ok hthrow).elim
      · next hempty =>
          have hnil : p.mappings = [] := by simpa using hempty
          exact ⟨ps, s₁, s₁, _, hps, .refl s₁, hr, .inl ⟨hprim, hnil, rfl, rfl⟩⟩
  · next hprim =>
      have hprim' := Bool.eq_false_iff.2 hprim
      obtain ⟨hpc, args, -, hargs⟩ := groundValues_ok hM hs hps
      obtain ⟨hs', hpar, hforms⟩ := literals_of_canonical hpc hargs
      have hs₁ := ((keeps_groundValues hM p.label _).of_run hps).coherent hs
      have hlearns := learns_alternatives hM hs₁ hprim' hpar hforms p
      obtain ⟨found, s₂, hfound, hr⟩ := Action.run_bind_ok.1 hr
      rw [hfound] at hlearns
      exact ⟨ps, s₁, s₂, _, hps, hlearns, hr, .inr ⟨hprim', found, hfound, rfl⟩⟩

/-- An accepted proof of a call that is no coin: its label is grounded and reads as the proof's
label does, and each mapping has become one path of the call's sketch, behind what was recorded
before. -/
theorem expand_ok {s s' : Session σ} (hs : s.Sound M I expand E) {p : Proof} {l : Label}
    (hp : p.label.isPrimitive = false) (hr : (Session.expand M p).run s = (.ok l, s')) :
    s'.Canonical l ∧ (∀ l' ≠ l, s'.alternativesOf l' = s.alternativesOf l') ∧
      ∃ pl sk added, l.Reads (s'.form? M) pl ∧ p.label.Reads (s'.form? M) pl ∧
        expand pl.function pl.parameters = .ok sk ∧
        s'.alternativesOf l = s.alternativesOf l ++ added ∧
        List.Forall₂ (fun m a => ∃ subs rs, List.Forall₂ (Label.Reads (s'.form? M)) a subs ∧
          sk.Path subs rs ∧ List.Forall₂ (Alike E) pl.result rs ∧
          List.Forall₂ (s'.Maps M m) sk.steps subs) p.mappings added := by
  obtain ⟨ps, s₁, s₂, _, hps, hlearns₂, hr, ⟨hcoin, -⟩ | ⟨-, as, has, rfl⟩⟩ :=
    expand_parts hM hs.coherent hr
  · rw [hp] at hcoin
    cases hcoin
  obtain ⟨rs, s₃, hrs, rfl, hform, hcanon, halts⟩ := record_ok hr
  have hlearns₁ := (keeps_groundValues hM p.label _).of_run hps
  have hs₁ := hlearns₁.sound hs
  obtain ⟨hpc, args, hpargs, hargs⟩ := groundValues_ok hM hs.coherent hps
  obtain ⟨hs', hpar, hforms⟩ := literals_of_canonical hpc hargs
  obtain ⟨sk, hsk, htraces⟩ := alternatives_ok hM (c := ⟨p.label.call.function, ps⟩)
    hs₁.coherent hp hpar hforms has
  have hs₂ := hlearns₂.sound hs₁
  have hlearns₃ := (keeps_groundValues hM p.label _).of_run hrs
  have hlearns₁₃ := hlearns₂.trans hlearns₃
  have hlearns₀₃ := hlearns₁.trans hlearns₁₃
  obtain ⟨hrc, js, hjs, hjs'⟩ := groundValues_ok hM hs₂.coherent hrs
  have hforms' : ∀ {vs : List Value} {js : List Json},
      List.Forall₂ (fun v j => s₃.form? M v = some j) vs js →
      List.Forall₂ (fun v j => s'.form? M v = some j) vs js :=
    fun h => h.imp fun v _ hv => (hform v).trans hv
  refine ⟨Canonical.mono hcanon fun v hv => ?_, fun l' hl' => ?_,
    ⟨p.label.call.function, args, js⟩, sk, as, ?_, ?_, hsk, ?_, ?_⟩
  · rcases List.mem_append.1 hv with hv | hv
    · obtain ⟨c, rfl, hc⟩ := hpc v hv
      exact ⟨c, rfl, hlearns₁₃.isCanonical hc⟩
    · exact hrc v hv
  · rw [halts, if_neg hl', hlearns₀₃.alternativesOf]
  · exact ⟨rfl, hforms' (hlearns₁₃.forms? hs₁.coherent hargs), hforms' hjs'⟩
  · exact ⟨rfl, hforms' (hlearns₁₃.forms? hs₁.coherent hpargs), hforms' hjs⟩
  · rw [halts, if_pos rfl, hlearns₀₃.alternativesOf]
  · refine htraces.imp fun m a ⟨subs, ht⟩ => ?_
    have ht₃ := hlearns₃.traces hs₂.coherent ht
    obtain ⟨rs', hpath, halike⟩ := ht₃.path hjs
    refine ⟨subs, rs', ht₃.reads.imp fun _ _ h => ⟨h.function, hforms' h.parameters,
      hforms' h.result⟩, hpath, halike, ht₃.maps.imp fun _ _ h => h.imp ?_⟩
    rintro name j ⟨v, hv, hj⟩
    exact ⟨v, hv, (hform v).trans hj⟩

omit hM

/-! ## Sessions that can be reached -/

/-- The sessions that proofs and questions lead to, whether they succeed or fail. -/
inductive Reachable (M : Model σ) (I : σ → Prop) : Session σ → Prop
  | start (settings : Settings) {w : σ} (hw : I w) : Reachable M I (start settings w)
  | unify {s : Session σ} (h : Reachable M I s) (l : Label) (p m : Value) :
    Reachable M I ((Session.unify M l p m).run s).2
  | unifyCalls {s : Session σ} (h : Reachable M I s) (l : Label) (p m : Call) :
    Reachable M I ((Session.unifyCalls M l p m).run s).2
  | verify {s : Session σ} (h : Reachable M I s) (l : Label) (d : Distribution)
    (claims : List Label) : Reachable M I ((Session.verify M l d claims).run s).2
  | expand {s : Session σ} (h : Reachable M I s) (p : Proof) :
    Reachable M I ((Session.expand M p).run s).2

/-- Every session that can be reached is sound. -/
theorem Reachable.sound (hM : M.Meets I expand E) {s : Session σ} (h : Reachable M I s) :
    s.Sound M I expand E := by
  induction h with
  | start settings hw =>
      exact ⟨coherent_start settings hw, fun _ h => (nomatch h), .nil⟩
  | unify _ l p m ih => exact (keeps_unify hM l p m _).sound ih
  | unifyCalls _ l p m ih => exact (keeps_unifyCalls hM l p m _).sound ih
  | verify _ l d claims ih => exact (keeps_verify hM l d claims _).sound ih
  | expand _ p ih => exact ih.of_expand hM p

end ChanceProof.Session
