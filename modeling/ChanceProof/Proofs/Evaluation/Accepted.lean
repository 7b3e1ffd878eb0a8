import ChanceProof.Proofs.Evaluation.Recorded
import ChanceProof.Proofs.Evaluation.Retraced
import ChanceProof.Proofs.Model.Library

/-!
# Proofs that describe paths are accepted

A proof without unknowns whose mappings describe different execution paths of its call is expanded
without a failure. Its claims are the calls of the distribution with the results filled in, so that
each of them is unified with itself; only the comparison of the final results asks the model.

Together with what an accepted proof records this says exactly what expansion does:
`expand_records_paths`.
-/

namespace ChanceProof

/-- The results of two executions differ at a step that both have. -/
def Apart (a b : List PortableLabel) : Prop :=
  ∃ (i : Nat) (r t : List Json), (a.map (·.result))[i]? = some r ∧
    (b.map (·.result))[i]? = some t ∧ r ≠ t

theorem differ_of_apart {ψ : Value → Option Json} {a b : List Label}
    {subs subs' : List PortableLabel} (ha : List.Forall₂ (Label.Reads ψ) a subs)
    (hb : List.Forall₂ (Label.Reads ψ) b subs')
    (h : Apart subs subs') : Differ a b := by
  obtain ⟨i, r, t, hr, ht, hne⟩ := h
  rw [List.getElem?_map, Option.map_eq_some_iff] at hr ht
  obtain ⟨p, hp, rfl⟩ := hr
  obtain ⟨q, hq, rfl⟩ := ht
  obtain ⟨l, hl, hlr⟩ := forall₂_some_left ha.flip hp
  obtain ⟨m, hm, hmr⟩ := forall₂_some_left hb.flip hq
  refine ⟨i, l, m, hl, hm, fun heq => hne ?_⟩
  have hlr' := hlr.result
  have hmr' := hmr.result
  rw [heq] at hlr'
  generalize m.result = vs at hlr' hmr'
  clear heq hne hl hm hlr hmr hp hq ha hb
  generalize p.result = rs at hlr'
  generalize q.result = ts at hmr'
  induction hlr' generalizing ts with
  | nil =>
      cases hmr'
      rfl
  | cons hv _ ih =>
      cases hmr' with
      | cons hw hws => rw [Option.some.inj (hv.symm.trans hw), ih _ hws]

namespace Session

variable {σ : Type} {M : Model σ} {I : σ → Prop} {expand : Expander} {E : Json → Json → Prop}

/-! ## Everything that is asked has an answer -/

theorem mapped_answers {ψ : Value → Option Json} {l : Label} {m : Mapping} {names : List String}
    {js : List Json}
    (h : List.Forall₂ (fun name j => ∃ v, m.get? name = some v ∧ ψ v = some j) names js) :
    ∃ vs, names.mapM (mapped l m) = .ok vs ∧ List.Forall₂ (fun v j => ψ v = some j) vs js := by
  induction h with
  | nil => exact ⟨[], rfl, .nil⟩
  | cons hv _ ih =>
      obtain ⟨v, hget, hform⟩ := hv
      obtain ⟨vs, hvs, hforms⟩ := ih
      refine ⟨v :: vs, ?_, .cons hform hforms⟩
      rw [List.mapM_cons, mapped, hget, hvs]
      rfl

/-- A mapping that names the results of a path yields claims that read as the path. -/
theorem claimsFrom_answers {φ : Handle → Option Json} {ψ : Value → Option Json}
    (hle : ∀ h v, φ h = some v → ψ (.literal h) = some v) {l : Label} {m : Mapping} {w : Walk}
    {sk : Sketch} {as : List Assignment} {steps : List Step} {subs : List PortableLabel}
    {results : List (List Json)} (hd : w.distribution.Reads φ sk)
    (has : List.Forall₂ (Assignment.Reads φ) as steps) (hw : w.Binds ψ results)
    (hnext : w.distribution.assignments.drop w.results.length = as)
    (hf : sk.Follows results steps subs)
    (hm : List.Forall₂ (fun st sub =>
      List.Forall₂ (fun name j => ∃ v, m.get? name = some v ∧ ψ v = some j) st.names sub.result)
      steps subs) :
    ∃ cs, claimsFrom l m w as = .ok cs ∧ List.Forall₂ (Label.Reads ψ) cs subs := by
  induction has generalizing w subs results with
  | nil =>
      cases hm
      exact ⟨[], rfl, .nil⟩
  | @cons a st as steps hast _ ih =>
      cases hm with
      | @cons _ sub _ subs hnames hm =>
          obtain ⟨hfun, hpar, hlen, hf⟩ := hf
          rw [← hast.names] at hnames
          obtain ⟨vs, hvs, hforms⟩ := mapped_answers (l := l) hnames
          have hresolve : ∃ ps, a.call.parameters.mapM w.resolve = .ok ps ∧
              List.Forall₂ (fun v j => ψ v = some j) ps sub.parameters := by
            rcases Walk.resolveAll_reads hd hw hle hast.parameters with
              ⟨-, hnone⟩ | ⟨ps, js, hps, hjs, hpsf⟩
            · exact nomatch hnone.symm.trans hpar
            · cases hjs.symm.trans hpar
              exact ⟨ps, hps, hpsf⟩
          obtain ⟨ps, hps, hpsf⟩ := hresolve
          have hcur : w.next? = some a := by
            rw [Walk.next?, ← List.head?_drop, hnext, List.head?_cons]
          have hbind : w.bind vs = .ok { w with results := w.results ++ [vs] } := by
            refine Walk.bind_eq_ok_iff.2 ⟨⟨a, hcur, ?_⟩, rfl⟩
            rw [hforms.length_eq, hlen, hast.names]
          obtain ⟨cs, hcs, hread⟩ := ih (w := { w with results := w.results ++ [vs] }) hd
            (List.rel_append hw (.cons hforms .nil))
            (by simp only [List.length_append, List.length_singleton]
                rw [← List.tail_drop, hnext, List.tail_cons]) hf hm
          refine ⟨⟨⟨a.call.function, ps⟩, vs⟩ :: cs, ?_,
            .cons ⟨hast.function.trans hfun.symm, hpsf, hforms⟩ hread⟩
          rw [claimsFrom]
          refine bind_eq_ok_iff.2 ⟨⟨a.call.function, ps⟩,
            mapError_ok.2 (bind_eq_ok_iff.2 ⟨ps, hps, rfl⟩), bind_eq_ok_iff.2 ⟨vs, hvs, ?_⟩⟩
          exact bind_eq_ok_iff.2 ⟨_, mapError_ok.2 hbind, bind_eq_ok_iff.2 ⟨cs, hcs, rfl⟩⟩

theorem groundValues_answers (hM : M.Meets I expand E) {s : Session σ} {l : Label}
    {vs : List Value} {js : List Json} (hs : s.Coherent M I expand)
    (h : List.Forall₂ (fun v j => literalForm? (M.form? s.world) v = some j) vs js) :
    ∃ vs' s', (groundValues M l vs).run s = (.ok vs', s') := by
  induction vs generalizing s js with
  | nil => exact ⟨[], s, rfl⟩
  | cons v vs ih =>
      obtain ⟨j, js, hv, hvs, rfl⟩ := List.forall₂_cons_left_iff.1 h
      obtain ⟨a, rfl, hj⟩ := literal_of_literalForm? hv
      obtain ⟨c, s₁, hc⟩ := canonical_answers hj
      have hone : (groundValue M l (.literal a)).run s = (.ok (.literal c), s₁) := by
        unfold groundValue
        rw [Action.run_bind_of_ok (Action.run_get s)]
        simp only [resolve_literal]
        rw [Action.run_bind_of_ok hc]
        rfl
      have hlearns := (keeps_groundValue hM l _).of_run hone
      obtain ⟨vs', s', hrest⟩ := ih (hlearns.coherent hs) (hvs.imp fun v j h => by
        obtain ⟨b, rfl, hb⟩ := literal_of_literalForm? h
        exact hlearns.world_form hs b j hb)
      exact ⟨_, s', Action.run_mapM_cons_ok.2 ⟨_, s₁, vs', hone, hrest, rfl⟩⟩

theorem Learns.literalForms {s s' : Session σ} (h : Learns M I expand s s')
    (hs : s.Coherent M I expand) {vs : List Value} {js : List Json}
    (hvs : List.Forall₂ (fun v j => literalForm? (M.form? s.world) v = some j) vs js) :
    List.Forall₂ (fun v j => literalForm? (M.form? s'.world) v = some j) vs js :=
  hvs.imp fun v j hv => by
    obtain ⟨a, rfl, ha⟩ := literal_of_literalForm? hv
    exact h.world_form hs a j ha

theorem groundLabels_answers (hM : M.Meets I expand E) {s : Session σ} {l : Label}
    {cs : List Label} {subs : List PortableLabel} (hs : s.Coherent M I expand)
    (h : List.Forall₂ (Label.Reads (literalForm? (M.form? s.world))) cs subs) :
    ∃ gs s', (cs.mapM (groundLabel M l)).run s = (.ok gs, s') := by
  induction cs generalizing s subs with
  | nil => exact ⟨[], s, rfl⟩
  | cons c cs ih =>
      obtain ⟨sub, subs, hc, hcs, rfl⟩ := List.forall₂_cons_left_iff.1 h
      obtain ⟨ps, s₁, hps⟩ := groundValues_answers hM (l := l) hs hc.parameters
      have hlearns₁ := (keeps_groundValues hM l _).of_run hps
      have hs₁ := hlearns₁.coherent hs
      obtain ⟨rs, s₂, hrs⟩ := groundValues_answers hM (l := l) hs₁
        (hlearns₁.literalForms hs hc.result)
      have hone : (groundLabel M l c).run s = (.ok ⟨⟨c.call.function, ps⟩, rs⟩, s₂) := by
        unfold groundLabel
        rw [Action.run_bind_of_ok hps, Action.run_bind_of_ok hrs]
        rfl
      have hlearns := (keeps_groundLabel hM l c).of_run hone
      obtain ⟨gs, s', hgs⟩ := ih (hlearns.coherent hs) (hcs.imp fun _ _ h =>
        ⟨h.function, hlearns.literalForms hs h.parameters, hlearns.literalForms hs h.result⟩)
      exact ⟨_, s', Action.run_mapM_cons_ok.2 ⟨_, s₂, gs, hone, hgs, rfl⟩⟩

theorem unifyEach_answers (hM : M.Meets I expand E) (hrefl : ∀ v, E v v) {s : Session σ} {l : Label}
    {ps ms : List Value} {js : List Json} (hs : s.Coherent M I expand)
    (hps : List.Forall₂ (fun v j => literalForm? (M.form? s.world) v = some j) ps js)
    (hms : List.Forall₂ (fun v j => literalForm? (M.form? s.world) v = some j) ms js) :
    ∃ s', (unifyEach M l ps ms).run s = (.ok (), s') := by
  induction ps generalizing s ms js with
  | nil => exact ⟨s, rfl⟩
  | cons p ps ih =>
      obtain ⟨j, js, hp, hps', rfl⟩ := List.forall₂_cons_left_iff.1 hps
      cases hms with
      | @cons m _ ms _ hm hms =>
          obtain ⟨a, rfl, ha⟩ := literal_of_literalForm? hp
          obtain ⟨b, rfl, hb⟩ := literal_of_literalForm? hm
          have hone : ∃ s₁, (unify M l (.literal a) (.literal b)).run s = (.ok (), s₁) := by
            unfold unify
            rw [Action.run_bind_of_ok (Action.run_get s)]
            simp only [resolve_literal]
            unfold unifyHandles
            split
            · exact ⟨s, rfl⟩
            · obtain ⟨t, w, hequal⟩ := hM.isEqual_answers hs.world ha hb
              have ht := (hM.isEqual_iff hs.world hequal).2 ⟨j, j, ha, hb, hrefl j⟩
              rw [Action.run_bind_of_ok (run_ask_ok.2 ⟨w, hequal, rfl⟩), if_pos ht]
              exact ⟨_, rfl⟩
          obtain ⟨s₁, hone⟩ := hone
          have hlearns := (keeps_unify hM l _ _).of_run hone
          obtain ⟨s', hrest⟩ := ih (hlearns.coherent hs) (hlearns.literalForms hs hps')
            (hlearns.literalForms hs hms)
          refine ⟨s', ?_⟩
          unfold unifyEach
          rw [Action.run_bind_of_ok hone]
          exact hrest

/-! ## Proofs of paths -/

/-- A mapping of literals that names the results of an execution of the sketch. -/
def Describes (M : Model σ) (s : Session σ) (sk : Sketch) (result : List Json) (m : Mapping)
    (subs : List PortableLabel) : Prop :=
  (∀ e ∈ m.entries, e.2.isLiteral = true) ∧ sk.Path subs result ∧
    List.Forall₂ (s.Maps M m) sk.steps subs

theorem Learns.maps {s s' : Session σ} (h : Learns M I expand s s') (hs : s.Coherent M I expand)
    {m : Mapping} {steps : List Step} {subs : List PortableLabel}
    (hm : List.Forall₂ (s.Maps M m) steps subs) : List.Forall₂ (s'.Maps M m) steps subs :=
  hm.imp fun _ _ hnames => hnames.imp fun _ _ ⟨v, hv, hj⟩ => ⟨v, hv, h.form? hs hj⟩

theorem Maps.result_unique {s : Session σ} {m : Mapping} {st : Step} {pl pl' : PortableLabel}
    (h : s.Maps M m st pl) (h' : s.Maps M m st pl') : pl.result = pl'.result := by
  unfold Maps at h h'
  generalize pl.result = js at h
  generalize pl'.result = js' at h'
  generalize st.names = names at h h'
  induction h generalizing js' with
  | nil =>
      cases h'
      rfl
  | cons hj _ ih =>
      obtain ⟨j', js', ⟨v', hv', hj'⟩, hjs', rfl⟩ := List.forall₂_cons_left_iff.1 h'
      obtain ⟨v, hv, hj⟩ := hj
      cases hv.symm.trans hv'
      rw [Option.some.inj (hj.symm.trans hj'), ih _ hjs']

/-- Two executions whose results one mapping names have the same results. -/
theorem maps_unique {s : Session σ} {m : Mapping} {steps : List Step}
    {subs subs' : List PortableLabel} (h : List.Forall₂ (s.Maps M m) steps subs)
    (h' : List.Forall₂ (s.Maps M m) steps subs') : subs.map (·.result) = subs'.map (·.result) := by
  induction h generalizing subs' with
  | nil =>
      cases h'
      rfl
  | cons hm _ ih =>
      obtain ⟨sub', subs', hm', hms, rfl⟩ := List.forall₂_cons_left_iff.1 h'
      rw [List.map_cons, List.map_cons, ih hms, hm.result_unique hm']

variable (hM : M.Meets I expand E) (hrefl : ∀ v, E v v)

include hM hrefl

/-- Claims that were filled in from a mapping are verified as soon as they return what the label
says. -/
theorem verify_answers {s : Session σ} {l : Label} {d : Distribution} {cs : List Label}
    {vs : List Value} {result : List Json} (hs : s.Coherent M I expand) (hcs : Retraces d [] cs)
    (hvs : Walk.resolveResult ⟨d, cs.map (·.result)⟩ = .ok vs)
    (hl : List.Forall₂ (fun v j => literalForm? (M.form? s.world) v = some j) l.result result)
    (hform : List.Forall₂ (fun v j => literalForm? (M.form? s.world) v = some j) vs result) :
    ∃ s', (verify M l d cs).run s = (.ok (), s') := by
  rw [hcs.run_verify_of_result hvs]
  unfold unifyValues
  rw [if_neg (Decidable.not_not.2 (hl.length_eq.trans hform.length_eq.symm))]
  exact unifyEach_answers hM hrefl hs hl hform

theorem alternative_answers {s : Session σ} {l : Label} {d : Distribution} {m : Mapping}
    {sk : Sketch} {subs : List PortableLabel} {result : List Json} (hs : s.Coherent M I expand)
    (hd : d.Reads (M.form? s.world) sk) (hm : s.Describes M sk result m subs)
    (hl : List.Forall₂ (fun v j => literalForm? (M.form? s.world) v = some j) l.result result) :
    ∃ a s', (alternative M l d m).run s = (.ok a, s') := by
  obtain ⟨hlit, hpath, hmaps⟩ := hm
  have hmaps' : List.Forall₂ (fun st sub => List.Forall₂ (fun name j =>
      ∃ v, m.get? name = some v ∧ literalForm? (M.form? s.world) v = some j) st.names sub.result)
      sk.steps subs := by
    refine hmaps.imp fun _ _ hnames => hnames.imp fun name j ⟨v, hv, hj⟩ => ⟨v, hv, ?_⟩
    have hv' := hlit _ (Dictionary.mem_of_get? hv)
    cases v with
    | literal a => exact hj
    | _ => cases hv'
  obtain ⟨cs, hcs, hreads⟩ := claimsFrom_answers (fun _ _ h => h) (l := l) (w := .start d) hd
    hd.steps .nil rfl hpath.follows hmaps'
  have hclaims : claims l d m = .ok cs := hcs
  have hvalues : ∀ c ∈ cs, ∀ v ∈ c.call.parameters, Proof.checkValue v = .ok () := by
    intro c hc v hv
    obtain ⟨sub, -, hsub⟩ := exists_of_forall₂_mem hreads.flip hc
    obtain ⟨j, -, hj⟩ := exists_of_forall₂_mem hsub.parameters.flip hv
    obtain ⟨a, rfl, -⟩ := literal_of_literalForm? hj
    rfl
  rcases Walk.resolveAll_reads (w := ⟨d, cs.map (·.result)⟩) hd (binds_of_reads hreads)
    (fun _ _ h => h) hd.result with ⟨-, hnone⟩ | ⟨vs, rs, hvs, hrs, hform⟩
  · exact nomatch hnone.symm.trans hpath.returns
  cases hrs.symm.trans hpath.returns
  obtain ⟨s₁, hverify⟩ := verify_answers hM hrefl hs (retraces_of_claims hclaims hvalues) hvs hl
    hform
  have hlearns := (keeps_verify hM l d cs).of_run hverify
  obtain ⟨gs, s', hgs⟩ := groundLabels_answers hM (l := l) (hlearns.coherent hs)
    (hreads.imp fun _ _ h => ⟨h.function, hlearns.literalForms hs h.parameters,
      hlearns.literalForms hs h.result⟩)
  refine ⟨gs, s', ?_⟩
  unfold alternative
  rw [hclaims, Action.run_bind_of_ok (Action.run_liftM _ s), Action.run_bind_of_ok hverify]
  exact hgs

theorem mapM_alternative_answers {s : Session σ} {l : Label} {d : Distribution}
    {ms : List Mapping} {sk : Sketch} {subss : List (List PortableLabel)} {result : List Json}
    (hs : s.Coherent M I expand) (hd : d.Reads (M.form? s.world) sk)
    (hms : List.Forall₂ (s.Describes M sk result) ms subss)
    (hl : List.Forall₂ (fun v j => literalForm? (M.form? s.world) v = some j) l.result result) :
    ∃ as s', (ms.mapM (alternative M l d)).run s = (.ok as, s') := by
  induction ms generalizing s subss with
  | nil => exact ⟨[], s, rfl⟩
  | cons m ms ih =>
      obtain ⟨subs, subss, hm, hrest, rfl⟩ := List.forall₂_cons_left_iff.1 hms
      obtain ⟨a, s₁, ha⟩ := alternative_answers hM hrefl hs hd hm hl
      have hlearns := (keeps_alternative hM l d m).of_run ha
      obtain ⟨as, s', has⟩ := ih (hlearns.coherent hs) (hd.mono (hlearns.world_form hs))
        (hrest.imp fun _ _ ⟨hlit, hpath, hmaps⟩ => ⟨hlit, hpath, hlearns.maps hs hmaps⟩)
        (hlearns.literalForms hs hl)
      exact ⟨_, s', Action.run_mapM_cons_ok.2 ⟨a, s₁, as, ha, has, rfl⟩⟩

/-- The proof's mappings describe executions of the sketch that exclude each other and whatever is
recorded for its label. -/
structure Fresh (M : Model σ) (s : Session σ) (sk : Sketch) (pl : PortableLabel)
    (ms : List Mapping) (subss : List (List PortableLabel)) : Prop where
  names : ∀ m ∈ ms, m.keys = Keyed.names sk.names
  describes : List.Forall₂ (s.Describes M sk pl.result) ms subss
  pairwise : subss.Pairwise Apart
  recorded : ∀ l, l.Reads (s.form? M) pl → ∀ a ∈ s.alternativesOf l, ∀ subs,
    List.Forall₂ (Label.Reads (s.form? M)) a subs → ∀ subs' ∈ subss, Apart subs subs'

omit hM hrefl

theorem checkNames_ok {p : Proof} {d : Distribution}
    (h : ∀ m ∈ p.mappings, m.keys = Keyed.names d.names) : checkNames p d = .ok () := by
  unfold checkNames
  refine if_pos ?_
  rw [Bool.or_eq_true, List.isEmpty_iff, decide_eq_true_iff]
  unfold Proof.names
  cases hms : p.mappings with
  | nil => exact .inl rfl
  | cons m ms => exact .inr (h m (by rw [hms]; exact List.mem_cons_self))

/-- Paths that are apart make alternatives that differ, also when other executions with the same
results are what is recorded. -/
theorem apart_congr {a b a' b' : List PortableLabel} (ha : a.map (·.result) = a'.map (·.result))
    (hb : b.map (·.result) = b'.map (·.result)) (h : Apart a b) : Apart a' b' := by
  unfold Apart at h ⊢
  rwa [ha, hb] at h

/-- What an expansion reads of the alternatives recorded before is what they read at its start. -/
theorem Sound.reads_of_alternative {s s' : Session σ} (hs : s.Sound M I expand E)
    (hle : Learns M I expand s s') {l : Label} (hl : l.isPrimitive = false) {a : List Label}
    (ha : a ∈ s.alternativesOf l) :
    ∃ pl subs, l.Reads (s.form? M) pl ∧ List.Forall₂ (Label.Reads (s.form? M)) a subs ∧
      l.Reads (s'.form? M) pl ∧ List.Forall₂ (Label.Reads (s'.form? M)) a subs := by
  by_cases hentry : ∃ e ∈ s.entries, e.label = l
  · obtain ⟨e, he, rfl⟩ := hentry
    rw [alternativesOf_of_mem hs.distinct he] at ha
    obtain ⟨pl, sk, subs, rs, hpl, -, hsubs, -⟩ := ((hs.recorded e he).paths hl a ha).path
    exact ⟨pl, subs, hpl, hsubs, hle.reads hs.coherent hpl,
      hsubs.imp fun _ _ => hle.reads hs.coherent⟩
  · push Not at hentry
    rw [alternativesOf_of_not_mem hentry] at ha
    cases ha

theorem Sound.pairwise_alternativesOf {s : Session σ} (hs : s.Sound M I expand E) (l : Label) :
    (s.alternativesOf l).Pairwise Differ := by
  by_cases hentry : ∃ e ∈ s.entries, e.label = l
  · obtain ⟨e, he, rfl⟩ := hentry
    rw [alternativesOf_of_mem hs.distinct he]
    exact (hs.recorded e he).disjoint
  · push Not at hentry
    rw [alternativesOf_of_not_mem hentry]
    exact .nil

/-- The alternatives of mappings read with the results that the mappings name. -/
theorem forall₂_reads {s : Session σ} {l : Label} {sk : Sketch} {ms : List Mapping}
    {as : List (List Label)} {subss : List (List PortableLabel)}
    (h : List.Forall₂ (fun m a => ∃ subs, s.Traces M E l sk m a subs) ms as)
    (hm : List.Forall₂ (fun m subs => List.Forall₂ (s.Maps M m) sk.steps subs) ms subss) :
    List.Forall₂ (fun a subs => ∃ subs', List.Forall₂ (Label.Reads (s.form? M)) a subs' ∧
      subs'.map (·.result) = subs.map (·.result)) as subss := by
  induction h generalizing subss with
  | nil =>
      cases hm
      exact .nil
  | cons ht _ ih =>
      obtain ⟨subs, subss', hmaps, hrest, rfl⟩ := List.forall₂_cons_left_iff.1 hm
      obtain ⟨subs', ht⟩ := ht
      exact .cons ⟨subs', ht.reads, maps_unique ht.maps hmaps⟩ (ih hrest)

/-- The alternatives of fresh paths differ from each other and from what is recorded. -/
theorem Fresh.pairwise_differ {s s' : Session σ} (hs : s.Sound M I expand E)
    (hle : Learns M I expand s s') (hs' : s'.Sound M I expand E) {l : Label} {pl : PortableLabel}
    {sk : Sketch} {ms : List Mapping} {as : List (List Label)} {subss : List (List PortableLabel)}
    (h : s.Fresh M sk pl ms subss) (hl : l.isPrimitive = false) (hpl : l.Reads (s'.form? M) pl)
    (has : List.Forall₂ (fun a subs => ∃ subs', List.Forall₂ (Label.Reads (s'.form? M)) a subs' ∧
      subs'.map (·.result) = subs.map (·.result)) as subss) :
    (s'.alternativesOf l ++ as).Pairwise Differ := by
  refine List.pairwise_append.2 ⟨hs'.pairwise_alternativesOf l, ?_, fun a ha b hb => ?_⟩
  · refine pairwise_of_forall₂ has h.pairwise fun a b subs subs' hsubs hsubs' hapart => ?_
    obtain ⟨subs₀, hreads, hresults⟩ := hsubs
    obtain ⟨subs₁, hreads', hresults'⟩ := hsubs'
    exact differ_of_apart hreads hreads' (apart_congr hresults.symm hresults'.symm hapart)
  · rw [hle.alternativesOf] at ha
    obtain ⟨pl', subs, hpl', hsubs, hreads, hsubs'⟩ := hs.reads_of_alternative hle hl ha
    obtain rfl := reads_unique hreads hpl
    obtain ⟨subs', hmem, subs₁, hreads₁, hresults⟩ := exists_of_forall₂_mem has.flip hb
    exact differ_of_apart hsubs' hreads₁
      (apart_congr rfl hresults.symm (h.recorded l hpl' a ha subs hsubs subs' hmem))

include hM

/-- Literals are grounded to literals of the same values. -/
theorem groundValues_literals {s s' : Session σ} {l : Label} {vs rs : List Value} {js : List Json}
    (hs : s.Coherent M I expand)
    (hvs : List.Forall₂ (fun v j => literalForm? (M.form? s.world) v = some j) vs js)
    (hr : (groundValues M l vs).run s = (.ok rs, s')) :
    (∀ v ∈ rs, ∃ c, v = .literal c ∧ s'.IsCanonical c) ∧
      List.Forall₂ (fun v j => s'.form? M v = some j) rs js := by
  obtain ⟨hcanon, js', hjs, hjs'⟩ := groundValues_ok hM hs hr
  have hlearns := (keeps_groundValues hM l vs).of_run hr
  have hforms : List.Forall₂ (fun v j => s'.form? M v = some j) vs js :=
    (hlearns.literalForms hs hvs).imp fun v j hv => by
      obtain ⟨a, rfl, ha⟩ := literal_of_literalForm? hv
      exact ha
  exact ⟨hcanon, forall₂_some_unique hjs hforms ▸ hjs'⟩

theorem record_answers {s : Session σ} {l : Label} {c : Call} {as : Label → List (List Label)}
    {js : List Json} (hs : s.Coherent M I expand)
    (hl : List.Forall₂ (fun v j => literalForm? (M.form? s.world) v = some j) l.result js)
    (hdisjoint : ∀ rs s', (groundValues M l l.result).run s = (.ok rs, s') →
      (s'.alternativesOf ⟨c, rs⟩ ++ as ⟨c, rs⟩).Pairwise Differ) :
    ∃ g s', (record M l c as).run s = (.ok g, s') := by
  obtain ⟨rs, s₁, hrs⟩ := groundValues_answers hM (l := l) hs hl
  rw [run_record hrs, checkDisjoint_ok_iff.2 (hdisjoint rs s₁ hrs)]
  exact ⟨_, _, rfl⟩

include hrefl

theorem alternatives_answers {s : Session σ} (hs : s.Coherent M I expand) {p : Proof} {c : Call}
    {hs' : List Handle} {vs result : List Json} {sk : Sketch} {subss : List (List PortableLabel)}
    (hc : c.isPrimitive = false) (hpar : c.parameters = hs'.map .literal)
    (hforms : M.Forms s.world hs' vs) (hsk : expand c.function vs = .ok sk)
    (hnames : ∀ m ∈ p.mappings, m.keys = Keyed.names sk.names)
    (hms : List.Forall₂ (s.Describes M sk result) p.mappings subss)
    (hl : List.Forall₂ (fun v j => literalForm? (M.form? s.world) v = some j) p.label.result
      result) :
    ∃ as s', (alternatives M p c).run s = (.ok as, s') := by
  rcases distribution_cases hM hs hc hpar hforms with
    ⟨d, s₁, sk', hd, hlearns, hsk', hreads⟩ | ⟨f, f', s₁, hd, -, hsk'⟩
  · cases hsk.symm.trans hsk'
    have hdescribes : List.Forall₂ (s₁.Describes M sk result) p.mappings subss :=
      hms.imp fun _ _ ⟨hlit, hpath, hmaps⟩ => ⟨hlit, hpath, hlearns.maps hs hmaps⟩
    unfold alternatives
    rw [Action.run_bind_of_ok hd, checkNames_ok (by rw [hreads.names]; exact hnames)]
    exact mapM_alternative_answers hM hrefl (hlearns.coherent hs) hreads hdescribes
      (hlearns.literalForms hs hl)
  · cases hsk.symm.trans hsk'

/-- A proof of paths that exclude each other and what is recorded is accepted. -/
theorem expand_answers {s : Session σ} (hs : s.Sound M I expand E) {p : Proof} {pl : PortableLabel}
    {sk : Sketch} {subss : List (List PortableLabel)} (hp : p.label.isPrimitive = false)
    (hl : p.label.Reads (literalForm? (M.form? s.world)) pl)
    (hsk : expand pl.function pl.parameters = .ok sk) (hms : s.Fresh M sk pl p.mappings subss) :
    ∃ l s', (Session.expand M p).run s = (.ok l, s') := by
  obtain ⟨ps, s₁, hps⟩ := groundValues_answers hM (l := p.label) hs.coherent hl.parameters
  have hp' : Call.isPrimitive ⟨p.label.call.function, ps⟩ = false := hp
  have hlearns₁ := (keeps_groundValues hM p.label _).of_run hps
  have hs₁ := hlearns₁.sound hs
  obtain ⟨hcanon, hargs⟩ := groundValues_literals hM hs.coherent hl.parameters hps
  obtain ⟨hs', hpar, hforms⟩ := literals_of_canonical hcanon hargs
  have hsk' : expand p.label.call.function pl.parameters = .ok sk := by
    rw [hl.function]
    exact hsk
  obtain ⟨as, s₂, has⟩ := alternatives_answers hM hrefl hs₁.coherent hp' hpar hforms hsk' hms.names
    (hms.describes.imp fun _ _ ⟨hlit, hpath, hmaps⟩ =>
      ⟨hlit, hpath, hlearns₁.maps hs.coherent hmaps⟩)
    (hlearns₁.literalForms hs.coherent hl.result)
  have hlearns₂ := learns_alternatives hM hs₁.coherent hp' hpar hforms p
  rw [has] at hlearns₂
  have hlearns₀₂ := hlearns₁.trans hlearns₂
  have hs₂ := hlearns₂.sound hs₁
  obtain ⟨sk', hsk'', htraces⟩ := alternatives_ok hM hs₁.coherent hp' hpar hforms has
  cases hsk'.symm.trans hsk''
  rw [expand_eq, Action.run_bind_of_ok hps]
  simp only [hp', Bool.false_eq_true, if_false]
  rw [Action.run_bind_of_ok has]
  refine record_answers hM hs₂.coherent (hlearns₀₂.literalForms hs.coherent hl.result)
    fun rs s₃ hrs => ?_
  -- The recorded label reads as the proof's, so the alternatives recorded for it are those that
  -- the mappings are apart from.
  have hlearns₃ := (keeps_groundValues hM p.label _).of_run hrs
  have hlearns₀₃ := hlearns₀₂.trans hlearns₃
  obtain ⟨-, hresult⟩ := groundValues_literals hM hs₂.coherent
    (hlearns₀₂.literalForms hs.coherent hl.result) hrs
  have hgrounded : Label.Reads (s₃.form? M) ⟨⟨p.label.call.function, ps⟩, rs⟩ pl :=
    ⟨hl.function, (hlearns₂.trans hlearns₃).forms? hs₁.coherent hargs, hresult⟩
  have htraces' := htraces.imp fun m a ⟨subs, ht⟩ =>
    (⟨subs, hlearns₃.traces hs₂.coherent ht⟩ : ∃ subs, s₃.Traces M E p.label sk m a subs)
  have hmaps := hms.describes.imp fun _ _ ⟨_, _, hmaps⟩ => hlearns₀₃.maps hs.coherent hmaps
  exact hms.pairwise_differ hs hlearns₀₃ (hlearns₃.sound hs₂) hp' hgrounded
    (forall₂_reads htraces' hmaps)

omit hM hrefl

/-- Expansion records exactly the execution paths. -/
theorem expand_records_paths (hM : M.Lawful I expand) {s : Session σ} (hs : Reachable M I s)
    (p : Proof) (hp : p.label.isPrimitive = false) :
    (∀ l s', (Session.expand M p).run s = (.ok l, s') →
      l.isGrounded = true ∧ (∀ l' ≠ l, s'.alternativesOf l' = s.alternativesOf l') ∧
        ∃ pl sk added, l.Reads (s'.form? M) pl ∧ p.label.Reads (s'.form? M) pl ∧
          expand pl.function pl.parameters = .ok sk ∧
          s'.alternativesOf l = s.alternativesOf l ++ added ∧
          List.Forall₂ (fun m a => ∃ subs, List.Forall₂ (Label.Reads (s'.form? M)) a subs ∧
            sk.Path subs pl.result ∧ List.Forall₂ (s'.Maps M m) sk.steps subs) p.mappings added) ∧
    ∀ pl sk subss, p.label.Reads (literalForm? (M.form? s.world)) pl →
      expand pl.function pl.parameters = .ok sk → s.Fresh M sk pl p.mappings subss →
        ∃ l s', (Session.expand M p).run s = (.ok l, s') := by
  have hsound := hs.sound hM
  refine ⟨fun l s' hr => ?_, fun pl sk subss hl hsk hms =>
    expand_answers hM (fun _ => rfl) hsound hp hl hsk hms⟩
  obtain ⟨hcanon, hothers, pl, sk, added, hpl, hppl, hsk, hadded, hpaths⟩ :=
    expand_ok hM hsound hp hr
  refine ⟨hcanon.isGrounded, hothers, pl, sk, added, hpl, hppl, hsk, hadded, hpaths.imp ?_⟩
  rintro m a ⟨subs, rs, hsubs, hpath, halike, hmaps⟩
  exact ⟨subs, hsubs, eq_of_alike_print halike ▸ hpath, hmaps⟩

/-! ## Two draws, of which the first is returned -/

def twoDraws : Library :=
  [("first", fun _ => .append "draw" [.literal (.bool true)] ["x"]
    (.append "draw" [.literal (.bool true)] ["y"] (.done [.named "x"])))]

def twoDraws.sketch : Sketch :=
  ⟨[⟨"draw", [.object (.bool true)], ["x"]⟩, ⟨"draw", [.object (.bool true)], ["y"]⟩],
    [.named "x"]⟩

theorem twoDraws_expand {f : String} {vs : List Json} {sk : Sketch}
    (h : twoDraws.expand f vs = .ok sk) : sk = twoDraws.sketch := by
  unfold Library.expand twoDraws at h
  rw [List.lookup_cons] at h
  split at h
  · cases h
  · next hfun =>
      split at hfun
      · cases hfun
        exact (Except.ok.inj h).symm
      · cases hfun

theorem twoDraws_lawful :
    twoDraws.model.Lawful (Library.Holds Json.Plain) twoDraws.expand := by
  refine Library.lawful fun f vs sk _ h item hitem v hv => ?_
  obtain rfl := twoDraws_expand h
  have hv' : v = .bool true := by
    subst hv
    simpa [twoDraws.sketch] using hitem
  rw [hv']
  exact ⟨trivial, rfl⟩

def truthPair (x y : Nat) : Mapping := .ofList [("x", .literal ⟨x⟩), ("y", .literal ⟨y⟩)]

theorem truthPair_describes {x y : Nat} {w : Json}
    (hx : Library.truths.value? ⟨x⟩ = some (.bool true)) (hy : Library.truths.value? ⟨y⟩ = some w) :
    (start Settings.standard Library.truths).Describes twoDraws.model twoDraws.sketch [.bool true]
      (truthPair x y) [⟨"draw", [.bool true], [.bool true]⟩, ⟨"draw", [.bool true], [w]⟩] := by
  have hentries : (truthPair x y).entries = [("x", .literal ⟨x⟩), ("y", .literal ⟨y⟩)] := rfl
  refine ⟨fun e he => ?_, ⟨⟨rfl, rfl, rfl, rfl, rfl, rfl, trivial⟩, rfl⟩, ?_⟩
  · rw [hentries] at he
    simp only [List.mem_cons, List.not_mem_nil, or_false] at he
    obtain rfl | rfl := he <;> rfl
  · refine .cons (.cons ⟨.literal ⟨x⟩, rfl, ?_⟩ .nil)
      (.cons (.cons ⟨.literal ⟨y⟩, rfl, ?_⟩ .nil) .nil)
    · rw [form?_literal, Library.form?_model]
      exact hx
    · rw [form?_literal, Library.form?_model]
      exact hy

theorem twoDraws_accepted : ∃ l s',
    (Session.expand twoDraws.model
      ⟨⟨⟨"first", []⟩, [.literal ⟨0⟩]⟩, [truthPair 0 0, truthPair 0 1]⟩).run
        (start Settings.standard Library.truths) = (.ok l, s') ∧ l.isGrounded = true := by
  have hreach : Reachable twoDraws.model (Library.Holds Json.Plain)
      (start Settings.standard Library.truths) := .start _ Library.truths_holds
  have hpaths := expand_records_paths twoDraws_lawful hreach
    ⟨⟨⟨"first", []⟩, [.literal ⟨0⟩]⟩, [truthPair 0 0, truthPair 0 1]⟩ rfl
  obtain ⟨l, s', hr⟩ := hpaths.2 ⟨"first", [], [.bool true]⟩ twoDraws.sketch
    [[⟨"draw", [.bool true], [.bool true]⟩, ⟨"draw", [.bool true], [.bool true]⟩],
      [⟨"draw", [.bool true], [.bool true]⟩, ⟨"draw", [.bool true], [.bool false]⟩]]
    ⟨rfl, .nil, .cons rfl .nil⟩ rfl
    ⟨by decide, .cons (truthPair_describes rfl rfl) (.cons (truthPair_describes rfl rfl) .nil), by
      refine List.pairwise_pair.2 ⟨1, [.bool true], [.bool false], rfl, rfl, by decide⟩,
      fun l _ a ha => nomatch ha⟩
  exact ⟨l, s', hr, (hpaths.1 l s' hr).1⟩

end Session

end ChanceProof
