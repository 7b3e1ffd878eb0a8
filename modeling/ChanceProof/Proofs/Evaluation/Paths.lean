import ChanceProof.Evaluation.Expand
import ChanceProof.Proofs.Evaluation.Unify

/-!
# Alternatives are execution paths

Grounding replaces the values of a claim by canonical literals of the same forms. So the labels
that a mapping yields, once they are verified and grounded, read as an execution of the sketch that
the model's distribution has: `alternative_ok`. It holds at once and for the rest of the session,
since nothing that is learnt later changes a form.
-/

namespace ChanceProof

/-- The form of a literal. -/
def literalForm? (φ : Handle → Option Json) : Value → Option Json
  | .literal h => φ h
  | _ => none

theorem literal_of_literalForm? {φ : Handle → Option Json} {v : Value} {j : Json}
    (h : literalForm? φ v = some j) : ∃ a, v = .literal a ∧ φ a = some j := by
  cases v with
  | literal a => exact ⟨a, rfl, h⟩
  | _ => cases h

/-- The label says what the portable label says, where `ψ` gives the forms of values. -/
structure Label.Reads (ψ : Value → Option Json) (l : Label) (pl : PortableLabel) : Prop where
  function : l.call.function = pl.function
  parameters : List.Forall₂ (fun v j => ψ v = some j) l.call.parameters pl.parameters
  result : List.Forall₂ (fun v j => ψ v = some j) l.result pl.result

section

variable {ψ : Value → Option Json} {l : Label} {pl : PortableLabel} (h : l.Reads ψ pl)

include h

theorem Label.Reads.function_eq (hcoin : l.isPrimitive = true) :
    pl.function = Call.coinFunction :=
  h.function.symm.trans (Call.isPrimitive_iff.1 hcoin)

theorem Label.Reads.function_ne (hcall : l.isPrimitive = false) :
    pl.function ≠ Call.coinFunction := by
  rw [← h.function]
  intro hfun
  exact nomatch (Call.isPrimitive_iff.2 hfun).symm.trans hcall

end

namespace Session

variable {σ : Type}

/-- All values of the label are canonical literals. -/
def Canonical (s : Session σ) (l : Label) : Prop :=
  ∀ v ∈ l.values, ∃ c, v = .literal c ∧ s.IsCanonical c

theorem Canonical.isGrounded {s : Session σ} {l : Label} (h : s.Canonical l) :
    l.isGrounded = true := by
  rw [Label.isGrounded, Call.isGrounded, Bool.and_eq_true, List.all_eq_true, List.all_eq_true]
  constructor
  · intro v hv
    obtain ⟨c, rfl, -⟩ := h v (List.mem_append_left _ hv)
    rfl
  · intro v hv
    obtain ⟨c, rfl, -⟩ := h v (List.mem_append_right _ hv)
    rfl

variable {M : Model σ} {I : σ → Prop} {expand : Expander} {E : Json → Json → Prop}

theorem Learns.canonical {s s' : Session σ} (h : Learns M I expand s s') {l : Label}
    (hl : s.Canonical l) : s'.Canonical l := fun v hv => by
  obtain ⟨c, rfl, hc⟩ := hl v hv
  exact ⟨c, rfl, h.isCanonical hc⟩

theorem Learns.forms? {s s' : Session σ} (h : Learns M I expand s s')
    (hs : s.Coherent M I expand) {vs : List Value} {js : List Json}
    (hvs : List.Forall₂ (fun v j => s.form? M v = some j) vs js) :
    List.Forall₂ (fun v j => s'.form? M v = some j) vs js :=
  hvs.imp fun _ _ => h.form? hs

theorem Learns.reads {s s' : Session σ} (h : Learns M I expand s s')
    (hs : s.Coherent M I expand) {l : Label} {pl : PortableLabel} (hl : l.Reads (s.form? M) pl) :
    l.Reads (s'.form? M) pl :=
  ⟨hl.function, h.forms? hs hl.parameters, h.forms? hs hl.result⟩

/-- A label stands for one portable label. -/
theorem reads_unique {ψ : Value → Option Json} {l : Label} {pl pl' : PortableLabel}
    (h : l.Reads ψ pl) (h' : l.Reads ψ pl') : pl = pl' := by
  obtain ⟨f, ps, rs⟩ := pl
  obtain ⟨f', ps', rs'⟩ := pl'
  obtain ⟨rfl, hps, hrs⟩ := h
  obtain ⟨rfl, hps', hrs'⟩ := h'
  obtain rfl := forall₂_some_unique hps hps'
  obtain rfl := forall₂_some_unique hrs hrs'
  rfl

theorem forall₂_reads_unique {s : Session σ} {labels : List Label} {subs subs' : List PortableLabel}
    (h : List.Forall₂ (Label.Reads (s.form? M)) labels subs)
    (h' : List.Forall₂ (Label.Reads (s.form? M)) labels subs') : subs = subs' :=
  List.right_unique_forall₂' (R := Label.Reads (s.form? M)) (fun _ _ _ => reads_unique) h h'

theorem Coherent.literals_inj {s : Session σ} (hs : s.Coherent M I expand) {vs ws : List Value}
    {js : List Json} (hvc : ∀ v ∈ vs, ∃ c, v = .literal c ∧ s.IsCanonical c)
    (hwc : ∀ w ∈ ws, ∃ c, w = .literal c ∧ s.IsCanonical c)
    (hv : List.Forall₂ (fun v j => s.form? M v = some j) vs js)
    (hw : List.Forall₂ (fun v j => s.form? M v = some j) ws js) : vs = ws := by
  induction hv generalizing ws with
  | nil =>
      cases hw
      rfl
  | cons hv _ ih =>
      cases hw with
      | cons hw hws =>
          obtain ⟨a, rfl, ha⟩ := hvc _ List.mem_cons_self
          obtain ⟨b, rfl, hb⟩ := hwc _ List.mem_cons_self
          rw [hs.canonical_inj ha hb hv hw,
            ih (fun v hv => hvc v (List.mem_cons_of_mem _ hv))
              (fun w hw => hwc w (List.mem_cons_of_mem _ hw)) hws]

/-- A canonical label says something. -/
theorem Coherent.exists_reads {s : Session σ} (hs : s.Coherent M I expand) {l : Label}
    (hl : s.Canonical l) : ∃ pl, l.Reads (s.form? M) pl := by
  have hlive : ∀ v ∈ l.values, ∃ j, s.form? M v = some j := fun v hv => by
    obtain ⟨c, rfl, hc⟩ := hl v hv
    exact hs.live hc
  obtain ⟨ps, hps⟩ := exists_forall₂ (l := l.call.parameters) fun v hv =>
    hlive v (List.mem_append_left _ hv)
  obtain ⟨rs, hrs⟩ := exists_forall₂ (l := l.result) fun v hv =>
    hlive v (List.mem_append_right _ hv)
  exact ⟨⟨l.call.function, ps, rs⟩, rfl, hps, hrs⟩

/-- As a label of literals it says the same without the session. -/
theorem Canonical.reads_literals {s : Session σ} {l : Label} (hl : s.Canonical l)
    {pl : PortableLabel} (h : l.Reads (s.form? M) pl) :
    l.Reads (literalForm? (M.form? s.world)) pl := by
  have hvalues : ∀ {vs : List Value} {js : List Json}, (∀ v ∈ vs, v ∈ l.values) →
      List.Forall₂ (fun v j => s.form? M v = some j) vs js →
      List.Forall₂ (fun v j => literalForm? (M.form? s.world) v = some j) vs js := by
    intro vs js hvs hforms
    induction hforms with
    | nil => exact .nil
    | cons hj _ ih =>
        obtain ⟨c, rfl, -⟩ := hl _ (hvs _ List.mem_cons_self)
        exact .cons hj (ih fun v hv => hvs v (List.mem_cons_of_mem _ hv))
  exact ⟨h.function, hvalues (fun _ => List.mem_append_left _) h.parameters,
    hvalues (fun _ => List.mem_append_right _) h.result⟩

variable (hM : M.Meets I expand E)

include hM

/-! ## Grounding -/

theorem keeps_groundValue (l : Label) (v : Value) :
    (groundValue M l v).Keeps (Learns M I expand) := by
  unfold groundValue
  refine .bind .get fun s => ?_
  split
  · exact (keeps_canonical hM _).bind fun _ => .pure _
  · exact .throw _

theorem keeps_groundValues (l : Label) (vs : List Value) :
    (groundValues M l vs).Keeps (Learns M I expand) :=
  .mapM vs (keeps_groundValue hM l)

theorem keeps_groundLabel (l claim : Label) :
    (groundLabel M l claim).Keeps (Learns M I expand) :=
  (keeps_groundValues hM l _).bind fun _ => (keeps_groundValues hM l _).bind fun _ => .pure _

theorem keeps_alternative (l : Label) (d : Distribution) (m : Mapping) :
    (alternative M l d m).Keeps (Learns M I expand) :=
  .bind (.liftM _) fun _ => (keeps_verify hM l d _).bind fun _ => .mapM _ (keeps_groundLabel hM l)

/-- A grounded value is a canonical literal of the same form. -/
theorem groundValue_ok {s s' : Session σ} {l : Label} {v v' : Value}
    (hs : s.Coherent M I expand) (hr : (groundValue M l v).run s = (.ok v', s')) :
    (∃ c, v' = .literal c ∧ s'.IsCanonical c) ∧
      ∃ j, s'.form? M v = some j ∧ s'.form? M v' = some j := by
  have hlearns := (keeps_groundValue hM l v).of_run hr
  unfold groundValue at hr
  rw [Action.run_bind_of_ok (Action.run_get s)] at hr
  split at hr
  · next h hv =>
      obtain ⟨c, s₁, hc, hr⟩ := Action.run_bind_ok.1 hr
      obtain ⟨rfl, rfl⟩ := Action.run_pure_ok.1 hr
      obtain ⟨-, hcanon, j, hj, hcj⟩ := canonical_ok hM hs hc
      refine ⟨⟨c, rfl, hcanon⟩, j, ?_, hcj⟩
      rw [form?_of_resolve (hlearns.resolve_literal hv)]
      exact hj
  · exact (Action.run_throw_ok hr).elim

theorem groundValues_ok {s s' : Session σ} {l : Label} {vs vs' : List Value}
    (hs : s.Coherent M I expand) (hr : (groundValues M l vs).run s = (.ok vs', s')) :
    (∀ v ∈ vs', ∃ c, v = .literal c ∧ s'.IsCanonical c) ∧
      ∃ js, List.Forall₂ (fun v j => s'.form? M v = some j) vs js ∧
        List.Forall₂ (fun v j => s'.form? M v = some j) vs' js := by
  induction vs generalizing s vs' with
  | nil =>
      obtain ⟨rfl, rfl⟩ := Action.run_pure_ok.1 hr
      exact ⟨fun _ h => (nomatch h), [], .nil, .nil⟩
  | cons v vs ih =>
      obtain ⟨v₁, s₁, rest, hv, hrest, rfl⟩ := Action.run_mapM_cons_ok.1 hr
      have hs₁ := ((keeps_groundValue hM l v).of_run hv).coherent hs
      have hlearns := (keeps_groundValues hM l vs).of_run hrest
      obtain ⟨⟨c, rfl, hc⟩, j, hj, hj'⟩ := groundValue_ok hM hs hv
      obtain ⟨hcanon, js, hjs, hjs'⟩ := ih hs₁ hrest
      refine ⟨fun w hw => ?_, j :: js, .cons (hlearns.form? hs₁ hj) hjs,
        .cons (hlearns.form? hs₁ hj') hjs'⟩
      rcases List.mem_cons.1 hw with rfl | hw
      · exact ⟨c, rfl, hlearns.isCanonical hc⟩
      · exact hcanon w hw

/-- A grounded claim is a canonical label that reads as the claim does. -/
theorem groundLabel_ok {s s' : Session σ} {l claim g : Label} (hs : s.Coherent M I expand)
    (hr : (groundLabel M l claim).run s = (.ok g, s')) :
    s'.Canonical g ∧ ∃ pl, claim.Reads (s'.form? M) pl ∧ g.Reads (s'.form? M) pl := by
  unfold groundLabel at hr
  obtain ⟨ps, s₁, hps, hr⟩ := Action.run_bind_ok.1 hr
  obtain ⟨rs, s₂, hrs, hr⟩ := Action.run_bind_ok.1 hr
  obtain ⟨rfl, rfl⟩ := Action.run_pure_ok.1 hr
  have hs₁ := ((keeps_groundValues hM l _).of_run hps).coherent hs
  have hlearns := (keeps_groundValues hM l _).of_run hrs
  obtain ⟨hpc, pjs, hpj, hpj'⟩ := groundValues_ok hM hs hps
  obtain ⟨hrc, rjs, hrj, hrj'⟩ := groundValues_ok hM hs₁ hrs
  refine ⟨fun v hv => ?_, ⟨claim.call.function, pjs, rjs⟩,
    ⟨rfl, hlearns.forms? hs₁ hpj, hrj⟩, ⟨rfl, hlearns.forms? hs₁ hpj', hrj'⟩⟩
  rcases List.mem_append.1 hv with hv | hv
  · obtain ⟨c, rfl, hc⟩ := hpc v hv
    exact ⟨c, rfl, hlearns.isCanonical hc⟩
  · exact hrc v hv

theorem groundLabels_ok {s s' : Session σ} {l : Label} {claims gs : List Label}
    (hs : s.Coherent M I expand) (hr : (claims.mapM (groundLabel M l)).run s = (.ok gs, s')) :
    (∀ g ∈ gs, s'.Canonical g) ∧
      ∃ subs, List.Forall₂ (Label.Reads (s'.form? M)) claims subs ∧
        List.Forall₂ (Label.Reads (s'.form? M)) gs subs := by
  induction claims generalizing s gs with
  | nil =>
      obtain ⟨rfl, rfl⟩ := Action.run_pure_ok.1 hr
      exact ⟨fun _ h => (nomatch h), [], .nil, .nil⟩
  | cons claim claims ih =>
      obtain ⟨g, s₁, rest, hg, hrest, rfl⟩ := Action.run_mapM_cons_ok.1 hr
      have hs₁ := ((keeps_groundLabel hM l claim).of_run hg).coherent hs
      have hlearns := (Action.Keeps.mapM claims (keeps_groundLabel hM l)).of_run hrest
      obtain ⟨hcanon, pl, hpl, hpl'⟩ := groundLabel_ok hM hs hg
      obtain ⟨hcanons, subs, hsubs, hsubs'⟩ := ih hs₁ hrest
      refine ⟨fun w hw => ?_, pl :: subs, .cons (hlearns.reads hs₁ hpl) hsubs,
        .cons (hlearns.reads hs₁ hpl') hsubs'⟩
      rcases List.mem_cons.1 hw with rfl | hw
      · exact hlearns.canonical hcanon
      · exact hcanons w hw

/-! ## Claims -/

omit hM

/-- The results of a label are the values that a mapping gives to the names of a step. -/
def Maps (M : Model σ) (s : Session σ) (m : Mapping) (st : Step) (pl : PortableLabel) : Prop :=
  List.Forall₂ (fun name j => ∃ v, m.get? name = some v ∧ s.form? M v = some j) st.names pl.result

theorem mapM_mapped_ok {l : Label} {m : Mapping} {names : List String} {vs : List Value}
    (h : names.mapM (mapped l m) = .ok vs) :
    List.Forall₂ (fun name v => m.get? name = some v) names vs := by
  induction names generalizing vs with
  | nil =>
      cases h
      exact .nil
  | cons name names ih =>
      rw [List.mapM_cons] at h
      obtain ⟨v, hv, h⟩ := bind_eq_ok_iff.1 h
      obtain ⟨vs', hvs, h⟩ := bind_eq_ok_iff.1 h
      obtain rfl := pure_eq_ok_iff.1 h
      refine .cons ?_ (ih hvs)
      unfold mapped at hv
      split at hv
      · next heq =>
          cases hv
          exact heq
      · cases hv

theorem maps_of_forall₂ {s : Session σ} {m : Mapping} {names : List String} {vs : List Value}
    {js : List Json} (hnames : List.Forall₂ (fun name v => m.get? name = some v) names vs)
    (hvs : List.Forall₂ (fun v j => s.form? M v = some j) vs js) :
    List.Forall₂ (fun name j => ∃ v, m.get? name = some v ∧ s.form? M v = some j) names js := by
  induction hnames generalizing js with
  | nil =>
      cases hvs
      exact .nil
  | cons hv _ ih =>
      cases hvs with
      | cons hj hvs => exact .cons ⟨_, hv, hj⟩ (ih hvs)

/-- One step of `claimsFrom`: the call is resolved, the names are mapped, and the rest goes on with
the results bound. -/
theorem claimsFrom_cons_ok {l : Label} {m : Mapping} {w : Walk} {a : Assignment}
    {rest : List Assignment} {cs : List Label} (h : claimsFrom l m w (a :: rest) = .ok cs) :
    ∃ ps result w' cs', a.call.parameters.mapM w.resolve = .ok ps ∧
      a.names.mapM (mapped l m) = .ok result ∧ w.bind result = .ok w' ∧
      claimsFrom l m w' rest = .ok cs' ∧ cs = ⟨⟨a.call.function, ps⟩, result⟩ :: cs' := by
  rw [claimsFrom] at h
  obtain ⟨call, hcall, h⟩ := bind_eq_ok_iff.1 h
  obtain ⟨ps, hps, hcall⟩ := bind_eq_ok_iff.1 (mapError_ok.1 hcall)
  obtain rfl := pure_eq_ok_iff.1 hcall
  obtain ⟨result, hresult, h⟩ := bind_eq_ok_iff.1 h
  obtain ⟨w', hw, h⟩ := bind_eq_ok_iff.1 h
  obtain ⟨cs', hcs, h⟩ := bind_eq_ok_iff.1 h
  exact ⟨ps, result, w', cs', hps, hresult, mapError_ok.1 hw, hcs, (pure_eq_ok_iff.1 h).symm⟩

/-- Claims that have forms read as an execution of the sketch. -/
theorem claimsFrom_follows {s : Session σ} {l : Label} {m : Mapping} {w : Walk} {sk : Sketch}
    {as : List Assignment} {steps : List Step} {cs : List Label} {subs : List PortableLabel}
    {results : List (List Json)} (hd : w.distribution.Reads (M.form? s.world) sk)
    (has : List.Forall₂ (Assignment.Reads (M.form? s.world)) as steps)
    (hw : w.Binds (s.form? M) results) (h : claimsFrom l m w as = .ok cs)
    (hcs : List.Forall₂ (Label.Reads (s.form? M)) cs subs) :
    sk.Follows results steps subs ∧ List.Forall₂ (s.Maps M m) steps subs := by
  induction has generalizing w cs subs results with
  | nil =>
      cases h
      cases hcs
      exact ⟨trivial, .nil⟩
  | @cons a st as steps hast _ ih =>
      obtain ⟨ps, result, w', cs', hps, hresult, hbind, hrest, rfl⟩ := claimsFrom_cons_ok h
      cases hcs with
      | @cons _ sub _ subs hsub hsubs =>
          obtain ⟨hfun, hpar, hres⟩ := hsub
          obtain ⟨-, rfl⟩ := Walk.bind_eq_ok_iff.1 hbind
          have hmapped := mapM_mapped_ok hresult
          obtain ⟨hfollows, hmaps⟩ := ih (w := { w with results := w.results ++ [result] }) hd
            (List.rel_append hw (.cons hres .nil)) hrest hsubs
          have hparams : sk.resolveAll results st.parameters = some sub.parameters := by
            rcases Walk.resolveAll_reads hd hw (fun _ _ h => h) hast.parameters with
              ⟨⟨e, hx⟩, -⟩ | ⟨ps', js, hx, hy, hjs⟩
            · exact nomatch hps.symm.trans hx
            · cases hps.symm.trans hx
              rw [hy, forall₂_some_unique hjs hpar]
          refine ⟨⟨hfun.symm.trans hast.function, hparams, ?_, hfollows⟩, .cons ?_ hmaps⟩
          · rw [← hres.length_eq, ← hmapped.length_eq, hast.names]
          · unfold Maps
            rw [← hast.names]
            exact maps_of_forall₂ hmapped hres

/-- What an alternative says: its labels read as an execution of the sketch whose results the
mapping names, and the result of the execution agrees with that of the label. -/
structure Traces (M : Model σ) (E : Json → Json → Prop) (s : Session σ) (l : Label) (sk : Sketch)
    (m : Mapping) (alternative : List Label) (subs : List PortableLabel) : Prop where
  canonical : ∀ g ∈ alternative, s.Canonical g
  reads : List.Forall₂ (Label.Reads (s.form? M)) alternative subs
  follows : sk.Follows [] sk.steps subs
  maps : List.Forall₂ (s.Maps M m) sk.steps subs
  returns : ∃ vs rs, sk.resolveAll (subs.map (·.result)) sk.result = some rs ∧
    List.Forall₂ (fun v j => s.form? M v = some j) vs rs ∧
    List.Forall₂ (s.Agree M E) l.result vs

theorem Learns.traces {s s' : Session σ} (h : Learns M I expand s s')
    (hs : s.Coherent M I expand) {l : Label} {sk : Sketch} {m : Mapping} {a : List Label}
    {subs : List PortableLabel} (ht : s.Traces M E l sk m a subs) :
    s'.Traces M E l sk m a subs := by
  obtain ⟨vs, rs, hrs, hvs, hagree⟩ := ht.returns
  refine ⟨fun g hg => h.canonical (ht.canonical g hg), ht.reads.imp fun _ _ => h.reads hs,
    ht.follows, ht.maps.imp fun _ _ hmaps => hmaps.imp ?_,
    vs, rs, hrs, h.forms? hs hvs, hagree.imp fun _ _ => h.agree hs⟩
  rintro name j ⟨v, hv, hj⟩
  exact ⟨v, hv, h.form? hs hj⟩

/-- The path of an alternative returns forms that are like those of the label's result. -/
theorem Traces.path {s : Session σ} {l : Label} {sk : Sketch} {m : Mapping} {a : List Label}
    {subs : List PortableLabel} (h : s.Traces M E l sk m a subs) {js : List Json}
    (hl : List.Forall₂ (fun v j => s.form? M v = some j) l.result js) :
    ∃ rs, sk.Path subs rs ∧ List.Forall₂ (Alike E) js rs := by
  obtain ⟨vs, rs, hrs, hvs, hagree⟩ := h.returns
  refine ⟨rs, ⟨h.follows, hrs⟩, ?_⟩
  clear hrs
  generalize l.result = us at hl hagree
  induction hagree generalizing js rs with
  | nil =>
      cases hl
      cases hvs
      exact .nil
  | cons hag _ ih =>
      cases hl with
      | cons hj hl =>
          cases hvs with
          | cons hr hvs => exact .cons (hag.alike hj hr) (ih _ hvs hl)

theorem binds_of_reads {ψ : Value → Option Json} {cs : List Label} {subs : List PortableLabel}
    {d : Distribution} (h : List.Forall₂ (Label.Reads ψ) cs subs) :
    Walk.Binds ψ ⟨d, cs.map (·.result)⟩ (subs.map (·.result)) := by
  unfold Walk.Binds
  induction h with
  | nil => exact .nil
  | cons hl _ ih => exact .cons hl.result ih

include hM

/-- An alternative that was accepted for a mapping reads as an execution. -/
theorem alternative_ok {s s' : Session σ} {l : Label} {d : Distribution} {m : Mapping}
    {a : List Label} {sk : Sketch} (hs : s.Coherent M I expand)
    (hd : d.Reads (M.form? s.world) sk) (hr : (alternative M l d m).run s = (.ok a, s')) :
    ∃ subs, s'.Traces M E l sk m a subs := by
  unfold alternative at hr
  obtain ⟨cs, s₁, hclaims, hr⟩ := Action.run_bind_ok.1 hr
  obtain ⟨hcs, rfl⟩ := Action.run_liftM_ok.1 hclaims
  obtain ⟨_, s₂, hverify, hr⟩ := Action.run_bind_ok.1 hr
  have hlearns₂ := (keeps_verify hM l d cs).of_run hverify
  have hs₂ := hlearns₂.coherent hs
  have hlearns := (Action.Keeps.mapM cs (keeps_groundLabel hM l)).of_run hr
  have hs' := hlearns.coherent hs₂
  obtain ⟨hcanon, subs, hread, hread'⟩ := groundLabels_ok hM hs₂ hr
  have hd' : d.Reads (M.form? s'.world) sk :=
    (hd.mono (hlearns₂.world_form hs)).mono (hlearns.world_form hs₂)
  obtain ⟨hfollows, hmaps⟩ := claimsFrom_follows (w := .start d) hd' hd'.steps .nil hcs hread
  obtain ⟨-, vs, hvs, hagree⟩ := verify_ok hM hs hverify
  refine ⟨subs, hcanon, hread', hfollows, hmaps, ?_⟩
  rcases Walk.resolveAll_reads (w := ⟨d, cs.map (·.result)⟩) hd' (binds_of_reads hread)
    (fun _ _ h => h) hd'.result with ⟨⟨e, hx⟩, -⟩ | ⟨vs', rs, hx, hy, hrs⟩
  · exact nomatch hvs.symm.trans hx
  · cases hvs.symm.trans hx
    exact ⟨vs, rs, hy, hrs, hagree.imp fun _ _ => hlearns.agree hs₂⟩

/-- So do the alternatives that were accepted for the mappings of a proof. -/
theorem mapM_alternative_ok {s s' : Session σ} {l : Label} {d : Distribution} {ms : List Mapping}
    {as : List (List Label)} {sk : Sketch} (hs : s.Coherent M I expand)
    (hd : d.Reads (M.form? s.world) sk) (hr : (ms.mapM (alternative M l d)).run s = (.ok as, s')) :
    List.Forall₂ (fun m a => ∃ subs, s'.Traces M E l sk m a subs) ms as := by
  induction ms generalizing s as with
  | nil =>
      obtain ⟨rfl, rfl⟩ := Action.run_pure_ok.1 hr
      exact .nil
  | cons m ms ih =>
      obtain ⟨a, s₁, rest, ha, hrest, rfl⟩ := Action.run_mapM_cons_ok.1 hr
      have hlearns₁ := (keeps_alternative hM l d m).of_run ha
      have hs₁ := hlearns₁.coherent hs
      have hlearns := (Action.Keeps.mapM ms (keeps_alternative hM l d)).of_run hrest
      obtain ⟨subs, htraces⟩ := alternative_ok hM hs hd ha
      have hd₁ := hd.mono (hlearns₁.world_form hs)
      exact .cons ⟨subs, hlearns.traces hs₁ htraces⟩ (ih hs₁ hd₁ hrest)

end Session

end ChanceProof
