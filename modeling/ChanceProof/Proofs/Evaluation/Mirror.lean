import ChanceProof.Proofs.Evaluation.Account
import ChanceProof.Proofs.Evaluation.Exhaustive
import ChanceProof.Proofs.Model.Lockstep

/-!
# A session does what its account does

Every session over a model that keeps its promises has an account, which tells what the session has
learnt by forms instead of handles (`Tells`). The session and the account go in lock step: whatever
proof the session is given, as long as its literals are live, the account has the same success or
failure with the thesis that the proof stands for (`expand_mirrors`).

So nothing that a session finds depends on the handles that name its objects, on what else is in the
store, on which distributions were remembered, or on how often the model was asked.
-/

namespace ChanceProof

/-- The value says what the referent says. -/
inductive Value.Means (φ : Handle → Option Json) : Value → Referent → Prop
  | object {h : Handle} {v : Json} (hform : φ h = some v) : Means φ (.literal h) (.object v)
  | unknown {name : String} : Means φ (.unknown name) (.unknown name)

/-- The label makes the claim, with related values. -/
structure Label.Related {α : Type} (R : Value → α → Prop) (l : Label) (c : Claim α) : Prop where
  function : l.call.function = c.function
  parameters : List.Forall₂ R l.call.parameters c.parameters
  result : List.Forall₂ R l.result c.result

abbrev Label.Means (φ : Handle → Option Json) : Label → Claim Referent → Prop :=
  Label.Related (Value.Means φ)

/-- The mappings give values that mean the same to the same names. -/
abbrev Mapping.Means (φ : Handle → Option Json) : Mapping → Dictionary Referent → Prop :=
  Dictionary.Related (Value.Means φ)

structure Proof.Means (φ : Handle → Option Json) (p : Proof) (t : Thesis) : Prop where
  label : p.label.Means φ t.claim
  mappings : List.Forall₂ (Mapping.Means φ) p.mappings t.mappings

section

variable {φ ψ : Handle → Option Json} (hle : ∀ h v, φ h = some v → ψ h = some v)

include hle

theorem Value.Means.mono {v : Value} {r : Referent} (h : v.Means φ r) : v.Means ψ r := by
  cases h with
  | object hform => exact .object (hle _ _ hform)
  | unknown => exact .unknown

theorem Label.Means.mono {l : Label} {c : Claim Referent} (h : l.Means φ c) : l.Means ψ c :=
  ⟨h.function, h.parameters.imp fun _ _ => .mono hle, h.result.imp fun _ _ => .mono hle⟩

theorem Mapping.Means.mono {m : Mapping} {m' : Dictionary Referent} (h : m.Means φ m') :
    m.Means ψ m' :=
  List.Forall₂.imp (fun _ _ h => ⟨h.1, h.2.mono hle⟩) h

theorem Proof.Means.mono {p : Proof} {t : Thesis} (h : p.Means φ t) : p.Means ψ t :=
  ⟨h.label.mono hle, h.mappings.imp fun _ _ => .mono hle⟩

end

theorem Proof.Means.names {φ : Handle → Option Json} {p : Proof} {t : Thesis} (h : p.Means φ t) :
    p.names = t.names := by
  have hms := h.mappings
  unfold Proof.names Thesis.names
  generalize p.mappings = ms at hms
  generalize t.mappings = ms' at hms
  cases hms with
  | nil => rfl
  | cons hm _ => simp [Dictionary.Related.keys hm]

/-! ## Filling in a sketch -/

section Fill

variable {φ : Handle → Option Json} {sk : Sketch} {α : Type} {object : Json → α}
  {R : Value → α → Prop}

theorem Walk.resolve_fill {w : Walk} {results : List (List α)} (hd : w.distribution.Reads φ sk)
    (hw : List.Forall₂ (List.Forall₂ R) w.results results)
    (hobject : ∀ h v, φ h = some v → R (.literal h) (object v)) {v : Value} {item : Item}
    (hv : v.Reads φ item) :
    (∃ d, w.resolve v = .error d) ∧ sk.fill? object results item = none ∨
      ∃ v' x, w.resolve v = .ok v' ∧ sk.fill? object results item = some x ∧ R v' x := by
  have hplace : ∀ place, w.bound? place = none ∧ Sketch.place? results place = none ∨
      ∃ v x, w.bound? place = some v ∧ Sketch.place? results place = some x ∧ R v x := by
    intro place
    unfold Walk.bound? Sketch.place?
    rcases forall₂_getElem? hw place.1 with ⟨hx, hy⟩ | ⟨vs, xs, hx, hy, hvs⟩
    · exact .inl ⟨by rw [hx]; rfl, by rw [hy]; rfl⟩
    · rw [hx, hy]
      rcases forall₂_getElem? hvs place.2 with ⟨hv, hj⟩ | ⟨v, x, hv, hj, hvx⟩
      · exact .inl ⟨hv, hj⟩
      · exact .inr ⟨v, x, hv, hj, hvx⟩
  cases hv with
  | literal hform => exact .inr ⟨_, _, rfl, rfl, hobject _ _ hform⟩
  | @output call index =>
      rw [Sketch.fill?, Walk.resolve]
      rcases hplace (call, index) with ⟨hx, hy⟩ | ⟨v, x, hx, hy, hvx⟩
      · exact .inl ⟨⟨_, by rw [hx]⟩, hy⟩
      · exact .inr ⟨v, x, by rw [hx], hy, hvx⟩
  | @named name =>
      rw [Sketch.fill?, Walk.resolve, hd.locate?]
      cases sk.locate? name with
      | none => exact .inl ⟨⟨_, rfl⟩, rfl⟩
      | some place =>
          rcases hplace place with ⟨hx, hy⟩ | ⟨v, x, hx, hy, hvx⟩
          · exact .inl ⟨⟨.early (.named name), by simp only [hx]⟩, hy⟩
          · exact .inr ⟨v, x, by simp only [hx], hy, hvx⟩

theorem Walk.resolveAll_fill {w : Walk} {results : List (List α)} (hd : w.distribution.Reads φ sk)
    (hw : List.Forall₂ (List.Forall₂ R) w.results results)
    (hobject : ∀ h v, φ h = some v → R (.literal h) (object v)) {vs : List Value}
    {items : List Item} (hvs : List.Forall₂ (Value.Reads φ) vs items) :
    (∃ d, vs.mapM w.resolve = .error d) ∧
        sk.fillAll object results items = .error Account.misshapen ∨
      ∃ vs' xs, vs.mapM w.resolve = .ok vs' ∧ sk.fillAll object results items = .ok xs ∧
        List.Forall₂ R vs' xs := by
  unfold Sketch.fillAll
  induction hvs with
  | nil => exact .inr ⟨[], [], rfl, rfl, .nil⟩
  | cons hv _ ih =>
      rw [List.mapM_cons, List.mapM_cons]
      rcases Walk.resolve_fill hd hw hobject hv with ⟨⟨e, hx⟩, hy⟩ | ⟨v', x, hx, hy, hvx⟩
      · exact .inl ⟨⟨e, by rw [hx]; rfl⟩, by rw [hy]; rfl⟩
      · rw [hx, hy, Failure.require]
        rcases ih with ⟨⟨e, hx'⟩, hy'⟩ | ⟨vs', xs, hx', hy', hvs'⟩
        · exact .inl ⟨⟨e, by rw [hx']; rfl⟩, by rw [hy']; rfl⟩
        · exact .inr ⟨v' :: vs', x :: xs, by rw [hx']; rfl, by rw [hy']; rfl, .cons hvx hvs'⟩

end Fill

section Claims

variable {φ : Handle → Option Json} {F : Failure → Failure → Prop} {α : Type} {object : Json → α}
  {R : Value → α → Prop} (hF : ∀ {f g : Failure}, f.kind = g.kind → F f g)
  {m : Mapping} {m' : Dictionary α} (hm : Dictionary.Related R m m')

include hF hm

theorem accords_mapped (l : Label) (names : List String) :
    Accords F (List.Forall₂ R) (names.mapM (Session.mapped l m))
      (names.mapM fun name => Account.unproven.require (m'.get? name)) := by
  refine Accords.mapM (List.forall₂_eq_eq_eq ▸ rfl) ?_
  rintro name - _ rfl
  unfold Session.mapped
  rcases hm.get? name with ⟨hv, hr⟩ | ⟨v, r, hv, hr, hvr⟩
  · rw [hv, hr]
    exact hF rfl
  · rw [hv, hr]
    exact hvr

/-- A mapping fills in a distribution as a related one fills in the sketch. -/
theorem accords_claimsFrom (hobject : ∀ h v, φ h = some v → R (.literal h) (object v)) (l : Label)
    {w : Walk} {sk : Sketch} {as : List Assignment} {steps : List Step} {results : List (List α)}
    (hd : w.distribution.Reads φ sk) (has : List.Forall₂ (Assignment.Reads φ) as steps)
    (hnext : w.distribution.assignments.drop w.results.length = as)
    (hw : List.Forall₂ (List.Forall₂ R) w.results results) :
    Accords F (List.Forall₂ (Label.Related R)) (Session.claimsFrom l m w as)
      (sk.claimsFrom object m'.get? results steps) := by
  induction has generalizing w results with
  | nil => exact .nil
  | @cons a st as steps hast _ ih =>
      have hcur : w.next? = some a := by
        rw [Walk.next?, ← List.head?_drop, hnext, List.head?_cons]
      have htail : w.distribution.assignments.drop (w.results.length + 1) = as := by
        rw [← List.tail_drop, hnext, List.tail_cons]
      rw [Session.claimsFrom, Sketch.claimsFrom, Walk.resolveCall]
      rcases Walk.resolveAll_fill hd hw hobject hast.parameters with
        ⟨⟨e, hx⟩, hy⟩ | ⟨ps, rs, hx, hy, hps⟩
      · rw [hx, hy]
        exact hF rfl
      rw [hx, hy]
      rw [← hast.names]
      have hmapped := (accords_mapped hF hm l a.names).and_left
        fun vs hvs => (Session.mapM_mapped_ok hvs).length_eq
      refine hmapped.bind fun vs rs' h => ?_
      obtain ⟨hlength, hvs⟩ := h
      have hbind : w.bind vs = .ok { w with results := w.results ++ [vs] } :=
        Walk.bind_eq_ok_iff.2 ⟨⟨a, hcur, hlength⟩, rfl⟩
      rw [hbind]
      refine Accords.bind (R := List.Forall₂ (Label.Related R)) ?_ fun cs cs' hcs =>
        .cons ⟨hast.function, hps, hvs⟩ hcs
      refine ih (w := { w with results := w.results ++ [vs] }) hd ?_
        (List.rel_append hw (.cons hvs .nil))
      rw [List.length_append, List.length_singleton]
      exact htail

end Claims

theorem checkValue_of_means {φ : Handle → Option Json} {v : Value} {r : Referent}
    (h : v.Means φ r) : Proof.checkValue v = .ok () := by
  cases h with
  | object => rfl
  | unknown => rfl

namespace Session

variable {σ : Type} {M : Model σ} {I : σ → Prop} {expand : Expander} {E : Json → Json → Prop}

/-! ## The account of a session -/

/-- The value is the canonical literal of the object. -/
def Denotes (M : Model σ) (s : Session σ) (v : Value) (j : Json) : Prop :=
  ∃ c, v = .literal c ∧ s.IsCanonical c ∧ M.form? s.world c = some j

/-- The canonical label says what the portable label says. -/
structure Says (M : Model σ) (s : Session σ) (l : Label) (pl : PortableLabel) : Prop where
  function : l.call.function = pl.function
  parameters : List.Forall₂ (s.Denotes M) l.call.parameters pl.parameters
  result : List.Forall₂ (s.Denotes M) l.result pl.result

structure Lists (M : Model σ) (s : Session σ) (e : Entry) (e' : Account.Entry) : Prop where
  label : s.Says M e.label e'.label
  alternatives : List.Forall₂ (List.Forall₂ (s.Says M)) e.alternatives e'.alternatives

/-- The same names are bound, to handles and to their forms. -/
def SameBound (φ : Handle → Option Json) (bs : List (String × Handle))
    (bs' : List (String × Json)) : Prop :=
  ∀ x, bs.lookup x = none ∧ bs'.lookup x = none ∨
    ∃ h v, bs.lookup x = some h ∧ bs'.lookup x = some v ∧ φ h = some v

theorem SameBound.mono {φ ψ : Handle → Option Json} (hle : ∀ h v, φ h = some v → ψ h = some v)
    {bs : List (String × Handle)} {bs' : List (String × Json)} (h : SameBound φ bs bs') :
    SameBound ψ bs bs' := fun x =>
  (h x).imp id fun ⟨c, v, hc, hv, hform⟩ => ⟨c, v, hc, hv, hle c v hform⟩

theorem SameBound.bind_lookup {φ : Handle → Option Json} {bs : List (String × Handle)}
    {bs' : List (String × Json)} (h : SameBound φ bs bs') (x : String) :
    (bs.lookup x).bind φ = bs'.lookup x := by
  rcases h x with ⟨hx, hx'⟩ | ⟨c, v, hx, hx', hv⟩
  · rw [hx, hx']
    rfl
  · rw [hx, hx']
    exact hv

theorem SameBound.append {φ : Handle → Option Json} {bs : List (String × Handle)}
    {bs' : List (String × Json)} (h : SameBound φ bs bs') (name : String) {c : Handle} {v : Json}
    (hv : φ c = some v) : SameBound φ (bs ++ [(name, c)]) (bs' ++ [(name, v)]) := by
  intro x
  rw [List.lookup_append, List.lookup_append]
  rcases h x with ⟨hx, hx'⟩ | ⟨d, w, hx, hx', hform⟩ <;> rw [hx, hx']
  · simp only [Option.none_or, List.lookup_cons]
    split
    · exact .inr ⟨c, v, rfl, rfl, hv⟩
    · exact .inl ⟨rfl, rfl⟩
  · exact .inr ⟨d, w, rfl, rfl, hform⟩

structure Tells (M : Model σ) (I : σ → Prop) (expand : Expander) (s : Session σ) (a : Account) :
    Prop where
  coherent : s.Coherent M I expand
  bindings : SameBound (M.form? s.world) s.bindings a.bindings
  entries : List.Forall₂ (s.Lists M) s.entries a.entries
  proved : List.Forall₂ (s.Says M) s.proved a.proved

/-- An account that also lists the unknowns in the order in which their values were found. -/
structure TellsInOrder (M : Model σ) (I : σ → Prop) (expand : Expander) (s : Session σ)
    (a : Account) : Prop extends s.Tells M I expand a where
  names : s.boundNames = a.bindings.map (·.1)
  distinct : s.boundNames.Nodup

/-- What no operation takes back, whether it succeeds or fails. -/
structure Grows (M : Model σ) (s s' : Session σ) : Prop where
  forms : ∀ h v, M.form? s.world h = some v → M.form? s'.world h = some v
  canonicalOf : ∀ h c, s.canonicalOf.lookup h = some c → s'.canonicalOf.lookup h = some c
  settings : s'.settings = s.settings

theorem Grows.refl (s : Session σ) : Grows M s s := ⟨fun _ _ h => h, fun _ _ h => h, rfl⟩

theorem Grows.trans {s s' s'' : Session σ} (h : Grows M s s') (h' : Grows M s' s'') :
    Grows M s s'' :=
  ⟨fun a v ha => h'.forms a v (h.forms a v ha),
    fun a c ha => h'.canonicalOf a c (h.canonicalOf a c ha), h'.settings.trans h.settings⟩

instance : Std.Refl (Grows M) := ⟨Grows.refl⟩

instance : IsTrans (Session σ) (Grows M) := ⟨fun _ _ _ => Grows.trans⟩

theorem grows_recording (s : Session σ) (es : List Entry) (ls : List Label) :
    Grows M s { s with entries := es, proved := ls } :=
  ⟨fun _ _ h => h, fun _ _ h => h, rfl⟩

theorem Learns.grows {s s' : Session σ} (h : Learns M I expand s s') (hs : s.Coherent M I expand) :
    Grows M s s' :=
  ⟨h.world_form hs, h.canonicalOf, h.settings⟩

theorem Denotes.mono {s s' : Session σ} (hforms : ∀ h v, M.form? s.world h = some v →
      M.form? s'.world h = some v)
    (hcanonical : ∀ h c, s.canonicalOf.lookup h = some c → s'.canonicalOf.lookup h = some c)
    {v : Value} {j : Json} (hv : s.Denotes M v j) : s'.Denotes M v j := by
  obtain ⟨c, rfl, hc, hj⟩ := hv
  exact ⟨c, rfl, hcanonical c c hc, hforms c j hj⟩

theorem Grows.denotes {s s' : Session σ} (h : Grows M s s') {v : Value} {j : Json}
    (hv : s.Denotes M v j) : s'.Denotes M v j :=
  hv.mono h.forms h.canonicalOf

theorem Grows.saying {s s' : Session σ} (h : Grows M s s') {l : Label} {pl : PortableLabel}
    (hl : s.Says M l pl) : s'.Says M l pl :=
  ⟨hl.function, hl.parameters.imp fun _ _ => h.denotes, hl.result.imp fun _ _ => h.denotes⟩

theorem Grows.lists {s s' : Session σ} (h : Grows M s s') {e : Entry} {e' : Account.Entry}
    (he : s.Lists M e e') : s'.Lists M e e' :=
  ⟨h.saying he.label, he.alternatives.imp fun _ _ ha => ha.imp fun _ _ => h.saying⟩

theorem Says.canonical {s : Session σ} {l : Label} {pl : PortableLabel} (h : s.Says M l pl) :
    s.Canonical l := by
  intro v hv
  rcases List.mem_append.1 hv with hv | hv
  · obtain ⟨j, -, c, rfl, hc, -⟩ := exists_of_forall₂_mem h.parameters.flip hv
    exact ⟨c, rfl, hc⟩
  · obtain ⟨j, -, c, rfl, hc, -⟩ := exists_of_forall₂_mem h.result.flip hv
    exact ⟨c, rfl, hc⟩

theorem Says.reads {s : Session σ} {l : Label} {pl : PortableLabel} (h : s.Says M l pl) :
    l.Reads (literalForm? (M.form? s.world)) pl := by
  have hforms : ∀ {vs : List Value} {js : List Json}, List.Forall₂ (s.Denotes M) vs js →
      List.Forall₂ (fun v j => literalForm? (M.form? s.world) v = some j) vs js := fun h =>
    h.imp fun v j ⟨c, hv, _, hj⟩ => by rw [hv]; exact hj
  exact ⟨h.function, hforms h.parameters, hforms h.result⟩

theorem Says.reads_form? {s : Session σ} {l : Label} {pl : PortableLabel} (h : s.Says M l pl) :
    l.Reads (s.form? M) pl := by
  have hforms : ∀ {vs : List Value} {js : List Json}, List.Forall₂ (s.Denotes M) vs js →
      List.Forall₂ (fun v j => s.form? M v = some j) vs js := fun h =>
    h.imp fun v j ⟨c, hv, _, hj⟩ => by rw [hv]; exact hj
  exact ⟨h.function, hforms h.parameters, hforms h.result⟩

theorem says_of_reads {s : Session σ} {l : Label} (hl : s.Canonical l) {pl : PortableLabel}
    (h : l.Reads (s.form? M) pl) : s.Says M l pl := by
  have hdenotes : ∀ {vs : List Value} {js : List Json}, (∀ v ∈ vs, v ∈ l.values) →
      List.Forall₂ (fun v j => s.form? M v = some j) vs js →
      List.Forall₂ (s.Denotes M) vs js := by
    intro vs js hvs hforms
    refine ((List.forall₂_and_left _ _).2 ⟨hvs, hforms⟩).imp fun v j ⟨hv, hj⟩ => ?_
    obtain ⟨c, rfl, hc⟩ := hl v hv
    exact ⟨c, rfl, hc, hj⟩
  exact ⟨h.function, hdenotes (fun _ => List.mem_append_left _) h.parameters,
    hdenotes (fun _ => List.mem_append_right _) h.result⟩

/-- Labels of a session are equal just when they say the same. -/
theorem Coherent.says_inj {s : Session σ} (hs : s.Coherent M I expand) {l m : Label}
    {pl qm : PortableLabel} (hl : s.Says M l pl) (hm : s.Says M m qm) : l = m ↔ pl = qm := by
  constructor
  · rintro rfl
    exact reads_unique hl.reads_form? hm.reads_form?
  · rintro rfl
    exact hs.label_inj hl.canonical hm.canonical hl.reads_form? hm.reads_form?

/-- Learning keeps an account as long as no unknown is found. -/
theorem Tells.learns {s s' : Session σ} {a : Account} (h : s.Tells M I expand a)
    (hle : Learns M I expand s s') (hbindings : s'.bindings = s.bindings) :
    s'.Tells M I expand a := by
  have hgrows := hle.grows h.coherent
  refine ⟨hle.coherent h.coherent, ?_, ?_, ?_⟩
  · rw [hbindings]
    exact h.bindings.mono hgrows.forms
  · rw [hle.entries]
    exact h.entries.imp fun _ _ => hgrows.lists
  · rw [hle.proved]
    exact h.proved.imp fun _ _ => hgrows.saying

theorem TellsInOrder.learns {s s' : Session σ} {a : Account} (h : s.TellsInOrder M I expand a)
    (hle : Learns M I expand s s') (hbindings : s'.bindings = s.bindings) :
    s'.TellsInOrder M I expand a := by
  have hnames : s'.boundNames = s.boundNames := by rw [boundNames, hbindings, boundNames]
  refine ⟨h.toTells.learns hle hbindings, ?_, hle.distinct h.distinct⟩
  rw [hnames]
  exact h.names

theorem Tells.resolve {s : Session σ} {a : Account} (h : s.Tells M I expand a) {v : Value}
    {r : Referent} (hv : v.Means (M.form? s.world) r) :
    (s.resolve v).Means (M.form? s.world) (a.resolve r) := by
  cases hv with
  | object hform => exact .object hform
  | @unknown x =>
      unfold Session.resolve Account.resolve binding?
      rcases h.bindings x with ⟨hx, hx'⟩ | ⟨c, v, hx, hx', hform⟩
      · simp only [hx, hx']
        exact .unknown
      · simp only [hx, hx']
        exact .object hform

/-! ## Operations that find no unknown -/

def SameBindings (s s' : Session σ) : Prop := s'.bindings = s.bindings

instance : Std.Refl (SameBindings (σ := σ)) := ⟨fun _ => rfl⟩

instance : IsTrans (Session σ) SameBindings := ⟨fun _ _ _ h h' => h'.trans h⟩

theorem sameBindings_ask {α : Type} (x : Action σ α) : (ask x).Keeps SameBindings := fun _ => rfl

theorem sameBindings_canonical (h : Handle) : (canonical M h).Keeps SameBindings :=
  fun s => bindings_canonical s h

theorem sameBindings_unifyHandles (l : Label) (a b : Handle) :
    (unifyHandles M l a b).Keeps SameBindings := by
  have hdisplay : ∀ h, (display M h).Keeps SameBindings := fun h =>
    .tryCatch ((sameBindings_ask _).bind fun _ => .pure _) fun _ => .pure _
  unfold unifyHandles
  split
  · exact .pure ()
  · refine (sameBindings_ask _).bind fun t => ?_
    split
    · exact .pure ()
    · exact (hdisplay a).bind fun _ => (hdisplay b).bind fun _ => .throw _

theorem sameBindings_distribution (c : Call) : (distribution M c).Keeps SameBindings := by
  intro s
  rw [run_distribution]
  split
  · rfl
  · split <;> rfl

/-! ## Lock step -/

variable {F : Failure → Failure → Prop}

section

variable (hM : M.Meets I expand E) {s : Session σ} {a : Account} (ht : s.TellsInOrder M I expand a)

include hM ht

theorem canonical_denotes {h : Handle} {v : Json} (hv : M.form? s.world h = some v) :
    ∃ c s', (canonical M h).run s = (.ok c, s') ∧ Grows M s s' ∧ s'.TellsInOrder M I expand a ∧
      s'.Denotes M (.literal c) v := by
  obtain ⟨c, s', hr⟩ := canonical_answers hv
  have hlearns := (keeps_canonical hM h).of_run hr
  obtain ⟨-, hc, w, hw, hcw⟩ := canonical_ok hM ht.coherent hr
  cases hw.symm.trans (hlearns.world_form ht.coherent h v hv)
  exact ⟨c, s', hr, hlearns.grows ht.coherent,
    ht.learns hlearns ((sameBindings_canonical h).of_run hr), c, rfl, hc, hcw⟩

variable (hF : ∀ {f g : Failure}, f.kind = g.kind → F f g)

include hF

theorem unifyHandles_mirrors [DecidableRel E] (hrefl : ∀ v, E v v) (l : Label) {h k : Handle}
    {v w : Json} (hv : M.form? s.world h = some v) (hw : M.form? s.world k = some w) :
    (unifyHandles M l h k).Mirrors (Grows M) (TellsInOrder M I expand) F (fun _ _ _ => True)
      (if E v w then return () else throw Account.conflict) s a := by
  have hlearns : Learns M I expand s ((unifyHandles M l h k).run s).2 :=
    keeps_unifyHandles hM l h k s
  have hsame : SameBindings s ((unifyHandles M l h k).run s).2 := sameBindings_unifyHandles l h k s
  have hT := ht.learns hlearns hsame
  have hG := hlearns.grows ht.coherent
  by_cases heq : h = k
  · subst heq
    cases hv.symm.trans hw
    rw [if_pos (hrefl v)]
    have hrun : (unifyHandles M l h h).run s = (.ok (), s) := by simp [unifyHandles]
    exact .of_ok hrun rfl (.refl s) ht trivial
  obtain ⟨t, world, hequal⟩ := hM.isEqual_answers ht.coherent.world hv hw
  have hask := run_ask_ok.2 ⟨world, hequal, rfl⟩
  have htrue : t = true ↔ E v w := by
    rw [hM.isEqual_iff ht.coherent.world hequal]
    constructor
    · rintro ⟨v', w', hv', hw', hE⟩
      cases hv.symm.trans hv'
      cases hw.symm.trans hw'
      exact hE
    · exact fun hE => ⟨v, w, hv, hw, hE⟩
  by_cases hE : E v w
  · have hr : (unifyHandles M l h k).run s = (.ok (), { s with world }) := by
      unfold unifyHandles
      rw [if_neg heq, Action.run_bind_of_ok hask, if_pos (htrue.2 hE)]
      rfl
    rw [hr] at hT hG
    rw [if_pos hE]
    exact .of_ok hr rfl hG hT trivial
  · obtain ⟨x, s₁, hx⟩ := run_display M h { s with world }
    obtain ⟨y, s₂, hy⟩ := run_display M k s₁
    have hr : (unifyHandles M l h k).run s = (.error ((Conflict.objects x y).failure l), s₂) := by
      unfold unifyHandles
      rw [if_neg heq, Action.run_bind_of_ok hask, if_neg (fun h => hE (htrue.1 h)),
        Action.run_bind_of_ok hx, Action.run_bind_of_ok hy]
      rfl
    rw [hr] at hT hG
    rw [if_neg hE]
    exact .of_error hr rfl hG hT (hF rfl)

omit hF in
theorem bind_mirrors {name : String} (hname : s.bindings.lookup name = none) {h : Handle} {v : Json}
    (hv : M.form? s.world h = some v) :
    (bind M name h).Mirrors (Grows M) (TellsInOrder M I expand) F (fun _ _ _ => True)
      (modify fun a => { a with bindings := a.bindings ++ [(name, v)] } : Action Account Unit)
      s a := by
  obtain ⟨c, s', hr, hgrows, ht', hdenotes⟩ := canonical_denotes hM ht hv
  have hbind : (bind M name h).run s
      = (.ok (), { s' with bindings := s'.bindings ++ [(name, c)] }) := by
    unfold bind
    rw [Action.run_bind_of_ok hr]
    rfl
  have hlearns : Learns M I expand s _ := learns_bind hM hname h
  rw [hbind] at hlearns
  obtain ⟨_, hc, -, hcv⟩ := hdenotes
  cases hc
  have hsame : Grows M s' { s' with bindings := s'.bindings ++ [(name, c)] } :=
    ⟨fun _ _ h => h, fun _ _ h => h, rfl⟩
  refine .of_ok hbind rfl (hlearns.grows ht.coherent)
    ⟨⟨hlearns.coherent ht.coherent, ht'.bindings.append name hcv,
      ht'.entries.imp fun _ _ => hsame.lists, ht'.proved.imp fun _ _ => hsame.saying⟩, ?_,
      hlearns.distinct ht.distinct⟩ trivial
  show (s'.bindings ++ [(name, c)]).map (·.1) = (a.bindings ++ [(name, v)]).map (·.1)
  rw [List.map_append, List.map_append]
  exact congrArg (· ++ [name]) ht'.names

theorem unify_mirrors [DecidableRel E] (hrefl : ∀ v, E v v) (l : Label) {p m : Value}
    {p' m' : Referent} (hp : p.Means (M.form? s.world) p') (hm : m.Means (M.form? s.world) m') :
    (unify M l p m).Mirrors (Grows M) (TellsInOrder M I expand) F (fun _ _ _ => True)
      (Account.unify E p' m') s a := by
  have hp' := ht.resolve hp
  have hm' := ht.resolve hm
  have hunbound : ∀ {v : Value} {x : String}, s.resolve v = .unknown x →
      s.bindings.lookup x = none := fun h => (unbound_of_resolve h).2
  have hpx := fun x => hunbound (v := p) (x := x)
  have hmx := fun x => hunbound (v := m) (x := x)
  unfold unify Account.unify
  refine .get ?_
  generalize s.resolve p = v at hp' hpx
  generalize s.resolve m = w at hm' hmx
  generalize a.resolve p' = r at hp'
  generalize a.resolve m' = q at hm'
  cases hp' with
  | object hv =>
      cases hm' with
      | object hw => exact unifyHandles_mirrors hM ht hF hrefl l hv hw
      | @unknown y => exact bind_mirrors hM ht (hmx y rfl) hv
  | @unknown x =>
      cases hm' with
      | object hw => exact bind_mirrors hM ht (hpx x rfl) hw
      | @unknown y =>
          by_cases hxy : x = y
          · simp only [if_pos hxy]
            exact .pure ht trivial
          · simp only [if_neg hxy]
            exact .throw ht (hF rfl)

theorem unifyEach_mirrors [DecidableRel E] (hrefl : ∀ v, E v v) (l : Label) {ps ms : List Value}
    {ps' ms' : List Referent} (hp : List.Forall₂ (Value.Means (M.form? s.world)) ps ps')
    (hm : List.Forall₂ (Value.Means (M.form? s.world)) ms ms') :
    (unifyEach M l ps ms).Mirrors (Grows M) (TellsInOrder M I expand) F (fun _ _ _ => True)
      (Account.unifyEach E ps' ms') s a := by
  induction ps generalizing ps' ms ms' s a with
  | nil =>
      cases hp
      exact .pure ht trivial
  | cons p ps ih =>
      obtain ⟨p', ps', hpp, hps, rfl⟩ := List.forall₂_cons_left_iff.1 hp
      cases hm with
      | nil => exact .pure ht trivial
      | @cons m m' ms ms' hmm hms =>
          unfold unifyEach Account.unifyEach
          refine (unify_mirrors hM ht hF hrefl l hpp hmm).bind fun _ _ s' a' hG hT _ => ?_
          exact ih hT (hps.imp fun _ _ => .mono hG.forms) (hms.imp fun _ _ => .mono hG.forms)

theorem unifyValues_mirrors [DecidableRel E] (hrefl : ∀ v, E v v) (l : Label) {ps ms : List Value}
    {ps' ms' : List Referent} (hp : List.Forall₂ (Value.Means (M.form? s.world)) ps ps')
    (hm : List.Forall₂ (Value.Means (M.form? s.world)) ms ms') :
    (unifyValues M l ps ms).Mirrors (Grows M) (TellsInOrder M I expand) F (fun _ _ _ => True)
      (Account.unifyAll E ps' ms') s a := by
  unfold unifyValues Account.unifyAll
  rw [hp.length_eq, hm.length_eq]
  by_cases hlength : ps'.length = ms'.length
  · simp only [ne_eq, hlength, not_true_eq_false, if_false]
    exact unifyEach_mirrors hM ht hF hrefl l hp hm
  · simp only [ne_eq, hlength, not_false_eq_true, if_true]
    exact .throw ht (hF rfl)

/-! ## Grounding -/

theorem groundValue_mirrors (l : Label) {v : Value} {r : Referent}
    (hv : v.Means (M.form? s.world) r) :
    (groundValue M l v).Mirrors (Grows M) (TellsInOrder M I expand) F
      (fun v j s' => s'.Denotes M v j) (Account.ground r) s a := by
  have hv' := ht.resolve hv
  unfold groundValue Account.ground
  refine .get ?_
  generalize s.resolve v = v' at hv'
  generalize a.resolve r = r' at hv'
  cases hv' with
  | object hform =>
      obtain ⟨c, s', hr, hgrows, ht', hdenotes⟩ := canonical_denotes hM ht hform
      refine .of_ok ((Action.run_bind_of_ok hr).trans ?_) rfl hgrows ht' hdenotes
      rfl
  | unknown => exact .throw ht (hF rfl)

theorem groundValues_mirrors (l : Label) {vs : List Value} {rs : List Referent}
    (hvs : List.Forall₂ (Value.Means (M.form? s.world)) vs rs) :
    (groundValues M l vs).Mirrors (Grows M) (TellsInOrder M I expand) F
      (fun vs js s' => List.Forall₂ (s'.Denotes M) vs js) (rs.mapM Account.ground) s a :=
  .mapM (R := fun v r s => v.Means (M.form? s.world) r) (fun _ _ _ _ hG => .mono hG.forms)
    (fun _ _ _ _ hG => hG.denotes) (fun _ _ _ _ ht => groundValue_mirrors hM ht hF l) ht hvs

theorem groundLabel_mirrors (l : Label) {claim : Label} {c : Claim Referent}
    (hc : claim.Means (M.form? s.world) c) :
    (groundLabel M l claim).Mirrors (Grows M) (TellsInOrder M I expand) F
      (fun g pl s' => s'.Says M g pl) (Account.groundClaim c) s a := by
  unfold groundLabel Account.groundClaim
  refine (groundValues_mirrors hM ht hF l hc.parameters).bind fun ps js s₁ a₁ hG₁ ht₁ hps => ?_
  refine (groundValues_mirrors hM ht₁ hF l (hc.result.imp fun _ _ => .mono hG₁.forms)).bind
    fun rs ks s₂ a₂ hG₂ ht₂ hrs => ?_
  exact .pure ht₂ ⟨hc.function, hps.imp fun _ _ => hG₂.denotes, hrs⟩

theorem groundLabels_mirrors (l : Label) {claims : List Label} {cs : List (Claim Referent)}
    (hcs : List.Forall₂ (Label.Means (M.form? s.world)) claims cs) :
    (claims.mapM (groundLabel M l)).Mirrors (Grows M) (TellsInOrder M I expand) F
      (fun gs pls s' => List.Forall₂ (s'.Says M) gs pls) (cs.mapM Account.groundClaim) s a :=
  .mapM (R := fun l c s => l.Means (M.form? s.world) c) (fun _ _ _ _ hG => .mono hG.forms)
    (fun _ _ _ _ hG => hG.saying) (fun _ _ _ _ ht => groundLabel_mirrors hM ht hF l) ht hcs

end

end Session

end ChanceProof
