import ChanceProof.Proofs.Evaluation.Account
import ChanceProof.Proofs.Model.Lockstep

/-!
# Accounts under related theses

An account only passes the values of a thesis on: it compares them in `unify` and reads them in
`ground`, and everywhere else one value is like another. So a relation between values that these
two respect is respected by the whole expansion. `Relates` says what has to be shown of such a
relation and of how operations are related, and `Relates.alternatives` and `Relates.expand` are what
follows.
-/

namespace ChanceProof

/-- Claims of one function whose values are related. -/
structure Claim.Related {α β : Type} (R : α → β → Prop) (c : Claim α) (d : Claim β) : Prop where
  function : c.function = d.function
  parameters : List.Forall₂ R c.parameters d.parameters
  result : List.Forall₂ R c.result d.result

structure Thesis.Related (R : Referent → Referent → Prop) (t t' : Thesis) : Prop where
  claim : t.claim.Related R t'.claim
  mappings : List.Forall₂ (Dictionary.Related R) t.mappings t'.mappings

theorem Thesis.Related.names {R : Referent → Referent → Prop} {t t' : Thesis}
    (h : t.Related R t') : t.names = t'.names := by
  have hms := h.mappings
  unfold Thesis.names
  generalize t.mappings = ms at hms
  generalize t'.mappings = ms' at hms
  cases hms with
  | nil => rfl
  | cons hm _ => simp [Dictionary.Related.keys hm]

/-! ## Filling in a sketch -/

namespace Sketch

variable {α β : Type} {R : α → β → Prop} {o : Json → α} {o' : Json → β} (sk : Sketch)
  (ho : ∀ v, R (o v) (o' v))

include ho

theorem fill?_related {results : List (List α)} {results' : List (List β)}
    (h : List.Forall₂ (List.Forall₂ R) results results') (item : Item) :
    sk.fill? o results item = none ∧ sk.fill? o' results' item = none ∨
      ∃ x y, sk.fill? o results item = some x ∧ sk.fill? o' results' item = some y ∧ R x y := by
  have hplace : ∀ place, place? results place = none ∧ place? results' place = none ∨
      ∃ x y, place? results place = some x ∧ place? results' place = some y ∧ R x y := by
    intro place
    unfold place?
    rcases forall₂_getElem? h place.1 with ⟨hx, hy⟩ | ⟨xs, ys, hx, hy, hxs⟩
    · exact .inl ⟨by rw [hx]; rfl, by rw [hy]; rfl⟩
    · rw [hx, hy]
      exact forall₂_getElem? hxs place.2
  cases item with
  | object v => exact .inr ⟨_, _, rfl, rfl, ho v⟩
  | output call index => exact hplace (call, index)
  | named name =>
      rw [fill?, fill?]
      cases sk.locate? name with
      | none => exact .inl ⟨rfl, rfl⟩
      | some place => exact hplace place

theorem fillAll_related {results : List (List α)} {results' : List (List β)}
    (h : List.Forall₂ (List.Forall₂ R) results results') (items : List Item) :
    Accords Eq (List.Forall₂ R) (sk.fillAll o results items) (sk.fillAll o' results' items) := by
  refine Accords.mapM (List.forall₂_eq_eq_eq ▸ rfl) ?_
  rintro item - _ rfl
  rcases sk.fill?_related ho h item with ⟨hx, hy⟩ | ⟨x, y, hx, hy, hxy⟩
  · rw [hx, hy]
    rfl
  · rw [hx, hy]
    exact hxy

theorem claimsFrom_related {m : String → Option α} {m' : String → Option β}
    (hm : ∀ name, m name = none ∧ m' name = none ∨
      ∃ x y, m name = some x ∧ m' name = some y ∧ R x y)
    {results : List (List α)} {results' : List (List β)}
    (h : List.Forall₂ (List.Forall₂ R) results results') (steps : List Step) :
    Accords Eq (List.Forall₂ (Claim.Related R)) (sk.claimsFrom o m results steps)
      (sk.claimsFrom o' m' results' steps) := by
  induction steps generalizing results results' with
  | nil => exact .nil
  | cons st steps ih =>
      rw [claimsFrom, claimsFrom]
      refine (sk.fillAll_related ho h st.parameters).bind fun ps ps' hps => ?_
      have hnames : Accords Eq (List.Forall₂ R)
          (st.names.mapM fun name => Account.unproven.require (m name))
          (st.names.mapM fun name => Account.unproven.require (m' name)) := by
        refine Accords.mapM (List.forall₂_eq_eq_eq ▸ rfl) ?_
        rintro name - _ rfl
        rcases hm name with ⟨hx, hy⟩ | ⟨x, y, hx, hy, hxy⟩
        · rw [hx, hy]
          rfl
        · rw [hx, hy]
          exact hxy
      refine hnames.bind fun rs rs' hrs => ?_
      refine (ih (List.rel_append h (.cons hrs .nil))).bind fun cs cs' hcs => ?_
      exact List.Forall₂.cons ⟨rfl, hps, hrs⟩ hcs

theorem returned_related {cs : List (Claim α)} {cs' : List (Claim β)}
    (h : List.Forall₂ (Claim.Related R) cs cs') :
    Accords Eq (List.Forall₂ R) (sk.returned o cs) (sk.returned o' cs') :=
  sk.fillAll_related ho (List.forall₂_map_left_iff.2
    (List.forall₂_map_right_iff.2 (h.imp fun _ _ h => h.result))) sk.result

end Sketch

namespace Account

/-! ## Bindings grow -/

/-- Bindings found later stand behind those found before. -/
def Extends (a a' : Account) : Prop := a.bindings <+: a'.bindings

instance : Std.Refl Extends := ⟨fun _ => List.prefix_rfl⟩

instance : IsTrans Account Extends := ⟨fun _ _ _ h h' => h.trans h'⟩

section

variable (sketchOf : Expander) (E : Json → Json → Prop) [DecidableRel E]

theorem extends_ground (r : Referent) : (ground r).Keeps Extends := by
  unfold ground
  refine .bind .get fun a => ?_
  split
  · exact .pure _
  · exact .throw _

theorem extends_groundClaim (c : Claim Referent) : (groundClaim c).Keeps Extends :=
  (Action.Keeps.mapM _ extends_ground).bind fun _ =>
    (Action.Keeps.mapM _ extends_ground).bind fun _ => .pure _

theorem extends_modify {f : Account → Account} (h : ∀ a, a.bindings <+: (f a).bindings) :
    (modify f : Action Account Unit).Keeps Extends :=
  fun a => h a

theorem extends_unify (p m : Referent) : (unify E p m).Keeps Extends := by
  unfold unify
  refine .bind .get fun a => ?_
  split
  · split
    · exact .pure ()
    · exact .throw _
  · exact extends_modify fun a => List.prefix_append _ _
  · exact extends_modify fun a => List.prefix_append _ _
  · split
    · exact .pure ()
    · exact .throw _

theorem extends_unifyEach (ps ms : List Referent) : (unifyEach E ps ms).Keeps Extends := by
  induction ps generalizing ms with
  | nil => exact .pure ()
  | cons p ps ih =>
      cases ms with
      | nil => exact .pure ()
      | cons m ms => exact (extends_unify E p m).bind fun _ => ih ms

theorem extends_unifyAll (ps ms : List Referent) : (unifyAll E ps ms).Keeps Extends := by
  unfold unifyAll
  split
  · exact .throw _
  · exact extends_unifyEach E ps ms

theorem extends_verify (result : List Referent) (sk : Sketch) (cs : List (Claim Referent)) :
    (verify E result sk cs).Keeps Extends :=
  .bind (.liftM _) fun _ => extends_unifyAll E _ _

theorem extends_alternative (result : List Referent) (sk : Sketch) (m : Dictionary Referent) :
    (alternative E result sk m).Keeps Extends :=
  .bind (.liftM _) fun cs => (extends_verify E result sk cs).bind fun _ =>
    .mapM _ extends_groundClaim

theorem extends_alternatives (t : Thesis) (parameters : List Json) :
    (alternatives sketchOf E t parameters).Keeps Extends :=
  .bind (.liftM _) fun sk => .bind (.liftM _) fun _ => .mapM _ (extends_alternative E _ sk)

theorem extends_add (l : PortableLabel) (as : List (List PortableLabel)) :
    (add l as).Keeps Extends := by
  intro a
  have hentry : a.bindings <+: (a.withEntry l).bindings := by simp
  rw [run_add]
  split
  · exact hentry
  · exact hentry

theorem extends_prove (l : PortableLabel) :
    (modify fun a => { a with proved := a.proved ++ [l] } : Action Account Unit).Keeps Extends :=
  extends_modify fun _ => List.prefix_rfl

theorem extends_record (c : Claim Referent) (parameters : List Json)
    (as : PortableLabel → List (List PortableLabel)) : (record c parameters as).Keeps Extends :=
  (Action.Keeps.mapM _ extends_ground).bind fun _ => (extends_add _ _).bind fun _ =>
    (extends_prove _).bind fun _ => .pure _

theorem extends_expand (t : Thesis) : (expand sketchOf E t).Keeps Extends := by
  refine (Action.Keeps.mapM _ extends_ground).bind fun vs => ?_
  split
  · split
    · exact .throw _
    · exact extends_record _ _ _
  · exact (extends_alternatives sketchOf E t vs).bind fun as => extends_record _ _ _

theorem extends_expandAll (ts : List Thesis) : (expandAll sketchOf E ts).Keeps Extends := by
  induction ts with
  | nil => exact .pure ()
  | cons t ts ih =>
      exact ((extends_expand sketchOf E t).bind fun _ => .pure _).bind fun _ => ih

end

/-! ## Related operations -/

/-- Operations on accounts that are related by `L` when their answers are, in a way that respects a
relation `R` between values. -/
structure Relates (E : Json → Json → Prop) [DecidableRel E] (R : Referent → Referent → Prop)
    (L : {α β : Type} → (α → β → Prop) → Action Account α → Action Account β → Prop) : Prop where
  pure {α β : Type} {Q : α → β → Prop} {u : α} {v : β} (h : Q u v) : L Q (pure u) (pure v)
  throw {α β : Type} {Q : α → β → Prop} (f : Failure) : L Q (throw f) (throw f)
  bind {α β γ δ : Type} {Q : α → β → Prop} {Q' : γ → δ → Prop} {x : Action Account α}
    {y : Action Account β} {f : α → Action Account γ} {g : β → Action Account δ} (h : L Q x y)
    (hgrow : ∀ u, (f u).Keeps Extends) (hf : ∀ u v, Q u v → L Q' (f u) (g v)) :
    L Q' (x >>= f) (y >>= g)
  object (v : Json) : R (.object v) (.object v)
  ground {r r' : Referent} (h : R r r') : L Eq (ground r) (ground r')
  unify {p p' m m' : Referent} (hp : R p p') (hm : R m m') :
    L (fun _ _ => True) (unify E p m) (unify E p' m')

/-- Recording is related, too. -/
structure Relates.Records (L : {α β : Type} → (α → β → Prop) → Action Account α →
    Action Account β → Prop) : Prop where
  add (l : PortableLabel) (as : List (List PortableLabel)) :
    L (fun _ _ => True) (add l as) (add l as)
  prove (l : PortableLabel) : L (fun _ _ => True)
    (modify fun a => { a with proved := a.proved ++ [l] } : Action Account Unit)
    (modify fun a => { a with proved := a.proved ++ [l] } : Action Account Unit)

namespace Relates

variable {E : Json → Json → Prop} [DecidableRel E] {R : Referent → Referent → Prop}
  {L : {α β : Type} → (α → β → Prop) → Action Account α → Action Account β → Prop}
  (hL : Relates E R L)

include hL

theorem liftM {α β : Type} {Q : α → β → Prop} {x : Except Failure α} {y : Except Failure β}
    (h : Accords Eq Q x y) : L Q (liftM x) (liftM y) := by
  cases x with
  | error f =>
      cases y with
      | error g =>
          obtain rfl : f = g := h
          exact hL.throw f
      | ok v => exact h.elim
  | ok u =>
      cases y with
      | error g => exact h.elim
      | ok v => exact hL.pure h

theorem mapM {α β γ : Type} {S : α → β → Prop} {f : α → Action Account γ}
    {g : β → Action Account γ} (hgrow : ∀ x, (f x).Keeps Extends)
    (hf : ∀ x y, S x y → L Eq (f x) (g y)) {xs : List α} {ys : List β} (h : List.Forall₂ S xs ys) :
    L Eq (xs.mapM f) (ys.mapM g) := by
  induction h with
  | nil => exact hL.pure rfl
  | @cons x y xs ys hxy _ ih =>
      rw [List.mapM_cons, List.mapM_cons]
      refine hL.bind (hf x y hxy) (fun _ => (Action.Keeps.mapM xs hgrow).bind fun _ => .pure _) ?_
      rintro u _ rfl
      refine hL.bind ih (fun _ => .pure _) ?_
      rintro us _ rfl
      exact hL.pure rfl

theorem groundAll {rs rs' : List Referent} (h : List.Forall₂ R rs rs') :
    L Eq (rs.mapM Account.ground) (rs'.mapM Account.ground) :=
  hL.mapM extends_ground (fun _ _ h => hL.ground h) h

theorem groundClaim {c c' : Claim Referent} (h : c.Related R c') :
    L Eq (Account.groundClaim c) (Account.groundClaim c') := by
  refine hL.bind (hL.groundAll h.parameters)
    (fun _ => (Action.Keeps.mapM _ extends_ground).bind fun _ => .pure _) ?_
  rintro ps _ rfl
  refine hL.bind (hL.groundAll h.result) (fun _ => .pure _) ?_
  rintro rs _ rfl
  rw [h.function]
  exact hL.pure rfl

theorem unifyEach {ps ps' ms ms' : List Referent} (hp : List.Forall₂ R ps ps')
    (hm : List.Forall₂ R ms ms') :
    L (fun _ _ => True) (Account.unifyEach E ps ms) (Account.unifyEach E ps' ms') := by
  induction hp generalizing ms ms' with
  | nil => exact hL.pure trivial
  | cons hpp _ ih =>
      cases hm with
      | nil => exact hL.pure trivial
      | cons hmm hms =>
          exact hL.bind (hL.unify hpp hmm) (fun _ => extends_unifyEach E _ _) fun _ _ _ => ih hms

theorem unifyAll {ps ps' ms ms' : List Referent} (hp : List.Forall₂ R ps ps')
    (hm : List.Forall₂ R ms ms') :
    L (fun _ _ => True) (Account.unifyAll E ps ms) (Account.unifyAll E ps' ms') := by
  unfold Account.unifyAll
  rw [hp.length_eq, hm.length_eq]
  split
  · exact hL.throw _
  · exact hL.unifyEach hp hm

theorem verify {result result' : List Referent} (hr : List.Forall₂ R result result') (sk : Sketch)
    {cs cs' : List (Claim Referent)} (hcs : List.Forall₂ (Claim.Related R) cs cs') :
    L (fun _ _ => True) (Account.verify E result sk cs) (Account.verify E result' sk cs') :=
  hL.bind (hL.liftM (sk.returned_related hL.object hcs)) (fun _ => extends_unifyAll E _ _)
    fun _ _ hvs => hL.unifyAll hr hvs

theorem alternative {result result' : List Referent} (hr : List.Forall₂ R result result')
    (sk : Sketch) {m m' : Dictionary Referent} (hm : m.Related R m') :
    L Eq (Account.alternative E result sk m) (Account.alternative E result' sk m') := by
  have hclaims := sk.claimsFrom_related hL.object hm.get? .nil sk.steps
  refine hL.bind (hL.liftM hclaims)
    (fun _ => (extends_verify E _ _ _).bind fun _ => .mapM _ extends_groundClaim)
    fun cs cs' hcs => ?_
  refine hL.bind (hL.verify hr sk hcs) (fun _ => .mapM _ extends_groundClaim) fun _ _ _ => ?_
  exact hL.mapM extends_groundClaim (fun _ _ h => hL.groundClaim h) hcs

/-- Related theses yield the same alternatives. -/
theorem alternatives {t t' : Thesis} (h : t.Related R t') (sketchOf : Expander)
    (parameters : List Json) : L Eq (Account.alternatives sketchOf E t parameters)
      (Account.alternatives sketchOf E t' parameters) := by
  unfold Account.alternatives
  rw [← h.claim.function]
  have hsketch : Accords Eq Eq (sketchOf t.claim.function parameters)
      (sketchOf t.claim.function parameters) := by
    cases sketchOf t.claim.function parameters <;> rfl
  refine hL.bind (hL.liftM hsketch)
    (fun _ => .bind (.liftM _) fun _ => .mapM _ (extends_alternative E _ _)) ?_
  rintro sk _ rfl
  have hnames : Accords Eq (fun _ _ => True) (checkNames t sk) (checkNames t' sk) := by
    have hempty : t.mappings.isEmpty = t'.mappings.isEmpty := by
      rw [Bool.eq_iff_iff, List.isEmpty_iff_length_eq_zero, List.isEmpty_iff_length_eq_zero,
        h.mappings.length_eq]
    unfold checkNames
    rw [h.names, hempty]
    split
    · trivial
    · rfl
  refine hL.bind (hL.liftM hnames) (fun _ => .mapM _ (extends_alternative E _ _)) fun _ _ _ => ?_
  exact hL.mapM (extends_alternative E _ sk) (fun _ _ h' => hL.alternative h.claim.result sk h')
    h.mappings

variable (hrec : Records L)

include hrec

theorem record {c c' : Claim Referent} (h : c.Related R c') (parameters : List Json)
    (as : PortableLabel → List (List PortableLabel)) :
    L Eq (Account.record c parameters as) (Account.record c' parameters as) := by
  unfold Account.record
  refine hL.bind (hL.groundAll h.result) (fun _ => (extends_add _ _).bind fun _ =>
    (extends_prove _).bind fun _ => .pure _) ?_
  rintro rs _ rfl
  rw [h.function]
  refine hL.bind (hrec.add _ _)
    (fun _ => (extends_prove _).bind fun _ => .pure _) fun _ _ _ => ?_
  exact hL.bind (hrec.prove _) (fun _ => .pure _) fun _ _ _ => hL.pure rfl

/-- Related theses are expanded alike. -/
theorem expand {t t' : Thesis} (h : t.Related R t') (sketchOf : Expander) :
    L Eq (Account.expand sketchOf E t) (Account.expand sketchOf E t') := by
  unfold Account.expand
  refine hL.bind (hL.groundAll h.claim.parameters) (fun vs => ?_) ?_
  · split
    · split
      · exact .throw _
      · exact extends_record _ _ _
    · exact (extends_alternatives sketchOf E t vs).bind fun as => extends_record _ _ _
  rintro vs _ rfl
  have hempty : t.mappings.isEmpty = t'.mappings.isEmpty := by
    rw [Bool.eq_iff_iff, List.isEmpty_iff_length_eq_zero, List.isEmpty_iff_length_eq_zero,
      h.mappings.length_eq]
  rw [← h.claim.function, ← hempty]
  split
  · split
    · exact hL.throw _
    · exact hL.record hrec h.claim vs _
  · refine hL.bind (hL.alternatives h sketchOf vs) (fun as => extends_record _ _ _) ?_
    rintro as _ rfl
    exact hL.record hrec h.claim vs _

/-- Lists of related theses are accepted alike. -/
theorem expandAll {ts ts' : List Thesis} (h : List.Forall₂ (Thesis.Related R) ts ts')
    (sketchOf : Expander) : L (fun _ _ => True) (Account.expandAll sketchOf E ts)
      (Account.expandAll sketchOf E ts') := by
  induction h with
  | nil => exact hL.pure trivial
  | cons ht _ ih =>
      refine hL.bind (Q := fun _ _ => True) ?_ (fun _ => extends_expandAll sketchOf E _)
        fun _ _ _ => ih
      exact hL.bind (hL.expand hrec ht sketchOf) (fun _ => .pure _) fun _ _ _ => hL.pure trivial

end Relates

end Account

end ChanceProof
