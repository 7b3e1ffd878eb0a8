import ChanceProof.Proofs.Distribution.Slots
import ChanceProof.Proofs.Evaluation.Final
import ChanceProof.Proofs.Evaluation.Frame
import ChanceProof.Proofs.Sampling.Refinement

/-!
# Alternatives stay exclusive

What is checked of alternatives are results. But a distribution is a straight-line program: once the
results of its first assignments are known, so is the next call. So two alternatives of one label
agree on calls, not only on results, as far as they go along with each other, and part at one call
that returns differently in each: `Session.Reachable.exclusive`. For this the label has to keep its
distribution, and handles their canonical ones, from one proof to the next; nothing is promised of
the model.
-/

namespace ChanceProof

/-! ## Alternatives follow their distribution -/

/-- Operations one after another: what the answer to one is known to be has to outlast the others.
-/
theorem Action.mapM_forall₂ {σ α β : Type} {G : σ → σ → Prop} [Std.Refl G] [IsTrans σ G]
    {R : α → β → σ → Prop} {f : α → Action σ β} (hG : ∀ x, (f x).Keeps G)
    (hR : ∀ x y s s', G s s' → R x y s → R x y s')
    (hf : ∀ x y s s', (f x).run s = (.ok y, s') → R x y s') {xs : List α} {ys : List β} {s s' : σ}
    (hr : (xs.mapM f).run s = (.ok ys, s')) : List.Forall₂ (R · · s') xs ys := by
  induction xs generalizing s ys with
  | nil =>
      obtain ⟨rfl, rfl⟩ := Action.run_pure_ok.1 hr
      exact .nil
  | cons x xs ih =>
      obtain ⟨y, s₁, rest, hy, hrest, rfl⟩ := Action.run_mapM_cons_ok.1 hr
      exact .cons (hR x y s₁ s' ((Keeps.mapM xs hG).of_run hrest) (hf x y s s₁ hy)) (ih hrest)

namespace Session

variable {σ : Type} {M : Model σ} {I : σ → Prop} {expand : Expander}

theorem expansions_distribution {s s' : Session σ} {c : Call} {d : Distribution}
    (hr : (distribution M c).run s = (.ok d, s')) :
    ∃ e, s'.expansions.lookup c = some e ∧ e.distribution = d := by
  rw [run_distribution] at hr
  split at hr
  · next e he =>
      cases hr
      exact ⟨e, he, rfl⟩
  · split at hr
    · cases hr
    · cases hr
      exact ⟨_, by simp, rfl⟩

/-- The canonical literal that a value stands for, if that is known. -/
def ground? (s : Session σ) (v : Value) : Option Value :=
  match s.resolve v with
  | .literal h => (s.canonicalOf.lookup h).map .literal
  | _ => none

/-- The canonical literal in a recorded call where its distribution has this value. What earlier
calls returned has been recorded as canonical literals. -/
def recorded? (s : Session σ) (d : Distribution) (results : List (List Value)) :
    Value → Option Value
  | .literal h => (s.canonicalOf.lookup h).map .literal
  | v => (d.slot? v).bind (Walk.bound? ⟨d, results⟩)

/-- The labels are calls of these assignments one after another, with results that go on from the
ones before. -/
def Executes (s : Session σ) (d : Distribution) :
    List (List Value) → List Assignment → List Label → Prop
  | _, _, [] => True
  | _, [], _ :: _ => False
  | results, asg :: rest, g :: a => g.call.function = asg.call.function ∧
    List.Forall₂ (fun v v' => s.recorded? d results v = some v') asg.call.parameters
      g.call.parameters ∧
    s.Executes d (results ++ [g.result]) rest a

/-- The results before a call leave no choice of the call. -/
theorem Executes.same_call {s : Session σ} {d : Distribution} {results : List (List Value)}
    {rest : List Assignment} {a b : List Label} {x y : Label}
    (ha : s.Executes d results rest (x :: a)) (hb : s.Executes d results rest (y :: b)) :
    x.call = y.call := by
  cases rest with
  | nil => exact ha.elim
  | cons asg rest =>
      obtain ⟨⟨function, parameters⟩, result⟩ := x
      obtain ⟨⟨function', parameters'⟩, result'⟩ := y
      obtain ⟨rfl, hpar, -⟩ := ha
      obtain ⟨rfl, hpar', -⟩ := hb
      simp only at hpar hpar' ⊢
      rw [forall₂_some_unique hpar hpar']

/-- As long as executions have the same results they make the same calls, up to the call at which
they part. -/
theorem Executes.agree {s : Session σ} {d : Distribution} {results : List (List Value)}
    {rest : List Assignment} {a b : List Label} (ha : s.Executes d results rest a)
    (hb : s.Executes d results rest b) {k : Nat} {x y : Label} (hx : a[k]? = some x)
    (hy : b[k]? = some y) (h : (a.take k).map (·.result) = (b.take k).map (·.result)) :
    x.call = y.call ∧ a.take k = b.take k := by
  induction k generalizing results rest a b with
  | zero =>
      match a, b, hx, hy with
      | _ :: _, _ :: _, rfl, rfl => exact ⟨ha.same_call hb, rfl⟩
  | succ k ih =>
      match a, b, hx, hy with
      | g :: a, g' :: b, hx, hy =>
          rw [List.take_succ_cons, List.take_succ_cons, List.map_cons, List.map_cons] at h
          obtain ⟨hresult, hrest⟩ := List.cons.inj h
          have hcall := ha.same_call hb
          obtain rfl : g = g' := by
            obtain ⟨c, r⟩ := g
            obtain ⟨c', r'⟩ := g'
            simp only at hresult hcall
            rw [hresult, hcall]
          cases rest with
          | nil => exact ha.elim
          | cons asg rest =>
              obtain ⟨hxy, htake⟩ := ih ha.2.2 hb.2.2 hx hy hrest
              exact ⟨hxy, by rw [List.take_succ_cons, List.take_succ_cons, htake]⟩

/-- What a session has learnt of handles and of distributions stays. -/
structure Retains (s s' : Session σ) : Prop where
  canonicalOf : ∀ h c, s.canonicalOf.lookup h = some c → s'.canonicalOf.lookup h = some c
  expansions : ∀ c e, s.expansions.lookup c = some e → s'.expansions.lookup c = some e

instance : Std.Refl (Retains (σ := σ)) := ⟨fun _ => ⟨fun _ _ h => h, fun _ _ h => h⟩⟩

instance : IsTrans (Session σ) Retains :=
  ⟨fun _ _ _ h h' => ⟨fun a c hc => h'.canonicalOf a c (h.canonicalOf a c hc),
    fun c e he => h'.expansions c e (h.expansions c e he)⟩⟩

theorem retains_frame (M : Model σ) : Frame id M M Retains where
  toExternal _ _ := rfl
  isEqual _ _ _ _ := rfl
  keeps_toExternal _ _ := ⟨fun _ _ h => h, fun _ _ h => h⟩
  keeps_isEqual _ _ _ _ := ⟨fun _ _ h => h, fun _ _ h => h⟩
  canonicalOf _ _ _ _ hnew := ⟨fun _ _ => lookup_cons_of_new hnew, fun _ _ h => h⟩
  bindings _ _ := ⟨fun _ _ h => h, fun _ _ h => h⟩
  records _ _ _ := ⟨fun _ _ h => h, fun _ _ h => h⟩

theorem retains_distribution (c : Call) :
    Shows id Retains (distribution M c) (distribution M c) := by
  refine fun s => ⟨?_, rfl⟩
  rw [run_distribution]
  cases hknown : s.expansions.lookup c with
  | some e => exact ⟨fun _ _ h => h, fun _ _ h => h⟩
  | none =>
      rcases (M.getDistribution c).run s.world with ⟨f | e, w⟩
      · exact ⟨fun _ _ h => h, fun _ _ h => h⟩
      · exact ⟨fun _ _ h => h, fun _ _ => lookup_cons_of_new hknown⟩

theorem Executes.mono {s s' : Session σ} (hs : Retains s s') {d : Distribution}
    {results : List (List Value)} {rest : List Assignment} {a : List Label}
    (h : s.Executes d results rest a) : s'.Executes d results rest a := by
  induction a generalizing results rest with
  | nil => cases rest <;> trivial
  | cons g a ih =>
      cases rest with
      | nil => exact h.elim
      | cons asg rest =>
          obtain ⟨hfun, hpar, hrest⟩ := h
          refine ⟨hfun, hpar.imp fun v v' hv => ?_, ih hrest⟩
          cases v with
          | literal h =>
              obtain ⟨c, hc, rfl⟩ := Option.map_eq_some_iff.1 hv
              exact Option.map_eq_some_iff.2 ⟨c, hs.canonicalOf h c hc, rfl⟩
          | _ => exact hv

/-! ## Grounding -/

theorem Learns.ground? {s s' : Session σ} (h : Learns M I expand s s') {v v' : Value}
    (hv : s.ground? v = some v') : s'.ground? v = some v' := by
  unfold Session.ground? at hv ⊢
  split at hv
  · next a ha =>
      obtain ⟨c, hc, rfl⟩ := Option.map_eq_some_iff.1 hv
      rw [h.resolve_literal ha]
      exact Option.map_eq_some_iff.2 ⟨c, h.canonicalOf a c hc, rfl⟩
  · cases hv

/-- The claim of a proof and the label that is recorded for it. -/
structure GroundsTo (s : Session σ) (claim g : Label) : Prop where
  function : g.call.function = claim.call.function
  parameters : List.Forall₂ (fun v v' => s.ground? v = some v') claim.call.parameters
    g.call.parameters
  result : List.Forall₂ (fun v v' => s.ground? v = some v') claim.result g.result

/-- What a session learns over any model, of which nothing is promised. -/
abbrev LearnsAnyway (M : Model σ) : Session σ → Session σ → Prop :=
  Learns M (fun _ => False) fun _ _ => .error (.protocol "")

theorem keeps_anyway {β : Type} {x : Action (Session σ) β}
    (h : ∀ {I E} {expand : Expander}, M.Meets I expand E → x.Keeps (Learns M I expand)) :
    x.Keeps (LearnsAnyway M) :=
  h (M.meets_nothing _ fun _ _ => False)

theorem groundValue_ground? {s s' : Session σ} {l : Label} {v v' : Value}
    (hr : (groundValue M l v).run s = (.ok v', s')) : s'.ground? v = some v' := by
  have hlearns := (keeps_anyway fun hM => keeps_groundValue hM l v).of_run hr
  unfold groundValue at hr
  rw [Action.run_bind_of_ok (Action.run_get s)] at hr
  split at hr
  · next a ha =>
      obtain ⟨c, s₁, hc, hr⟩ := Action.run_bind_ok.1 hr
      obtain ⟨rfl, rfl⟩ := Action.run_pure_ok.1 hr
      rw [Session.ground?, hlearns.resolve_literal ha]
      exact Option.map_eq_some_iff.2 ⟨c, canonicalOf_canonical hc, rfl⟩
  · exact (Action.run_throw_ok hr).elim

theorem groundValues_ground? {s s' : Session σ} {l : Label} {vs vs' : List Value}
    (hr : (groundValues M l vs).run s = (.ok vs', s')) :
    List.Forall₂ (fun v v' => s'.ground? v = some v') vs vs' :=
  Action.mapM_forall₂ (R := fun v v' (s : Session σ) => s.ground? v = some v')
    (fun v => keeps_anyway fun hM => keeps_groundValue hM l v) (fun _ _ _ _ h => h.ground?)
    (fun _ _ _ _ => groundValue_ground?) hr

theorem groundLabel_groundsTo {s s' : Session σ} {l claim g : Label}
    (hr : (groundLabel M l claim).run s = (.ok g, s')) : s'.GroundsTo claim g := by
  unfold groundLabel at hr
  obtain ⟨ps, s₁, hps, hr⟩ := Action.run_bind_ok.1 hr
  obtain ⟨rs, s₂, hrs, hr⟩ := Action.run_bind_ok.1 hr
  obtain ⟨rfl, rfl⟩ := Action.run_pure_ok.1 hr
  have hlearns := (keeps_anyway fun hM => keeps_groundValues hM l _).of_run hrs
  exact ⟨rfl, (groundValues_ground? hps).imp fun _ _ => hlearns.ground?, groundValues_ground? hrs⟩

theorem groundLabels_groundsTo {s s' : Session σ} {l : Label} {claims gs : List Label}
    (hr : (claims.mapM (groundLabel M l)).run s = (.ok gs, s')) :
    List.Forall₂ s'.GroundsTo claims gs :=
  Action.mapM_forall₂ (R := fun c g (s : Session σ) => s.GroundsTo c g)
    (fun c => keeps_anyway fun hM => keeps_groundLabel hM l c)
    (fun _ _ _ _ h hg => ⟨hg.function, hg.parameters.imp fun _ _ => h.ground?,
      hg.result.imp fun _ _ => h.ground?⟩)
    (fun _ _ _ _ => groundLabel_groundsTo) hr

/-- A value of a distribution that a claim resolves becomes the canonical literal on record. -/
theorem recorded?_of_resolve {s : Session σ} {w : Walk} {results : List (List Value)}
    (hw : List.Forall₂ (List.Forall₂ fun v v' => s.ground? v = some v') w.results results)
    {n : Nat} {v p g : Value} (hv : w.distribution.ReadsBefore n v) (hp : w.resolve v = .ok p)
    (hg : s.ground? p = some g) : s.recorded? w.distribution results v = some g := by
  rcases Walk.resolve_eq_ok_iff.1 hp with ⟨⟨h, rfl⟩ | ⟨name, rfl⟩, rfl⟩ | ⟨place, hslot, hbound⟩
  · exact hg
  · rcases hv with ⟨h, hv⟩ | ⟨place, a, hslot, -⟩
    · cases hv
    · cases hslot
  · obtain ⟨vs, hvs, hp⟩ := Option.bind_eq_some_iff.1 hbound
    obtain ⟨gs, hgs, hground⟩ := forall₂_some_left hw hvs
    obtain ⟨g', hg', hpg⟩ := forall₂_some_left hground hp
    obtain rfl := Option.some.inj (hg.symm.trans hpg)
    have hrecorded : s.recorded? w.distribution results v
        = (w.distribution.slot? v).bind (Walk.bound? ⟨w.distribution, results⟩) := by
      cases v with
      | literal h => cases hslot
      | _ => rfl
    rw [hrecorded, hslot, Option.bind_some]
    exact Option.bind_eq_some_iff.2 ⟨gs, hgs, hg'⟩

/-- What is recorded for the claims by a mapping executes the distribution. -/
theorem executes_of_claimsFrom {s : Session σ} {l : Label} {m : Mapping} {w : Walk}
    {results : List (List Value)} {rest : List Assignment} {claims gs : List Label}
    (hrest : rest ⊆ w.distribution.assignments)
    (hw : List.Forall₂ (List.Forall₂ fun v v' => s.ground? v = some v') w.results results)
    (h : claimsFrom l m w rest = .ok claims) (hgs : List.Forall₂ s.GroundsTo claims gs) :
    s.Executes w.distribution results rest gs := by
  induction rest generalizing w results claims gs with
  | nil =>
      cases h
      cases hgs
      trivial
  | cons asg rest ih =>
      obtain ⟨ps, result, w', claims', hps, -, hbind, hclaims, rfl⟩ := claimsFrom_cons_ok h
      obtain ⟨-, rfl⟩ := Walk.bind_eq_ok_iff.1 hbind
      obtain ⟨g, gs', hg, hgs', rfl⟩ := List.forall₂_cons_left_iff.1 hgs
      obtain ⟨i, hi⟩ := List.mem_iff_getElem?.1 (hrest List.mem_cons_self)
      have hreads := w.distribution.reads_earlier hi
      refine ⟨hg.function, ?_, ih (w := { w with results := w.results ++ [result] })
        (fun _ h => hrest (List.mem_cons_of_mem _ h)) (List.rel_append hw (.cons hg.result .nil))
        hclaims hgs'⟩
      have hresolve := forall₂_imp_mem (mapM_ok_iff.1 hps) fun v hv p hp =>
        (⟨hreads v hv, hp⟩ : w.distribution.ReadsBefore i v ∧ w.resolve v = .ok p)
      exact forall₂_join hresolve hg.parameters.flip fun v g' p ⟨hv, hp⟩ hg' =>
        recorded?_of_resolve hw hv hp hg'

theorem alternative_executes {s s' : Session σ} {l : Label} {d : Distribution} {m : Mapping}
    {a : List Label} (hr : (alternative M l d m).run s = (.ok a, s')) :
    s'.Executes d [] d.assignments a := by
  unfold alternative at hr
  obtain ⟨cs, s₁, hclaims, hr⟩ := Action.run_bind_ok.1 hr
  obtain ⟨hcs, rfl⟩ := Action.run_liftM_ok.1 hclaims
  obtain ⟨_, s₂, -, hr⟩ := Action.run_bind_ok.1 hr
  exact executes_of_claimsFrom (w := .start d) (fun _ h => h) .nil hcs (groundLabels_groundsTo hr)

/-- The alternatives of a proof are executions of the distribution that the session keeps. -/
theorem alternatives_execute {s s' : Session σ} {p : Proof} {c : Call} {as : List (List Label)}
    (hr : (alternatives M p c).run s = (.ok as, s')) : ∃ e, s'.expansions.lookup c = some e ∧
      ∀ a ∈ as, s'.Executes e.distribution [] e.distribution.assignments a := by
  obtain ⟨d, s₁, hd, hr⟩ := Action.run_bind_ok.1 hr
  obtain ⟨_, s₂, hnames, has⟩ := Action.run_bind_ok.1 hr
  obtain ⟨-, rfl⟩ := Action.run_liftM_ok.1 hnames
  have hkeeps : ∀ m, (alternative M p.label d m).Keeps Retains := fun m =>
    ((retains_frame M).alternative p.label d m).keeps
  obtain ⟨e, he, rfl⟩ := expansions_distribution hd
  refine ⟨e, ((Action.Keeps.mapM p.mappings hkeeps).of_run has).expansions c e he, fun a ha => ?_⟩
  have hall := Action.mapM_forall₂ (R := fun _ a s => s.Executes e.distribution []
    e.distribution.assignments a) hkeeps (fun _ _ _ _ hs => Executes.mono hs)
    (fun _ _ _ _ => alternative_executes) has
  obtain ⟨m, -, h⟩ := exists_of_forall₂_mem hall ha
  exact h

/-! ## What is recorded -/

/-- The alternative is an execution of the distribution kept for the label, or that of a coin. -/
def Tracks (s : Session σ) (l : Label) (a : List Label) : Prop :=
  if l.isPrimitive then a = [l]
  else ∃ e, s.expansions.lookup l.call = some e ∧
    s.Executes e.distribution [] e.distribution.assignments a

theorem Tracks.mono {s s' : Session σ} (hs : Retains s s') {l : Label} {a : List Label}
    (h : s.Tracks l a) : s'.Tracks l a := by
  unfold Tracks at h ⊢
  split
  · next hprim => rwa [if_pos hprim] at h
  · next hprim =>
      rw [if_neg hprim] at h
      obtain ⟨e, he, ha⟩ := h
      exact ⟨e, hs.expansions _ _ he, ha.mono hs⟩

/-- All alternatives are executions, and those of a label differ. -/
def Exclusive (s : Session σ) : Prop :=
  ∀ e ∈ s.entries, (∀ a ∈ e.alternatives, s.Tracks e.label a) ∧ e.alternatives.Pairwise Differ

theorem Exclusive.of_same {s s' : Session σ} (h : s.Exclusive) (hs : Retains s s')
    (hentries : SameEntries s s') : s'.Exclusive := by
  intro e he
  rw [hentries] at he
  obtain ⟨htracks, hdiffer⟩ := h e he
  exact ⟨fun a ha => (htracks a ha).mono hs, hdiffer⟩

theorem Exclusive.of_addAlternatives {s : Session σ} (h : s.Exclusive)
    (hd : s.entries.Pairwise (·.label ≠ ·.label)) {l : Label} {as : List (List Label)}
    (has : ∀ a ∈ as, s.Tracks l a) : ((addAlternatives l as).run s).2.Exclusive := by
  have hretains : Retains s (s.withEntry l) := by
    rw [withEntry_eq]
    exact ⟨fun _ _ h => h, fun _ _ h => h⟩
  have hentry : (s.withEntry l).Exclusive := by
    intro e he
    rcases mem_withEntry he with he | ⟨rfl, -⟩
    · exact ⟨fun a ha => ((h e he).1 a ha).mono hretains, (h e he).2⟩
    · exact ⟨fun _ h => absurd h List.not_mem_nil, .nil⟩
  rw [run_addAlternatives]
  split
  · exact hentry
  · next hok =>
      intro e he
      obtain ⟨e₀, he₀, rfl⟩ := List.mem_map.1 he
      have hkept : Retains (s.withEntry l)
          ((s.withEntry l).setAlternatives l (s.alternativesOf l ++ as)) :=
        ⟨fun _ _ h => h, fun _ _ h => h⟩
      split
      · next heq =>
          refine ⟨fun a ha => ?_, checkDisjoint_ok_iff.1 hok⟩
          rcases List.mem_append.1 ha with ha | ha
          · obtain ⟨e, he, hel, ha⟩ := (mem_alternativesOf_iff hd).1 ha
            rw [← hel] at heq
            exact heq ▸ (((h e he).1 a ha).mono hretains).mono hkept
          · exact heq ▸ ((has a ha).mono hretains).mono hkept
      · exact ⟨fun a ha => ((hentry e₀ he₀).1 a ha).mono hkept, (hentry e₀ he₀).2⟩

theorem Exclusive.of_record {s : Session σ} (h : s.Exclusive)
    (hd : s.entries.Pairwise (·.label ≠ ·.label)) {l : Label} {c : Call}
    {as : Label → List (List Label)}
    (has : ∀ rs s', (groundValues M l l.result).run s = (.ok rs, s') →
      ∀ a ∈ as ⟨c, rs⟩, s'.Tracks ⟨c, rs⟩ a) :
    ((record M l c as).run s).2.Exclusive := by
  unfold record
  have hretains := ((retains_frame M).groundValues l l.result).keeps s
  have hentries := keeps_groundValues_entries (M := M) l l.result s
  rw [Action.run_bind]
  rcases hrs : (groundValues M l l.result).run s with ⟨f | rs, s₁⟩ <;>
    rw [hrs] at hretains hentries
  · exact h.of_same hretains hentries
  have hadd := (h.of_same hretains hentries).of_addAlternatives (hentries ▸ hd) (has rs s₁ hrs)
  simp only [Action.run_bind]
  rcases hr : (addAlternatives ⟨c, rs⟩ (as ⟨c, rs⟩)).run s₁ with ⟨f | _, s₂⟩ <;> rw [hr] at hadd
  · exact hadd
  · exact hadd.of_same ⟨fun _ _ h => h, fun _ _ h => h⟩ rfl

theorem Exclusive.of_expand {s : Session σ} (h : s.Exclusive)
    (hd : s.entries.Pairwise (·.label ≠ ·.label)) (p : Proof) :
    ((Session.expand M p).run s).2.Exclusive := by
  have hR := retains_frame M
  have hretains := (hR.groundValues p.label p.label.call.parameters).keeps s
  have hentries := keeps_groundValues_entries (M := M) p.label p.label.call.parameters s
  rw [expand_eq, Action.run_bind]
  rcases hps : (groundValues M p.label p.label.call.parameters).run s with ⟨f | ps, s₁⟩ <;>
    rw [hps] at hretains hentries
  · exact h.of_same hretains hentries
  have h₁ := h.of_same hretains hentries
  have hd₁ : s₁.entries.Pairwise (·.label ≠ ·.label) := hentries ▸ hd
  simp only
  split
  · next hprim =>
      split
      · exact h₁
      · refine h₁.of_record hd₁ fun rs s' _ a ha => ?_
        rw [Tracks, if_pos (show Label.isPrimitive ⟨_, rs⟩ = true from hprim)]
        exact List.mem_singleton.1 ha
  · next hprim =>
      have hretains₂ := (hR.alternatives (fun c _ _ => retains_distribution c) p
        (isGrounded_of_groundValues hps _) (Bool.eq_false_iff.2 hprim)).keeps s₁
      have hentries₂ := keeps_alternatives (M := M) p ⟨p.label.call.function, ps⟩ s₁
      rw [Action.run_bind]
      rcases has : (alternatives M p ⟨p.label.call.function, ps⟩).run s₁ with ⟨f | as, s₂⟩ <;>
        rw [has] at hretains₂ hentries₂
      · exact h₁.of_same hretains₂ hentries₂
      obtain ⟨e, he, hexecutes⟩ := alternatives_execute has
      refine (h₁.of_same hretains₂ hentries₂).of_record (hentries₂ ▸ hd₁) fun rs s' hrs a ha => ?_
      have hretains₃ := (hR.groundValues p.label p.label.result).keeps.of_run hrs
      rw [Tracks, if_neg (show ¬Label.isPrimitive ⟨_, rs⟩ = true from hprim)]
      exact ⟨e, hretains₃.expansions _ e he, (hexecutes a ha).mono hretains₃⟩

/-- In every session that can be reached all alternatives are executions, and exclusive. -/
theorem Reachable.exclusive {s : Session σ} (h : Reachable M I s) : s.Exclusive := by
  have hR := retains_frame M
  induction h with
  | start settings hw => exact fun _ he => absurd he List.not_mem_nil
  | unify _ l p m ih =>
      exact ih.of_same ((hR.unify l p m).keeps _)
        (sameEntries_of_learns (fun hM => keeps_unify hM l p m) _)
  | unifyCalls _ l p m ih =>
      exact ih.of_same ((hR.unifyCalls l p m).keeps _)
        (sameEntries_of_learns (fun hM => keeps_unifyCalls hM l p m) _)
  | verify _ l d claims ih =>
      exact ih.of_same ((hR.verify l d claims).keeps _)
        (sameEntries_of_learns (fun hM => keeps_verify hM l d claims) _)
  | expand h p ih => exact ih.of_expand h.distinct_labels p

/-- Alternatives that are executions and differ part at one call, after a common beginning. -/
theorem Tracks.parts {s : Session σ} {l : Label} {a b : List Label} (ha : s.Tracks l a)
    (hb : s.Tracks l b) (h : Differ a b) :
    ∃ (k : Nat) (x y : Label), a[k]? = some x ∧ b[k]? = some y ∧ x.result ≠ y.result ∧
      x.call = y.call ∧ a.take k = b.take k := by
  obtain ⟨k, x, y, hx, hy, hne, hbefore⟩ := h.first
  unfold Tracks at ha hb
  split at ha
  · next hprim =>
      rw [if_pos hprim] at hb
      rw [ha] at hx
      rw [hb, hx] at hy
      exact absurd (congrArg Label.result (Option.some.inj hy)) hne
  · next hprim =>
      rw [if_neg hprim] at hb
      obtain ⟨e, he, ha⟩ := ha
      obtain ⟨e', he', hb⟩ := hb
      obtain rfl := Option.some.inj (he.symm.trans he')
      obtain ⟨hcall, htake⟩ := ha.agree hb hx hy hbefore
      exact ⟨k, x, y, hx, hy, hne, hcall, htake⟩

end Session

open Session

/-- The check of alternatives ends, passes just when any two differ in a result at a place that both
have, and passes in one order if it does in another; only the number of labels that an ambiguity
shows may depend on the order. So whatever was asked of a session, any two alternatives of a label
have the same labels up to one call, which is the same call in both and returns different
results. -/
theorem checkDisjoint_pairwise_kept :
    (∀ (l : Label) (as : List (List Label)),
      (∃ r, Checks 0 as r ∧ checkDisjoint l as = r.mapError (ambiguity l)) ∧
      (checkDisjoint l as = .ok () ↔
        ∀ (i j : Nat) (a b : List Label), i ≠ j → as[i]? = some a → as[j]? = some b →
          Differ a b) ∧
      ∀ bs : List (List Label), as.Perm bs →
        (checkDisjoint l as = .ok () ↔ checkDisjoint l bs = .ok ())) ∧
    ∀ {σ : Type} {M : Model σ} {I : σ → Prop} {s : Session σ}, Reachable M I s →
      s.entries.Pairwise (·.label ≠ ·.label) ∧
      ∀ e ∈ s.entries, ∀ (i j : Nat) (a b : List Label), i ≠ j → e.alternatives[i]? = some a →
        e.alternatives[j]? = some b →
        ∃ (k : Nat) (x y : Label), a[k]? = some x ∧ b[k]? = some y ∧ x.result ≠ y.result ∧
          x.call = y.call ∧ a.take k = b.take k := by
  refine ⟨fun l as => ⟨checkDisjoint_checks l as, ?_, fun bs => checkDisjoint_perm l⟩,
    fun hs => ⟨hs.distinct_labels, fun e he i j a b hne ha hb => ?_⟩⟩
  · rw [checkDisjoint_ok_iff, pairwise_differ_iff_getElem?]
  · obtain ⟨htracks, hdiffer⟩ := hs.exclusive e he
    exact (htracks a (List.mem_of_getElem? ha)).parts (htracks b (List.mem_of_getElem? hb))
      (pairwise_differ_iff_getElem?.1 hdiffer i j a b hne ha hb)

/-! ## Tossing until tails, in two proofs -/

namespace untilTails

/-- What follows heads and what follows tails, each proved by itself. -/
def proofs₂ : List Proof := [⟨label 0 1, [toss 0]⟩, ⟨label 0 1, [toss 1]⟩]

def expanded₂ : Session Store :=
  ((proofs₂.forM fun p => do let _ ← Session.expand untilTails.model p :
    Action (Session Store) Unit).run (.start .standard Library.truths)).2

theorem reachable₂ : Session.Reachable untilTails.model (fun _ => True) expanded₂ :=
  Action.forM_invariant (fun _ p h => h.expand p) proofs₂ (.start .standard trivial)

end untilTails

/-- Both proofs are of one label, and their tosses land differently. -/
theorem untilTails_parts : ∃ e a b, untilTails.expanded₂.entries = [e] ∧
    e.alternatives = [a, b] ∧ ∃ (k : Nat) (x y : Label), a[k]? = some x ∧ b[k]? = some y ∧
      x.result ≠ y.result ∧ x.call = y.call ∧ a.take k = b.take k := by
  have hentries : untilTails.expanded₂.entries.map (·.alternatives.length) = [2] := by
    decide +kernel
  obtain ⟨e, he, hlength⟩ : ∃ e, untilTails.expanded₂.entries = [e] ∧ e.alternatives.length = 2 :=
    List.map_eq_singleton_iff.1 hentries
  obtain ⟨a, b, halternatives⟩ := List.length_eq_two.1 hlength
  refine ⟨e, a, b, he, halternatives, ?_⟩
  refine (checkDisjoint_pairwise_kept.2 untilTails.reachable₂).2 e (by rw [he]; simp) 0 1 a b
    (by decide) ?_ ?_
  · rw [halternatives]
    rfl
  · rw [halternatives]
    rfl

end ChanceProof
