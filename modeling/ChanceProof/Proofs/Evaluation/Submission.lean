import ChanceProof.Proofs.Evaluation.Exhaustive
import ChanceProof.Proofs.Evaluation.MirrorSolve

/-!
# Submitting proofs one after another

A session may go on after a proof was rejected. `Action.attempts` submits a list of proofs, whatever
becomes of each. Every session that can be reached has an account, and every proof whose literals
are live stands for a thesis, so submitting proofs to a session comes to the same as submitting
theses to its account: `attempts_mirrors`.
-/

namespace ChanceProof

/-! ## Live proofs -/

def Value.unknown? : Value → Option String
  | .unknown name => some name
  | _ => none

/-- An unknown has one of these names. -/
def Value.Among (N : List String) (v : Value) : Prop := ∀ name, v = .unknown name → name ∈ N

theorem Value.mem_unknowns {vs : List Value} {x : String} :
    x ∈ vs.filterMap unknown? ↔ .unknown x ∈ vs := by
  constructor
  · intro h
    obtain ⟨v, hv, hunknown⟩ := List.mem_filterMap.1 h
    cases v with
    | unknown y =>
        cases hunknown
        exact hv
    | _ => cases hunknown
  · exact fun h => List.mem_filterMap.2 ⟨_, h, rfl⟩

theorem Value.among_unknowns {vs : List Value} {v : Value} (h : v ∈ vs) :
    v.Among (vs.filterMap unknown?) :=
  fun _ hv => mem_unknowns.2 (hv ▸ h)

def Proof.values (p : Proof) : List Value :=
  p.label.values ++ p.mappings.flatMap fun m => m.entries.map (·.2)

def Proof.unknowns (p : Proof) : List String := p.values.filterMap Value.unknown?

theorem Proof.mem_unknowns {p : Proof} {x : String} : x ∈ p.unknowns ↔ .unknown x ∈ p.values :=
  Value.mem_unknowns

/-- Every value of the proof is an unknown or the literal of a live object. -/
def Proof.Live (φ : Handle → Option Json) (p : Proof) : Prop := ∀ v ∈ p.values, ∃ r, v.Means φ r

theorem Proof.among_unknowns {p : Proof} {v : Value} (h : v ∈ p.values) : v.Among p.unknowns :=
  Value.among_unknowns h

theorem Proof.Live.mono {φ ψ : Handle → Option Json} (hle : ∀ h v, φ h = some v → ψ h = some v)
    {p : Proof} (h : p.Live φ) : p.Live ψ := fun v hv =>
  let ⟨r, hr⟩ := h v hv
  ⟨r, hr.mono hle⟩

theorem Dictionary.exists_related {α β : Type} {R : α → β → Prop} {m : Dictionary α}
    (h : ∀ e ∈ m.entries, ∃ y, R e.2 y) : ∃ m', m.Related R m' := by
  obtain ⟨es, hes⟩ := exists_forall₂ (R := fun e e' => e.1 = e'.1 ∧ R e.2 e'.2) fun e he =>
    let ⟨y, hy⟩ := h e he
    ⟨(e.1, y), rfl, hy⟩
  have hkeys : m.entries.map Prod.fst = es.map Prod.fst :=
    List.forall₂_eq_eq_eq ▸ List.forall₂_map_left_iff.2
      (List.forall₂_map_right_iff.2 (hes.imp fun _ _ he => he.1))
  refine ⟨⟨es, List.pairwise_map.1 ?_⟩, hes⟩
  rw [← hkeys]
  exact m.keys_ascend

theorem Proof.checkMapping_ok_iff {first m : Mapping} : checkMapping first m = .ok () ↔
    m.keys = first.keys ∧ ∀ e ∈ m.entries, checkValue e.2 = .ok () := by
  unfold checkMapping
  by_cases hkeys : m.keys = first.keys
  · rw [if_neg (by simp [hkeys])]
    exact forM_ok_iff.trans (and_iff_right hkeys).symm
  · rw [if_pos (by simp [hkeys])]
    exact ⟨fun h => (nomatch h), fun h => absurd h.1 hkeys⟩

/-- A proof is one just when its values are literals and unknowns and its mappings bind the same
names. -/
theorem Proof.check_ok_iff {p : Proof} : check p.label p.mappings = .ok () ↔
    (∀ v ∈ p.values, checkValue v = .ok ()) ∧ ∀ m ∈ p.mappings, m.keys = p.names := by
  obtain ⟨l, ms⟩ := p
  have hbind : check l ms = .ok () ↔ l.values.forM checkValue = .ok () ∧
      ∀ first, ms.head? = some first → ms.forM (checkMapping first) = .ok () := by
    unfold check
    cases hl : l.values.forM checkValue with
    | error e => exact ⟨fun h => (nomatch h), fun h => (nomatch h.1)⟩
    | ok _ =>
        cases ms.head? with
        | none => exact ⟨fun _ => ⟨rfl, fun _ h => (nomatch h)⟩, fun _ => rfl⟩
        | some first => exact ⟨fun h => ⟨rfl, fun _ hf => Option.some.inj hf ▸ h⟩,
            fun h => h.2 first rfl⟩
  have hvalues : (∀ v ∈ values ⟨l, ms⟩, checkValue v = .ok ()) ↔
      (∀ v ∈ l.values, checkValue v = .ok ()) ∧
        ∀ m ∈ ms, ∀ e ∈ m.entries, checkValue e.2 = .ok () := by
    simp only [values, List.mem_append, List.mem_flatMap, List.mem_map]
    constructor
    · exact fun h => ⟨fun v hv => h v (.inl hv), fun m hm e he => h e.2 (.inr ⟨m, hm, e, he, rfl⟩)⟩
    · rintro ⟨hl, hms⟩ v (hv | ⟨m, hm, e, he, rfl⟩)
      · exact hl v hv
      · exact hms m hm e he
  rw [hbind, hvalues, and_assoc, forM_ok_iff, names]
  refine and_congr_right fun _ => ?_
  cases ms with
  | nil => simp
  | cons first rest =>
      simp only [List.head?_cons, Option.some.injEq, forall_eq', forM_ok_iff, checkMapping_ok_iff,
        Option.map_some, Option.getD_some]
      exact ⟨fun h => ⟨fun m hm => (h m hm).2, fun m hm => (h m hm).1⟩,
        fun h m hm => ⟨h.2 m hm, h.1 m hm⟩⟩

/-- A live proof stands for a thesis. -/
theorem Proof.Live.exists_means {φ : Handle → Option Json} {p : Proof} (h : p.Live φ) :
    ∃ t, p.Means φ t := by
  have hlabel : ∀ v ∈ p.label.values, ∃ r, v.Means φ r := fun v hv =>
    h v (List.mem_append_left _ hv)
  obtain ⟨ps, hps⟩ := exists_forall₂ fun v hv => hlabel v (List.mem_append_left _ hv)
  obtain ⟨rs, hrs⟩ := exists_forall₂ fun v hv => hlabel v (List.mem_append_right _ hv)
  obtain ⟨ms, hms⟩ := exists_forall₂ (R := Mapping.Means φ) fun m hm =>
    Dictionary.exists_related fun e he => h e.2 (List.mem_append_right _
      (List.mem_flatMap.2 ⟨m, hm, List.mem_map.2 ⟨e, he, rfl⟩⟩))
  exact ⟨⟨⟨p.label.call.function, ps, rs⟩, ms⟩, ⟨⟨rfl, hps, hrs⟩, hms⟩⟩

/-! ## Going on whatever fails -/

namespace Action

variable {σ τ α β γ δ : Type}

/-- Do the operation for one item after another, whatever fails, and tell where it succeeded. -/
def attempts (f : α → Action σ β) : List α → σ → List Bool × σ
  | [], s => ([], s)
  | x :: xs, s =>
    let (answer, s) := (f x).run s
    let (answers, s) := attempts f xs s
    (answer.isOk :: answers, s)

/-- Operations in lock step are attempted with the same success. -/
theorem Mirrors.attempts {G : σ → σ → Prop} [Std.Refl G] [htrans : IsTrans σ G]
    {T : σ → τ → Prop} {F : Failure → Failure → Prop} {Q : β → δ → σ → Prop}
    {R : α → γ → σ → Prop} {f : α → Action σ β} {g : γ → Action τ δ}
    (hR : ∀ x y s s', G s s' → R x y s → R x y s')
    (hf : ∀ x y s t, T s t → R x y s → Mirrors G T F Q (f x) (g y) s t) {xs : List α}
    {ys : List γ} {s : σ} {t : τ} (hT : T s t) (h : List.Forall₂ (R · · s) xs ys) :
    (Action.attempts f xs s).1 = (Action.attempts g ys t).1 ∧ G s (Action.attempts f xs s).2 ∧
      T (Action.attempts f xs s).2 (Action.attempts g ys t).2 := by
  induction xs generalizing ys s t with
  | nil =>
      cases h
      exact ⟨rfl, (inferInstance : Std.Refl G).refl s, hT⟩
  | cons x xs ih =>
      obtain ⟨y, ys, hxy, hxs, rfl⟩ := List.forall₂_cons_left_iff.1 h
      unfold Action.attempts
      rcases (hf x y s t hT hxy).cases with
        ⟨u, v, s', t', hx, hy, hG, hT', -⟩ | ⟨e, e', s', t', hx, hy, hG, hT', -⟩
      · obtain ⟨hsame, hG', hT''⟩ := ih hT' (hxs.imp fun _ _ => hR _ _ _ _ hG)
        simp only [hx, hy]
        exact ⟨by rw [hsame]; rfl, htrans.trans _ _ _ hG hG', hT''⟩
      · obtain ⟨hsame, hG', hT''⟩ := ih hT' (hxs.imp fun _ _ => hR _ _ _ _ hG)
        simp only [hx, hy]
        exact ⟨by rw [hsame]; rfl, htrans.trans _ _ _ hG hG', hT''⟩

end Action

namespace Session

variable {σ : Type} {M : Model σ} {I : σ → Prop} {expand : Expander} {E : Json → Json → Prop}

/-! ## Names that are found -/

theorem sameBindings_groundValues (l : Label) (vs : List Value) :
    (groundValues M l vs).Keeps SameBindings :=
  .mapM _ fun v => .bind .get fun s => by
    split
    · exact (sameBindings_canonical _).bind fun _ => .pure _
    · exact .throw _

theorem sameBindings_groundLabel (l c : Label) : (groundLabel M l c).Keeps SameBindings :=
  (sameBindings_groundValues l _).bind fun _ =>
    (sameBindings_groundValues l _).bind fun _ => .pure _

/-- Values were found for no other names than these. -/
def Finds (N : List String) (s s' : Session σ) : Prop :=
  ∃ found, s'.bindings = s.bindings ++ found ∧ ∀ b ∈ found, b.1 ∈ N

theorem Finds.refl {N : List String} (s : Session σ) : Finds N s s :=
  ⟨[], by simp, fun _ h => absurd h List.not_mem_nil⟩

theorem Finds.trans {N : List String} {s s' s'' : Session σ} :
    Finds N s s' → Finds N s' s'' → Finds N s s'' := fun ⟨found, h, hN⟩ ⟨found', h', hN'⟩ =>
  ⟨found ++ found', by rw [h', h, List.append_assoc],
    fun b hb => (List.mem_append.1 hb).elim (hN b) (hN' b)⟩

instance (N : List String) : Std.Refl (Finds (σ := σ) N) := ⟨Finds.refl⟩

instance (N : List String) : IsTrans (Session σ) (Finds N) := ⟨fun _ _ _ => Finds.trans⟩

theorem SameBindings.finds {s s' : Session σ} (h : SameBindings s s') (N : List String) :
    Finds N s s' :=
  ⟨[], by rw [show s'.bindings = s.bindings from h, List.append_nil],
    fun _ h => absurd h List.not_mem_nil⟩

section

variable {N : List String}

theorem finds_bind {name : String} (hN : name ∈ N) (h : Handle) : (bind M name h).Keeps (Finds N) :=
  .bind (fun s => (sameBindings_canonical h s).finds N) fun c s =>
    ⟨[(name, c)], rfl, fun b hb => by rw [List.mem_singleton.1 hb]; exact hN⟩

theorem finds_unify (l : Label) {p m : Value} (hp : p.Among N) (hm : m.Among N) :
    (unify M l p m).Keeps (Finds N) := by
  have hamong : ∀ {v : Value} {x : String} {s : Session σ}, v.Among N → s.resolve v = .unknown x →
      x ∈ N := by
    intro v x s hv hx
    rcases s.resolve_eq_or v with heq | ⟨y, h, -, -, hres⟩
    · exact hv x (heq.symm.trans hx)
    · exact nomatch hres.symm.trans hx
  unfold unify
  refine .bind .get fun s => ?_
  split
  · exact fun s => (sameBindings_unifyHandles l _ _ s).finds N
  · next hx _ => exact finds_bind (hamong hp hx) _
  · next _ hx => exact finds_bind (hamong hm hx) _
  · split
    · exact .pure ()
    · exact .throw _
  · exact .throw _

theorem finds_unifyEach (l : Label) {ps ms : List Value} (hp : ∀ v ∈ ps, v.Among N)
    (hm : ∀ v ∈ ms, v.Among N) : (unifyEach M l ps ms).Keeps (Finds N) := by
  induction ps generalizing ms with
  | nil => exact .pure ()
  | cons p ps ih =>
      cases ms with
      | nil => exact .pure ()
      | cons m ms =>
          obtain ⟨hp, hps⟩ := List.forall_mem_cons.1 hp
          obtain ⟨hm, hms⟩ := List.forall_mem_cons.1 hm
          exact (finds_unify l hp hm).bind fun _ => ih hps hms

theorem finds_unifyValues (l : Label) {ps ms : List Value} (hp : ∀ v ∈ ps, v.Among N)
    (hm : ∀ v ∈ ms, v.Among N) : (unifyValues M l ps ms).Keeps (Finds N) := by
  unfold unifyValues
  split
  · exact .throw _
  · exact finds_unifyEach l hp hm

theorem finds_alternative {φ : Handle → Option Json} {l : Label} {d : Distribution} {sk : Sketch}
    {m : Mapping} (hd : d.Reads φ sk) (hl : ∀ v ∈ l.result, v.Among N)
    (hm : ∀ e ∈ m.entries, e.2.Among N ∧ Proof.checkValue e.2 = .ok ()) :
    (alternative M l d m).Keeps (Finds N) := by
  -- Claims are filled in with literals of the distribution and values of the mapping.
  let R : Value → Unit → Prop := fun v _ => v.Among N ∧ Proof.checkValue v = .ok ()
  have hliteral : ∀ h v, φ h = some v → R (.literal h) () :=
    fun h _ _ => ⟨fun _ h => (nomatch h), rfl⟩
  obtain ⟨m', hm'⟩ := Dictionary.exists_related (R := R) fun e he => ⟨(), hm e he⟩
  intro s
  unfold alternative
  rw [Action.run_bind, Action.run_liftM]
  cases hcs : claims l d m with
  | error f => exact Finds.refl s
  | ok cs =>
      obtain ⟨cs', hcs'⟩ : ∃ cs' : List (Claim Unit), List.Forall₂ (Label.Related R) cs cs' := by
        have haccords : Accords (fun _ _ => True) (List.Forall₂ (Label.Related R))
            (claimsFrom l m (.start d) d.assignments)
            (sk.claimsFrom (fun _ => ()) m'.get? [] sk.steps) :=
          accords_claimsFrom (fun _ => trivial) hm' hliteral l hd hd.steps rfl .nil
        rw [show claimsFrom l m (.start d) _ = .ok cs from hcs] at haccords
        cases hclaims : sk.claimsFrom (fun _ => ()) m'.get? [] sk.steps with
        | error f =>
            rw [hclaims] at haccords
            exact haccords.elim
        | ok cs' =>
            rw [hclaims] at haccords
            exact ⟨cs', haccords⟩
      refine Action.Keeps.bind (fun s => ?_) (fun _ => .mapM _ fun c s => ?_) s
      · have hretraces : Retraces d [] cs := retraces_of_claims hcs fun c hc v hv => by
          obtain ⟨c', -, hcc⟩ := exists_of_forall₂_mem hcs'.flip hc
          obtain ⟨_, -, hvalue⟩ := exists_of_forall₂_mem hcc.parameters.flip hv
          exact hvalue.2
        rw [hretraces.run_verify]
        have hresults : List.Forall₂ (List.Forall₂ R) (cs.map (·.result)) (cs'.map (·.result)) :=
          List.forall₂_map_left_iff.2
            (List.forall₂_map_right_iff.2 (hcs'.imp fun _ _ h => h.result))
        rcases Walk.resolveAll_fill (w := ⟨d, cs.map (·.result)⟩) hd hresults hliteral
          hd.result with ⟨⟨e, hx⟩, -⟩ | ⟨vs, xs, hx, -, hvs⟩
        · rw [Walk.resolveResult, hx]
          exact Finds.refl s
        · rw [Walk.resolveResult, hx]
          refine finds_unifyValues l hl (fun v hv => ?_) s
          obtain ⟨_, -, hvalue⟩ := exists_of_forall₂_mem hvs.flip hv
          exact hvalue.1
      · exact (sameBindings_groundLabel l c s).finds N

end

/-- The alternatives of a proof find no other values than those of names in the proof. -/
theorem finds_alternatives (hM : M.Meets I expand E) {s : Session σ} (hs : s.Coherent M I expand)
    {c : Call} (hc : c.isPrimitive = false) {hs' : List Handle} {vs : List Json}
    (hpar : c.parameters = hs'.map .literal) (hforms : M.Forms s.world hs' vs) {p : Proof}
    (hcheck : Proof.check p.label p.mappings = .ok ()) :
    Finds p.unknowns s ((alternatives M p c).run s).2 := by
  have hvalues := (Proof.check_ok_iff.1 hcheck).1
  have hsame := sameBindings_distribution (M := M) c s
  unfold alternatives
  rw [Action.run_bind]
  rcases distribution_cases hM hs hc hpar hforms with
    ⟨d, s₁, sk, hd, -, -, hreads⟩ | ⟨f, f', s₁, hd, -, -⟩ <;> rw [hd] at hsame ⊢
  · refine Finds.trans (hsame.finds _) ?_
    refine Action.Keeps.bind (.liftM _) (fun _ => ?_) s₁
    refine .mapM_mem _ fun m hm => finds_alternative hreads (fun v hv => ?_) fun e he => ?_
    · exact Proof.among_unknowns (List.mem_append_left _ (List.mem_append_right _ hv))
    · have hmem : e.2 ∈ p.values := List.mem_append_right _
        (List.mem_flatMap.2 ⟨m, hm, List.mem_map.2 ⟨e, he, rfl⟩⟩)
      exact ⟨Proof.among_unknowns hmem, hvalues _ hmem⟩
  · exact hsame.finds _

/-! ## How an expansion ends -/

/-- The session with a label listed as proved, with these alternatives behind those of before. -/
def withProof (s : Session σ) (g : Label) (as : List (List Label)) : Session σ :=
  { (s.withEntry g).setAlternatives g (s.alternativesOf g ++ as) with proved := s.proved ++ [g] }

/-- The ends of an expansion that has learnt all that it could: it fails, it finds that the
alternatives do not exclude each other, or it records them. -/
inductive Concludes (s : Session σ) : Except Failure Label × Session σ → Prop
  | failed (f : Failure) : Concludes s (.error f, s)
  | ambiguous (g : Label) {f : Failure} (kind : f.kind = Account.ambiguous.kind) :
    Concludes s (.error f, s.withEntry g)
  | recorded (g : Label) (as : List (List Label)) : Concludes s (.ok g, s.withProof g as)

theorem record_concludes (hM : M.Meets I expand E) (s : Session σ) (l : Label) (c : Call)
    (as : Label → List (List Label)) :
    ∃ s₁, Learns M I expand s s₁ ∧ SameBindings s s₁ ∧ s₁.Concludes ((record M l c as).run s) := by
  have hlearns := keeps_groundValues hM l l.result s
  have hsame := sameBindings_groundValues (M := M) l l.result s
  rcases hrs : (groundValues M l l.result).run s with ⟨f | rs, s₁⟩ <;> rw [hrs] at hlearns hsame
  · refine ⟨s₁, hlearns, hsame, ?_⟩
    rw [show (record M l c as).run s = (.error f, s₁) from Action.run_bind_of_error hrs]
    exact .failed f
  refine ⟨s₁, hlearns, hsame, ?_⟩
  rw [run_record hrs]
  cases hcheck : checkDisjoint ⟨c, rs⟩ (s₁.alternativesOf ⟨c, rs⟩ ++ as ⟨c, rs⟩) with
  | error f =>
      refine .ambiguous _ ?_
      unfold checkDisjoint at hcheck
      cases hplace : disjointFrom ((s₁.alternativesOf ⟨c, rs⟩ ++ as ⟨c, rs⟩).foldl
          (fun n a => max n a.length) 0) 0 (s₁.alternativesOf ⟨c, rs⟩ ++ as ⟨c, rs⟩) with
      | ok _ =>
          rw [hplace] at hcheck
          cases hcheck
      | error place =>
          rw [hplace] at hcheck
          cases hcheck
          rfl
  | ok _ => exact .recorded ⟨c, rs⟩ (as ⟨c, rs⟩)

/-- However an expansion ends, the session has only learnt before: no other values were found than
those of names in the proof. -/
theorem expand_concludes (hM : M.Meets I expand E) {s : Session σ} (hs : s.Coherent M I expand)
    (p : Proof) : ∃ s₁, Learns M I expand s s₁ ∧
      (Proof.check p.label p.mappings = .ok () → Finds p.unknowns s s₁) ∧
      s₁.Concludes ((Session.expand M p).run s) := by
  have hlearns := keeps_groundValues hM p.label p.label.call.parameters s
  have hsame := sameBindings_groundValues (M := M) p.label p.label.call.parameters s
  rw [expand_eq, Action.run_bind]
  rcases hps : (groundValues M p.label p.label.call.parameters).run s with ⟨f | ps, s₁⟩ <;>
    rw [hps] at hlearns hsame
  · exact ⟨s₁, hlearns, fun _ => hsame.finds _, .failed f⟩
  obtain ⟨hpc, args, -, hargs⟩ := groundValues_ok hM hs hps
  simp only
  split
  · split
    · exact ⟨s₁, hlearns, fun _ => hsame.finds _, .failed _⟩
    · obtain ⟨s₂, hlearns₂, hsame₂, hends⟩ := record_concludes hM s₁ p.label
        ⟨p.label.call.function, ps⟩ fun grounded => [[grounded]]
      exact ⟨s₂, hlearns.trans hlearns₂,
        fun _ => SameBindings.finds (hsame₂.trans hsame) _, hends⟩
  · next hprim =>
      have hprim' := Bool.eq_false_iff.2 hprim
      obtain ⟨hs', hpar, hforms⟩ := literals_of_canonical hpc hargs
      have hs₁ := hlearns.coherent hs
      have hlearns₂ := learns_alternatives hM hs₁ hprim' hpar hforms p
      have hfinds : Proof.check p.label p.mappings = .ok () →
          Finds p.unknowns s ((alternatives M p ⟨p.label.call.function, ps⟩).run s₁).2 :=
        fun hcheck => Finds.trans (hsame.finds _)
          (finds_alternatives hM hs₁ hprim' hpar hforms hcheck)
      rw [Action.run_bind]
      rcases has : (alternatives M p ⟨p.label.call.function, ps⟩).run s₁ with ⟨f | as, s₂⟩ <;>
        rw [has] at hlearns₂ hfinds
      · exact ⟨s₂, hlearns.trans hlearns₂, hfinds, .failed f⟩
      obtain ⟨s₃, hlearns₃, hsame₃, hends⟩ := record_concludes hM s₂ p.label
        ⟨p.label.call.function, ps⟩ fun _ => as
      exact ⟨s₃, (hlearns.trans hlearns₂).trans hlearns₃,
        fun hcheck => Finds.trans (hfinds hcheck)
          (hsame₃.finds _), hends⟩

/-! ## Every session that can be reached has an account -/

theorem tells_start (settings : Settings) {w : σ} (hw : I w) :
    (start settings w).TellsInOrder M I expand .start :=
  ⟨⟨coherent_start settings hw, fun _ => .inl ⟨rfl, rfl⟩, .nil, .nil⟩, rfl, .nil⟩

/-- The labels that are proved are listed. -/
def Listed (s : Session σ) : Prop := ∀ l ∈ s.proved, l ∈ s.labels

theorem Learns.listed {s s' : Session σ} (h : Learns M I expand s s') (hs : s.Listed) :
    s'.Listed := by
  unfold Listed labels
  rw [h.proved, h.entries]
  exact hs

theorem Concludes.listed {s : Session σ} {r : Except Failure Label × Session σ} (h : s.Concludes r)
    (hs : s.Listed) : r.2.Listed := by
  have hentry : ∀ g, (s.withEntry g).proved = s.proved := fun g => by rw [withEntry_eq]
  cases h with
  | failed => exact hs
  | ambiguous g =>
      intro l hl
      rw [hentry g] at hl
      exact mem_labels_withEntry.2 (.inl (hs l hl))
  | recorded g as =>
      intro l hl
      show l ∈ ((s.withEntry g).setAlternatives g _).labels
      rw [labels_setAlternatives, mem_labels_withEntry]
      rcases List.mem_append.1 hl with hl | hl
      · exact .inl (hs l hl)
      · exact .inr (List.mem_singleton.1 hl)

theorem Concludes.bindings {s : Session σ} {r : Except Failure Label × Session σ}
    (h : s.Concludes r) : r.2.bindings = s.bindings := by
  cases h with
  | failed => rfl
  | ambiguous g => exact bindings_withEntry s g
  | recorded g => exact bindings_withEntry s g

/-- The same names are bound in the same order, to handles and to their forms. -/
def BoundInOrder (φ : Handle → Option Json) (bs : List (String × Handle))
    (bs' : List (String × Json)) : Prop :=
  List.Forall₂ (fun b b' => b.1 = b'.1 ∧ φ b.2 = some b'.2) bs bs'

theorem BoundInOrder.sameBound {φ : Handle → Option Json} {bs : List (String × Handle)}
    {bs' : List (String × Json)} (h : BoundInOrder φ bs bs') : SameBound φ bs bs' := by
  intro x
  induction h with
  | nil => exact .inl ⟨rfl, rfl⟩
  | @cons b b' bs bs' hb _ ih =>
      obtain ⟨k, c⟩ := b
      obtain ⟨k', v⟩ := b'
      obtain ⟨rfl, hv⟩ : k = k' ∧ φ c = some v := hb
      rw [List.lookup_cons, List.lookup_cons]
      cases x == k with
      | true => exact .inr ⟨c, v, rfl, rfl, hv⟩
      | false => exact ih

theorem BoundInOrder.names {φ : Handle → Option Json} {bs : List (String × Handle)}
    {bs' : List (String × Json)} (h : BoundInOrder φ bs bs') :
    bs.map (·.1) = bs'.map (·.1) := by
  rw [← List.forall₂_eq_eq_eq, List.forall₂_map_left_iff, List.forall₂_map_right_iff]
  exact h.imp fun _ _ hb => hb.1

theorem SameBound.inOrder {φ : Handle → Option Json} {bs : List (String × Handle)}
    {bs' : List (String × Json)} (h : SameBound φ bs bs') (hnames : bs.map (·.1) = bs'.map (·.1))
    (hdistinct : (bs.map (·.1)).Nodup) : BoundInOrder φ bs bs' := by
  have hdistinct' := hnames ▸ hdistinct
  rw [← List.forall₂_eq_eq_eq, List.forall₂_map_left_iff, List.forall₂_map_right_iff] at hnames
  have hleft := (List.forall₂_and_left (p := (· ∈ bs)) bs _).2 ⟨fun _ hb => hb, hnames⟩
  have hboth := (List.forall₂_and_left (p := (· ∈ bs')) bs' _).2 ⟨fun _ hb => hb, hleft.flip⟩
  refine hboth.flip.imp fun b b' ⟨hb', hb, heq⟩ => ⟨heq, ?_⟩
  rcases h b.1 with ⟨hnone, -⟩ | ⟨c, v, hc, hv, hform⟩
  · rw [lookup_of_mem hdistinct hb] at hnone
    cases hnone
  · rw [lookup_of_mem hdistinct hb] at hc
    rw [heq, lookup_of_mem hdistinct' hb'] at hv
    cases hc
    cases hv
    exact hform

/-- Canonical handles are live, so what is bound to them has forms. -/
theorem Coherent.exists_boundInOrder {s : Session σ} (hs : s.Coherent M I expand)
    (hdistinct : s.boundNames.Nodup) : ∃ bs, BoundInOrder (M.form? s.world) s.bindings bs := by
  refine exists_forall₂ fun b hb => ?_
  obtain ⟨v, hv⟩ := hs.live (hs.bindings b.1 b.2 (lookup_of_mem hdistinct hb))
  exact ⟨(b.1, v), rfl, hv⟩

section

variable (hM : M.Meets I expand E) {s : Session σ}

include hM

theorem Reachable.listed (h : Reachable M I s) : s.Listed := by
  induction h with
  | start => exact fun _ h => absurd h List.not_mem_nil
  | unify _ l p m ih => exact (keeps_unify hM l p m _).listed ih
  | unifyCalls _ l p m ih => exact (keeps_unifyCalls hM l p m _).listed ih
  | verify _ l d claims ih => exact (keeps_verify hM l d claims _).listed ih
  | expand h p ih =>
      obtain ⟨s₁, hlearns, -, hends⟩ := expand_concludes hM (h.sound hM).coherent p
      exact hends.listed (hlearns.listed ih)

theorem Reachable.distinct (h : Reachable M I s) : s.boundNames.Nodup := by
  induction h with
  | start => exact .nil
  | unify _ l p m ih => exact (keeps_unify hM l p m _).distinct ih
  | unifyCalls _ l p m ih => exact (keeps_unifyCalls hM l p m _).distinct ih
  | verify _ l d claims ih => exact (keeps_verify hM l d claims _).distinct ih
  | expand h p ih =>
      obtain ⟨s₁, hlearns, -, hends⟩ := expand_concludes hM (h.sound hM).coherent p
      rw [boundNames, hends.bindings]
      exact hlearns.distinct ih

theorem Reachable.exists_account (h : Reachable M I s) : ∃ a, s.TellsInOrder M I expand a := by
  have hs := h.sound hM
  have hco := hs.coherent
  have hsays : ∀ l, s.Canonical l → ∃ pl, s.Says M l pl := fun l hl =>
    let ⟨pl, hpl⟩ := hco.exists_reads hl
    ⟨pl, says_of_reads hl hpl⟩
  obtain ⟨bs, hbs⟩ := hco.exists_boundInOrder (h.distinct hM)
  obtain ⟨es, hes⟩ := exists_forall₂ (l := s.entries) (R := s.Lists M) fun e he => by
    obtain ⟨pl, hpl⟩ := hsays e.label (hs.recorded e he).label
    obtain ⟨subss, hsubss⟩ := exists_forall₂ (l := e.alternatives)
      (R := List.Forall₂ (s.Says M)) fun a ha => exists_forall₂ fun l hl =>
        hsays l ((hs.recorded e he).canonical_of_mem ha hl)
    exact ⟨⟨pl, subss⟩, hpl, hsubss⟩
  obtain ⟨ls, hls⟩ := exists_forall₂ (l := s.proved) (R := s.Says M) fun l hl => by
    obtain ⟨e, he, rfl⟩ := mem_labels.1 (h.listed hM l hl)
    exact hsays _ (hs.recorded e he).label
  exact ⟨⟨bs, es, ls⟩, ⟨hco, hbs.sameBound, hes, hls⟩, hbs.names, h.distinct hM⟩

end

/-! ## Sessions and accounts go on alike -/

/-- Live proofs are accepted and rejected as the theses that they stand for. -/
theorem attempts_mirrors (hM : M.Meets I expand E) [DecidableRel E] (hrefl : ∀ v, E v v)
    {s : Session σ} {a : Account} (ht : s.TellsInOrder M I expand a)
    {ps : List Proof} {ts : List Thesis} (h : List.Forall₂ (Proof.Means (M.form? s.world)) ps ts) :
    (Action.attempts (Session.expand M) ps s).1
        = (Action.attempts (Account.expand expand E) ts a).1 ∧
      Grows M s (Action.attempts (Session.expand M) ps s).2 ∧
      (Action.attempts (Session.expand M) ps s).2.TellsInOrder M I expand
        (Action.attempts (Account.expand expand E) ts a).2 :=
  Action.Mirrors.attempts (R := fun p t s => p.Means (M.form? s.world) t)
    (fun _ _ _ _ hG h => h.mono hG.forms)
    (fun _ _ _ _ ht h => expand_mirrors hM failsAlike_true ht hrefl h) ht h

abbrev expandAll (M : Model σ) (ps : List Proof) : Action (Session σ) Unit :=
  ps.forM fun p => do let _ ← Session.expand M p

/-- A list of live proofs is accepted just when the theses that they stand for are. -/
theorem expandAll_mirrors (hM : M.Meets I expand E) {F : Failure → Failure → Prop}
    (hF : FailsAlike M I expand F) [DecidableRel E] (hrefl : ∀ v, E v v) {s : Session σ}
    {a : Account} (ht : s.TellsInOrder M I expand a) {ps : List Proof} {ts : List Thesis}
    (h : List.Forall₂ (Proof.Means (M.form? s.world)) ps ts) :
    (expandAll M ps).Mirrors (Grows M) (TellsInOrder M I expand) F (fun _ _ _ => True)
      (Account.expandAll expand E ts) s a :=
  .forM (R := fun p t s => p.Means (M.form? s.world) t) (fun _ _ _ _ hG h => h.mono hG.forms)
    (fun _ _ _ _ ht h => expand_mirrors hM hF ht hrefl h) ht h

/-- Two sessions are solved alike, but for their bindings, of which `B` is said. -/
inductive SolvedAlike {α : Type} (M : Model σ)
    (B : List (String × Json) → List (String × Json) → Prop) :
    Option (Except Failure (Results α) × Session σ) →
      Option (Except Failure (Results α) × Session σ) → Prop
  | stopped : SolvedAlike M B none none
  | failed {f g : Failure} {s s' : Session σ} (kind : f.kind = g.kind) :
      SolvedAlike M B (some (.error f, s)) (some (.error g, s'))
  | solved {r r' : Results α} {s s' : Session σ} {found : Account.Results α}
      {bindings : List (String × Json)} (means : r.Means (M.form? s.world) found)
      (means' : r'.Means (M.form? s'.world) { found with bindings := bindings })
      (same : B found.bindings bindings) : SolvedAlike M B (some (.ok r, s)) (some (.ok r', s'))

end Session

namespace Account

variable {α : Type} (A : Arithmetic α)

theorem termOf_congr {a b : Account} (h : b.entries = a.entries) (t : Term α)
    (ls : List PortableLabel) : b.termOf A t ls = a.termOf A t ls := by
  have hnumber : ∀ l, b.number? l = a.number? l := fun l => by rw [number?, number?, h]
  induction ls generalizing t with
  | nil => rfl
  | cons l ls ih => simp only [termOf, hnumber, ih]

/-- Bindings do not matter for solving. -/
theorem solve_congr {a b : Account} (hentries : b.entries = a.entries)
    (hproved : b.proved = a.proved) (budget : Option Nat) (limit : Nat) :
    b.solve A budget limit =
      (a.solve A budget limit).map (·.map fun r => { r with bindings := b.bindings }) := by
  have hgraph : b.graph = a.graph := by
    have hdependencies : b.dependencies = a.dependencies := by
      funext e
      have hnumber : b.number? = a.number? := funext fun l => by rw [number?, number?, hentries]
      rw [dependencies, dependencies, hnumber]
    rw [graph, graph, hdependencies, hentries]
  have hsystem : b.system A = a.system A := by
    have hterms : b.termOf A = a.termOf A := by
      funext t ls
      exact termOf_congr A hentries t ls
    rw [system, system, hterms, hentries]
  unfold solve
  rw [hgraph, hsystem, hentries, hproved]
  cases a.system A with
  | error f => rfl
  | ok system =>
      simp only
      rcases system.solve A a.graph a.graph.components budget limit with _ | ⟨_ | ⟨_, _⟩⟩ <;> rfl

theorem bindings_solve (a : Account) {r : Account.Results α} (budget : Option Nat) (limit : Nat)
    (h : a.solve A budget limit = some (.ok r)) : r.bindings = a.bindings := by
  unfold solve at h
  split at h
  · cases h
  · split at h <;> cases h
    rfl

end Account

namespace Session

variable {σ : Type} {M : Model σ} {I : σ → Prop} {expand : Expander} {E : Json → Json → Prop}

/-- Sessions of which the accounts have the same labels and alternatives are solved alike. -/
theorem Tells.solvedAlike {α : Type} (hM : M.Meets I expand E) (A : Arithmetic α)
    {s s' : Session σ} {a a' : Account} (ht : s.Tells M I expand a) (ht' : s'.Tells M I expand a')
    (hsettings : s'.settings = s.settings) (hentries : a'.entries = a.entries)
    (hproved : a'.proved = a.proved) (limit : Nat) :
    SolvedAlike M (fun bs bs' => bs = a.bindings ∧ bs' = a'.bindings) (s.sort.solve M A limit s)
      (s'.sort.solve M A limit s') := by
  have h := solve_mirrors hM A ht limit
  have h' := solve_mirrors hM A ht' limit
  rw [hsettings, Account.solve_congr A hentries hproved] at h'
  have hbindings := fun r => a.bindings_solve A (r := r) s.settings.maxPasses limit
  revert hbindings h h'
  generalize s.sort.solve M A limit s = x
  generalize s'.sort.solve M A limit s' = x'
  generalize a.solve A s.settings.maxPasses limit = y
  intro h h' hbindings
  cases h with
  | stopped =>
      cases h'
      exact .stopped
  | failed _ hkind =>
      cases h' with
      | failed _ hkind' => exact .failed (hkind.trans hkind'.symm)
  | solved _ hmeans =>
      cases h' with
      | solved _ hmeans' => exact .solved hmeans hmeans' ⟨hbindings _ rfl, rfl⟩

theorem SolvedAlike.imp {α : Type} {B B' : List (String × Json) → List (String × Json) → Prop}
    {x y : Option (Except Failure (Results α) × Session σ)} (h : SolvedAlike M B x y)
    (hB : ∀ bs bs', B bs bs' → B' bs bs') : SolvedAlike M B' x y := by
  cases h with
  | stopped => exact .stopped
  | failed hkind => exact .failed hkind
  | solved hmeans hmeans' hsame => exact .solved hmeans hmeans' (hB _ _ hsame)

end Session

/-! ## Whole evaluations -/

namespace Session

variable {σ α : Type} (M : Model σ) (A : Arithmetic α) (limit : Nat)

/-- Solve the session that expanding proofs has led to, if they were accepted. -/
def conclude : Except Failure Unit × Session σ → Option (Except Failure (Results α) × σ)
  | (.error f, s) => some (.error f, s.world)
  | (.ok (), s) => (s.sort.solve M A limit s).map fun x => (x.1, x.2.world)

end Session

theorem Model.evaluate_eq {σ α : Type} (M : Model σ) (A : Arithmetic α) (settings : Settings)
    (limit : Nat) (ps : List Proof) (w : σ) : M.evaluate A settings limit ps w =
      Session.conclude M A limit ((Session.expandAll M ps).run (.start settings w)) := by
  have hin : (M.evaluateIn A limit ps).run (.start settings w) =
      match (Session.expandAll M ps).run (.start settings w) with
      | (.error f, s) => some (.error f, s)
      | (.ok (), s) => s.sort.solve M A limit s := by
    unfold evaluateIn
    show (Run.ofAction (Session.expandAll M ps) >>= _) (Session.start settings w) = _
    rw [Run.bind_apply]
    unfold Run.ofAction
    rcases (Session.expandAll M ps).run (.start settings w) with ⟨f | ⟨⟩, s⟩
    · rfl
    · exact Run.bind_apply _ _ s
  unfold evaluate
  rw [hin]
  rcases (Session.expandAll M ps).run (.start settings w) with ⟨f | ⟨⟩, s⟩
  · rfl
  · simp only [Session.conclude]
    rcases s.sort.solve M A limit s with _ | ⟨x, s'⟩ <;> rfl

/-- To evaluate proofs is to expand all of them and to solve the session. -/
theorem Model.evaluate_ok_iff {σ α : Type} {M : Model σ} {A : Arithmetic α} {settings : Settings}
    {limit : Nat} {ps : List Proof} {w w' : σ} {r : Results α} :
    M.evaluate A settings limit ps w = some (.ok r, w') ↔
      ∃ s s', (Session.expandAll M ps).run (.start settings w) = (.ok (), s) ∧
        s.sort.solve M A limit s = some (.ok r, s') ∧ s'.world = w' := by
  rw [evaluate_eq]
  rcases (Session.expandAll M ps).run (.start settings w) with ⟨f | ⟨⟩, s⟩
  · constructor
    · intro h
      cases h
    · rintro ⟨_, _, h, -⟩
      cases h
  · rw [Session.conclude, Option.map_eq_some_iff]
    constructor
    · rintro ⟨⟨x, s'⟩, hsolve, h⟩
      cases h
      exact ⟨s, s', rfl, hsolve, rfl⟩
    · rintro ⟨_, s', h, hsolve, rfl⟩
      cases h
      exact ⟨(.ok r, s'), hsolve, rfl⟩

end ChanceProof
