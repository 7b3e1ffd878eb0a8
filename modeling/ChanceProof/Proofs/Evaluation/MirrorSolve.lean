import ChanceProof.Proofs.Evaluation.Exact
import ChanceProof.Proofs.Evaluation.MirrorExpand

/-!
# Sessions and accounts are solved alike

A session and its account number their labels in the same way, so they have the same dependency
graph, and the terms of their equations are the same. What the session remembers of coins is what
the account works out again. So both are solved to the same values, or neither is: `solve_mirrors`.
-/

namespace ChanceProof

/-- The results say the same, by handles and by forms. -/
structure Results.Means {α : Type} (φ : Handle → Option Json) (r : Results α)
    (r' : Account.Results α) : Prop where
  labels : List.Forall₂ (fun x y => x.1.Reads (literalForm? φ) y.1 ∧ x.2 = y.2) r.labels r'.labels
  proved : List.Forall₂ (Label.Reads (literalForm? φ)) r.proved r'.proved
  bindings : Session.SameBound φ r.bindings r'.bindings
  components : r.stats.components = r'.components.length
  recursiveComponents : r.stats.recursiveComponents = r'.recursiveComponents
  passes : r.stats.passes = r'.passes

namespace Session

variable {σ α : Type} {M : Model σ} {I : σ → Prop} {expand : Expander} {E : Json → Json → Prop}

/-! ## The dependency graph -/

theorem Says.isPrimitive_iff {s : Session σ} {l : Label} {pl : PortableLabel}
    (h : s.Says M l pl) : l.isPrimitive = true ↔ pl.function = Call.coinFunction := by
  rw [← h.function]
  exact Call.isPrimitive_iff

/-- The same labels are left out of two lists that say the same, those of coins. -/
theorem forall₂_compound {s : Session σ} {ls : List Label} {pls : List PortableLabel}
    (h : List.Forall₂ (s.Says M) ls pls) : List.Forall₂ (s.Says M)
      (ls.filter (!·.isPrimitive)) (pls.filter (·.function != Call.coinFunction)) := by
  refine List.rel_filter (fun l pl hl => ?_) h
  show (!l.isPrimitive) = true ↔ (pl.function != Call.coinFunction) = true
  rw [Bool.not_eq_true', ← Bool.not_eq_true, bne_iff_ne, ne_eq, hl.isPrimitive_iff]

section

variable {s : Session σ} {a : Account} (ht : s.Tells M I expand a)

include ht

theorem Tells.dependencies {e : Entry} {e' : Account.Entry} (he : s.Lists M e e') :
    s.dependencies e = a.dependencies e' := by
  have hlabels := forall₂_compound (List.rel_flatten he.alternatives)
  unfold Session.dependencies Account.dependencies
  generalize e.alternatives.flatten.filter (!·.isPrimitive) = ls at hlabels ⊢
  generalize e'.alternatives.flatten.filter (·.function != Call.coinFunction) = pls at hlabels ⊢
  induction hlabels with
  | nil => rfl
  | cons hl _ ih => rw [List.filterMap_cons, List.filterMap_cons, ht.number? hl, ih]

theorem Tells.graph : s.graph = a.graph := by
  have hlength := ht.entries.length_eq
  unfold Session.graph Account.graph
  rw [hlength]
  have hentries : List.Forall₂ (fun (x : Entry × Nat) (y : Account.Entry × Nat) =>
      s.dependencies x.1 = a.dependencies y.1 ∧ x.2 = y.2) s.entries.zipIdx a.entries.zipIdx := by
    have hes := ht.entries
    generalize s.entries = es at hes
    generalize a.entries = es' at hes
    generalize 0 = n
    induction hes generalizing n with
    | nil => exact .nil
    | cons he _ ih => exact .cons ⟨ht.dependencies he, rfl⟩ (ih (n + 1))
  generalize Graph.ofSize a.entries.length = g
  generalize s.entries.zipIdx = xs at hentries
  generalize a.entries.zipIdx = ys at hentries
  induction hentries generalizing g with
  | nil => rfl
  | @cons x y xs ys hxy _ ih =>
      obtain ⟨e, i⟩ := x
      obtain ⟨e', j⟩ := y
      obtain ⟨hdependencies, rfl⟩ : s.dependencies e = a.dependencies e' ∧ i = j := hxy
      simp only [List.foldl_cons, hdependencies]
      exact ih _

end

/-! ## Coins -/

/-- The operation answers what can be worked out from the account, and finds no unknown. -/
abbrev Answers (M : Model σ) (I : σ → Prop) (expand : Expander) (F : Failure → Failure → Prop)
    (a : Account) {β γ : Type} (Q : β → γ → Session σ → Prop) (x : Action (Session σ) β)
    (e : Except Failure γ) (s : Session σ) : Prop :=
  x.Mirrors (Grows M) (fun s' (_ : Unit) => s'.Tells M I expand a) F Q
    (liftM e : Action Unit γ) s ()

section

variable {F : Failure → Failure → Prop} (hM : M.Meets I expand E)
  (hF : ∀ {f g : Failure}, f.kind = g.kind → F f g) (A : Arithmetic α) {s : Session σ}
  {a : Account} (ht : s.Tells M I expand a)

include hM ht

theorem toExternal_denotes {v : Value} {j : Json} (hv : s.Denotes M v j) :
    ∃ h s', v = .literal h ∧ (ask (M.toExternal h)).run s = (.ok j, s') ∧ Grows M s s' ∧
      s'.Tells M I expand a := by
  obtain ⟨h, rfl, -, hj⟩ := hv
  obtain ⟨w, hw⟩ := Model.run_of_form? hj
  have hask := run_ask_ok.2 ⟨w, hw, rfl⟩
  have hlearns : Learns M I expand s _ := (keeps_ask (hM.toExternal_later h)).of_run hask
  exact ⟨h, _, rfl, hask, hlearns.grows ht.coherent,
    ht.learns hlearns ((sameBindings_ask (M.toExternal h)).of_run hask)⟩

theorem display_answers (h : Handle) :
    ∃ x s', (display M h).run s = (.ok x, s') ∧ Grows M s s' ∧ s'.Tells M I expand a := by
  have hsame : (display M h).Keeps SameBindings :=
    .tryCatch ((sameBindings_ask _).bind fun _ => .pure _) fun _ => .pure _
  obtain ⟨x, s', hr⟩ := run_display M h s
  have hlearns : Learns M I expand s _ := (keeps_display hM h).of_run hr
  exact ⟨x, s', hr, hlearns.grows ht.coherent, ht.learns hlearns (hsame.of_run hr)⟩

include hF

theorem readProbability_answers (c : Call) {h : Handle} {j : Json}
    (hj : M.form? s.world h = some j) :
    Answers M I expand F a (fun p q _ => p = q) (ask (M.readProbability c h))
      ((probabilityOf j).mapError fun _ => Account.noCoin) s := by
  have hlearns : Learns M I expand s ((ask (M.readProbability c h)).run s).2 :=
    keeps_ask (keeps_readProbability hM c h) s
  obtain ⟨w, hread⟩ := run_readProbability (M := M) hj c
  have hask : (ask (M.readProbability c h)).run s =
      ((probabilityOf j).mapError (CoinDefect.failure c), { s with world := w }) := by
    rw [run_ask, hread]
  rw [hask] at hlearns
  have ht' := ht.learns hlearns rfl
  cases hp : probabilityOf j with
  | error d =>
      rw [hp] at hask
      exact .of_error hask rfl (hlearns.grows ht.coherent) ht' (hF rfl)
  | ok p =>
      rw [hp] at hask
      exact .of_ok hask rfl (hlearns.grows ht.coherent) ht' rfl

theorem coinValue_answers {l : Label} {pl : PortableLabel} (hl : s.Says M l pl) :
    Answers M I expand F a (fun p q _ => p = q) (coinValue M A l) (Account.coinValue A pl) s := by
  obtain ⟨⟨f, ps⟩, rs⟩ := l
  obtain ⟨f', vs, ws⟩ := pl
  obtain ⟨-, hps, hrs⟩ := hl
  unfold coinValue Account.coinValue
  cases hps with
  | nil => exact .throw ht (hF rfl)
  | @cons v j ps vs hv hps =>
      obtain ⟨h, rfl, -, hj⟩ := hv
      cases hps with
      | cons => exact .throw ht (hF rfl)
      | nil =>
          refine (readProbability_answers hM hF ht _ hj).bind_liftM
            fun p q s₁ _ _ hG₁ ht₁ hpq => ?_
          obtain rfl : p = q := hpq
          cases hrs with
          | nil => exact .throw ht₁ (hF rfl)
          | @cons v k rs ws hv hrs =>
              obtain ⟨r, s₂, rfl, hr, hG₂, ht₂⟩ := toExternal_denotes hM ht₁ (hG₁.denotes hv)
              cases hrs with
              | cons => exact .throw ht₁ (hF rfl)
              | nil =>
                  refine .bind_left hr hG₂ ?_
                  simp only
                  cases k.bool? with
                  | some landed => exact .pure ht₂ rfl
                  | none =>
                      obtain ⟨x, s₃, hx, hG₃, ht₃⟩ := display_answers hM ht₂ r
                      exact .bind_left hx hG₃ (.throw ht₃ (hF rfl))

end

/-! ## The equations -/

/-- Coins that are remembered have the values that can be worked out. -/
def Remembers (M : Model σ) (A : Arithmetic α) (s : Session σ) (known : List (Label × α)) : Prop :=
  ∀ l p, known.lookup l = some p → ∃ pl, s.Says M l pl ∧ Account.coinValue A pl = .ok p

theorem Grows.remembers {A : Arithmetic α} {s s' : Session σ} (h : Grows M s s')
    {known : List (Label × α)} (hk : s.Remembers M A known) : s'.Remembers M A known := by
  intro l p hp
  obtain ⟨pl, hl, hvalue⟩ := hk l p hp
  exact ⟨pl, h.saying hl, hvalue⟩

theorem Remembers.cons {A : Arithmetic α} {s : Session σ} {known : List (Label × α)}
    (h : s.Remembers M A known) {l : Label} {pl : PortableLabel} {p : α} (hl : s.Says M l pl)
    (hp : Account.coinValue A pl = .ok p) : s.Remembers M A ((l, p) :: known) := by
  intro l' p' hlookup
  rw [List.lookup_cons] at hlookup
  split at hlookup
  · next heq =>
      cases hlookup
      rw [beq_iff_eq.1 heq]
      exact ⟨pl, hl, hp⟩
  · exact h l' p' hlookup

section

variable {F : Failure → Failure → Prop} (hM : M.Meets I expand E)
  (hF : ∀ {f g : Failure}, f.kind = g.kind → F f g) (A : Arithmetic α) {s : Session σ}
  {a : Account} (ht : s.Tells M I expand a)

include hM hF ht

theorem termOf_answers {known : List (Label × α)} (hk : s.Remembers M A known) (t : Term α)
    {labels : List Label} {pls : List PortableLabel} (h : List.Forall₂ (s.Says M) labels pls) :
    Answers M I expand F a (fun r t' s' => s'.Remembers M A r.1 ∧ r.2 = t')
      (termOf M A known t labels) (a.termOf A t pls) s := by
  induction labels generalizing pls s known t with
  | nil =>
      cases h
      exact .pure ht ⟨hk, rfl⟩
  | cons l labels ih =>
      obtain ⟨pl, pls, hl, hls, rfl⟩ := List.forall₂_cons_left_iff.1 h
      unfold termOf Account.termOf
      by_cases hp : l.isPrimitive = true
      · rw [if_pos hp, if_pos (hl.isPrimitive_iff.1 hp)]
        cases hlookup : known.lookup l with
        | some p =>
            obtain ⟨pl', hl', hvalue⟩ := hk l p hlookup
            obtain rfl := (ht.coherent.says_inj hl hl').1 rfl
            rw [hvalue]
            exact ih ht hk _ hls
        | none =>
            refine (coinValue_answers hM hF A ht hl).bind_liftM
              fun p q s' _ hvalue hG ht' hpq => ?_
            obtain rfl : p = q := hpq
            exact ih ht' ((hG.remembers hk).cons (hG.saying hl) hvalue) _
              (hls.imp fun _ _ => hG.saying)
      · rw [if_neg hp, if_neg fun h => hp (hl.isPrimitive_iff.2 h)]
        refine .bind_left (Action.run_get s) (Grows.refl s) ?_
        rw [ht.number? hl]
        cases a.number? pl with
        | some i => exact ih ht hk _ hls
        | none => exact ih ht hk _ hls

theorem termsOf_answers {known : List (Label × α)} (hk : s.Remembers M A known)
    {as : List (List Label)} {subss : List (List PortableLabel)}
    (h : List.Forall₂ (List.Forall₂ (s.Says M)) as subss) :
    Answers M I expand F a (fun r ts s' => s'.Remembers M A r.1 ∧ r.2 = ts)
      (termsOf M A known as) (subss.mapM (a.termOf A ⟨A.certain, []⟩)) s := by
  induction as generalizing subss s known with
  | nil =>
      cases h
      exact .pure ht ⟨hk, rfl⟩
  | cons ls as ih =>
      obtain ⟨pls, subss, hls, has, rfl⟩ := List.forall₂_cons_left_iff.1 h
      rw [termsOf, List.mapM_cons]
      refine (termOf_answers hM hF A ht hk _ hls).bind_liftM
        fun r t s₁ _ _ hG₁ ht₁ ⟨hk₁, hterm⟩ => ?_
      refine (ih ht₁ hk₁ (has.imp fun _ _ h => h.imp fun _ _ => hG₁.saying)).bind_liftM
        fun r' ts s₂ _ _ hG₂ ht₂ ⟨hk₂, hts⟩ => ?_
      exact .pure ht₂ ⟨hk₂, by rw [hterm, hts]⟩

theorem equationsOf_answers {known : List (Label × α)} (hk : s.Remembers M A known)
    {es : List Entry} {es' : List Account.Entry} (h : List.Forall₂ (s.Lists M) es es') :
    Answers M I expand F a (fun ts ts' _ => ts = ts') (equationsOf M A known es)
      (es'.mapM fun e => e.alternatives.mapM (a.termOf A ⟨A.certain, []⟩)) s := by
  induction es generalizing es' s known with
  | nil =>
      cases h
      exact .pure ht rfl
  | cons e es ih =>
      obtain ⟨e', es', he, hes, rfl⟩ := List.forall₂_cons_left_iff.1 h
      rw [equationsOf, List.mapM_cons]
      refine (termsOf_answers hM hF A ht hk he.alternatives).bind_liftM
        fun r ts s₁ _ _ hG₁ ht₁ ⟨hk₁, hts⟩ => ?_
      refine (ih ht₁ hk₁ (hes.imp fun _ _ => hG₁.lists)).bind_liftM
        fun us us' s₂ _ _ _ ht₂ hus => ?_
      exact .pure ht₂ (by rw [hts, hus])

theorem system_answers :
    Answers M I expand F a (fun system system' _ => system = system') (system M A) (a.system A)
      s := by
  unfold system Account.system
  refine .bind_left (Action.run_get s) (Grows.refl s) ?_
  refine (equationsOf_answers hM hF A ht (by intro l p h; cases h) ht.entries).bind_liftM
    fun ts ts' s₁ _ _ _ ht₁ hts => ?_
  exact .pure ht₁ (by rw [hts])

end

/-! ## The results -/

/-- A run of a session and the solution of its account end alike. -/
inductive EndAlike (M : Model σ) (s : Session σ) :
    Option (Except Failure (Results α) × Session σ) →
      Option (Except Failure (Account.Results α)) → Prop
  | stopped : EndAlike M s none none
  | solved {r : Results α} {r' : Account.Results α} {s' : Session σ} (grows : Grows M s s')
      (means : r.Means (M.form? s'.world) r') : EndAlike M s (some (.ok r, s')) (some (.ok r'))
  | failed {f g : Failure} {s' : Session σ} (grows : Grows M s s') (kind : f.kind = g.kind) :
      EndAlike M s (some (.error f, s')) (some (.error g))

theorem Tells.means {s s' : Session σ} {a : Account} (ht : s.Tells M I expand a)
    (hG : Grows M s s') (values : Array α) (passes : Nat) :
    (s.sort.results values passes).Means (M.form? s'.world)
      { labels := (a.entries.map (·.label)).zip values.toList
        proved := a.proved
        bindings := a.bindings
        components := a.graph.components
        recursiveComponents := a.graph.components.countP a.graph.isRecursive
        passes := passes } := by
  have hlabels : List.Forall₂ (fun (l : Label) pl => l.Reads (literalForm? (M.form? s'.world)) pl)
      s.labels (a.entries.map (·.label)) :=
    List.forall₂_map_left_iff.2 (List.forall₂_map_right_iff.2
      (ht.entries.imp fun _ _ h => (hG.saying h.label).reads))
  refine ⟨?_, ht.proved.imp fun _ _ h => (hG.saying h).reads,
    ht.bindings.mono hG.forms,
    congrArg (·.components.length) ht.graph, ?_, rfl⟩
  · show List.Forall₂ _ (s.labels.zip values.toList) _
    generalize values.toList = vs
    generalize s.labels = ls at hlabels
    generalize a.entries.map (·.label) = pls at hlabels
    induction hlabels generalizing vs with
    | nil => exact .nil
    | cons h _ ih =>
        cases vs with
        | nil => exact .nil
        | cons v vs => exact .cons ⟨h, rfl⟩ (ih vs)
  · show s.graph.components.countP s.graph.isRecursive = _
    rw [ht.graph]

/-- A session and its account are solved alike. -/
theorem solve_mirrors (hM : M.Meets I expand E) (A : Arithmetic α) {s : Session σ} {a : Account}
    (ht : s.Tells M I expand a) (limit : Nat) :
    EndAlike M s (s.sort.solve M A limit s) (a.solve A s.settings.maxPasses limit) := by
  unfold SortedSession.solve Account.solve
  rw [Run.bind_apply]
  unfold Run.ofAction
  have hsystem := system_answers (F := fun f g => f.kind = g.kind) hM id A ht
  cases heq : a.system A with
  | error e =>
      rw [heq] at hsystem
      rcases hsystem.cases with ⟨_, _, _, _, -, hy, -⟩ | ⟨f, g, s', _, hr, hy, hG, -, hkind⟩
      · cases hy
      · cases hy
        rw [hr]
        exact .failed hG hkind
  | ok system =>
      rw [heq] at hsystem
      rcases hsystem.cases with ⟨system', _, s', _, hr, hy, hG, ht', rfl⟩ | ⟨_, _, _, _, -, hy, -⟩
      · cases hy
        rw [hr]
        simp only
        rw [show s.sort.graph = a.graph from ht.graph,
          show s.sort.components = a.graph.components from congrArg Graph.components ht.graph,
          show s.sort.session.settings = s.settings from rfl]
        rcases System.solve A system a.graph a.graph.components s.settings.maxPasses limit with
          _ | ⟨e | ⟨values, passes⟩⟩
        · exact .stopped
        · exact .failed hG rfl
        · exact .solved hG (ht.means hG values passes)
      · cases hy

end Session

end ChanceProof
