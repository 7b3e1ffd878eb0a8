import ChanceProof.Proofs.Evaluation.Exact
import ChanceProof.Proofs.Solving.Outside

/-!
# The graph and the terms of a session say the same

A session tells twice what a label depends on: by the edges of its graph, and by the dependencies in
the terms of its equations, which are found again when the coins are read. Both are the labels with
an entry in the alternatives of the label (`numbers_graph`, `dependencies_iff`).

The coefficients are what the coins are worth. To set up the system is to read the coins of the
session one after another, and the equations are those for the values that were read (`system_ok`).

This holds over any model and any arithmetic. Nothing has to be promised of the model, since all
that matters is that no question to it changes the entries, and that their labels are different
(`Reachable.distinct_labels`).
-/

namespace ChanceProof

/-- Of no state everything can be promised. -/
theorem Model.meets_nothing {σ : Type} (M : Model σ) (expand : Expander) (E : Json → Json → Prop) :
    M.Meets (fun _ => False) expand E where
  toExternal_later _ _ := False.elim
  isEqual_later _ _ _ := False.elim
  getDistribution_later _ _ := False.elim
  isEqual_iff h := h.elim
  isEqual_answers h := h.elim
  getDistribution_cases h := h.elim

namespace Session

variable {σ α β : Type} {M : Model σ}

/-! ## Labels are different -/

/-- The entries are what they were. -/
def SameEntries (s s' : Session σ) : Prop := s'.entries = s.entries

instance : Std.Refl (SameEntries (σ := σ)) := ⟨fun _ => rfl⟩

instance : IsTrans (Session σ) SameEntries := ⟨fun _ _ _ h h' => Eq.trans h' h⟩

/-- Different labels stay different. -/
def StaysDistinct (s s' : Session σ) : Prop :=
  s.entries.Pairwise (·.label ≠ ·.label) → s'.entries.Pairwise (·.label ≠ ·.label)

instance : Std.Refl (StaysDistinct (σ := σ)) := ⟨fun _ h => h⟩

instance : IsTrans (Session σ) StaysDistinct := ⟨fun _ _ _ h h' => h' ∘ h⟩

/-- What only teaches a session something keeps its entries. -/
theorem sameEntries_of_learns {x : Action (Session σ) β}
    (h : ∀ {I E} {expand : Expander}, M.Meets I expand E → x.Keeps (Learns M I expand)) :
    x.Keeps SameEntries := fun s =>
  (h (M.meets_nothing (fun _ _ => .error (.protocol "")) fun _ _ => False) s).entries

theorem staysDistinct_of_same {x : Action (Session σ) β} (h : x.Keeps SameEntries) :
    x.Keeps StaysDistinct := fun s hd => by
  rwa [h s]

theorem keeps_distribution (c : Call) : (distribution M c).Keeps SameEntries := by
  intro s
  rw [run_distribution]
  cases s.expansions.lookup c with
  | some e => rfl
  | none => rcases (M.getDistribution c).run s.world with ⟨f | e, w⟩ <;> rfl

theorem keeps_alternatives (p : Proof) (c : Call) : (alternatives M p c).Keeps SameEntries :=
  (keeps_distribution c).bind fun d => (Action.Keeps.liftM _).bind fun _ =>
    .mapM p.mappings fun m => sameEntries_of_learns fun hM => keeps_alternative hM p.label d m

theorem keeps_groundValues_entries (l : Label) (vs : List Value) :
    (groundValues M l vs).Keeps SameEntries :=
  sameEntries_of_learns fun hM => keeps_groundValues hM l vs

theorem keeps_addAlternatives (l : Label) (as : List (List Label)) :
    (addAlternatives l as : Action (Session σ) Unit).Keeps StaysDistinct := by
  intro s hd
  have hentry := distinct_withEntry hd l
  rw [run_addAlternatives]
  split
  · exact hentry
  · exact distinct_setAlternatives hentry l _

theorem keeps_record (l : Label) (c : Call) (as : Label → List (List Label)) :
    (record M l c as).Keeps StaysDistinct := by
  refine (staysDistinct_of_same (keeps_groundValues_entries l l.result)).bind fun rs => ?_
  refine (keeps_addAlternatives _ _).bind fun _ => ?_
  have hproved : ∀ g : Label, (modify fun s : Session σ => { s with proved := s.proved ++ [g] } :
      Action (Session σ) Unit).Keeps StaysDistinct := fun _ _ hd => hd
  exact (hproved _).bind fun _ => .pure _

theorem keeps_expand (p : Proof) : (Session.expand M p).Keeps StaysDistinct := by
  rw [expand_eq]
  refine (staysDistinct_of_same (keeps_groundValues_entries p.label _)).bind fun ps => ?_
  simp only
  split
  · split
    · exact (Action.Keeps.throw _).bind fun _ => keeps_record _ _ _
    · exact keeps_record _ _ _
  · exact (staysDistinct_of_same (keeps_alternatives p _)).bind fun as => keeps_record _ _ _

/-- Whatever the model does, the labels of a session are different. -/
theorem Reachable.distinct_labels {I : σ → Prop} {s : Session σ} (h : Reachable M I s) :
    s.entries.Pairwise (·.label ≠ ·.label) := by
  induction h with
  | start settings hw => exact .nil
  | unify _ l p m ih =>
      exact staysDistinct_of_same (sameEntries_of_learns fun hM => keeps_unify hM l p m) _ ih
  | unifyCalls _ l p m ih =>
      exact staysDistinct_of_same (sameEntries_of_learns fun hM => keeps_unifyCalls hM l p m) _ ih
  | verify _ l d claims ih =>
      exact staysDistinct_of_same (sameEntries_of_learns fun hM => keeps_verify hM l d claims) _ ih
  | expand _ p ih => exact keeps_expand p _ ih

/-! ## The graph -/

/-- The second label has an entry, and takes part in an execution recorded for the first. -/
def Needs (s : Session σ) (x y : Label) : Prop :=
  y ∈ s.labels ∧ y.isPrimitive = false ∧ ∃ ls ∈ s.alternativesOf x, y ∈ ls

theorem getElem?_labels_iff {s : Session σ} {i : Nat} {x : Label} :
    s.labels[i]? = some x ↔ ∃ e, s.entries[i]? = some e ∧ e.label = x := by
  rw [labels, List.getElem?_map, Option.map_eq_some_iff]

section

variable {s : Session σ} (hd : s.entries.Pairwise (·.label ≠ ·.label))

include hd

theorem mem_alternativesOf_iff {x : Label} {ls : List Label} :
    ls ∈ s.alternativesOf x ↔ ∃ e ∈ s.entries, e.label = x ∧ ls ∈ e.alternatives := by
  constructor
  · intro h
    by_cases hx : ∃ e ∈ s.entries, e.label = x
    · obtain ⟨e, he, rfl⟩ := hx
      rw [alternativesOf_of_mem hd he] at h
      exact ⟨e, he, rfl, h⟩
    · push Not at hx
      rw [alternativesOf_of_not_mem hx] at h
      exact absurd h List.not_mem_nil
  · intro h
    obtain ⟨e, he, rfl, hls⟩ := h
    rwa [alternativesOf_of_mem hd he]

theorem nodup_labels : s.labels.Nodup := List.pairwise_map.2 hd

theorem number?_eq_some_iff {l : Label} {i : Nat} :
    s.number? l = some i ↔ s.labels[i]? = some l :=
  findIdx?_eq_some_iff_of_nodup (nodup_labels hd)

theorem mem_dependencies {e : Entry} {j : Nat} : j ∈ s.dependencies e ↔ ∃ y,
    s.labels[j]? = some y ∧ y.isPrimitive = false ∧ ∃ ls ∈ e.alternatives, y ∈ ls := by
  rw [dependencies, Graph.mem_places_iff (number?_eq_some_iff hd)]
  simp only [Bool.not_eq_true']

/-- The edges of the graph are what labels need. -/
theorem numbers_graph : s.graph.Numbers s.labels s.Needs := by
  rw [graph_eq]
  refine Graph.numbers_ofEdges (nodup_labels hd) And.left fun e he j => ?_
  rw [mem_dependencies hd]
  refine exists_congr fun y => and_congr_right fun hy => ?_
  rw [Needs, alternativesOf_of_mem hd he]
  exact (and_iff_right (List.mem_of_getElem? hy)).symm

end

/-! ## Coins -/

/-- The coins in the alternatives, in the order in which they are met. -/
def coins (s : Session σ) : List Label :=
  (s.entries.flatMap (·.alternatives.flatten)).filter (·.isPrimitive)

section

variable (M) (A : Arithmetic α)

/-- Read the values of coins one after another. What is known already is not read again. -/
def readCoins (known : List (Label × α)) : List Label → Action (Session σ) (List (Label × α))
  | [] => return known
  | l :: labels =>
    match known.lookup l with
    | some _ => readCoins known labels
    | none => do
      let p ← coinValue M A l
      readCoins ((l, p) :: known) labels

/-- The value of a coin among those that are known. -/
def knownValue (known : List (Label × α)) (l : Label) : α := (known.lookup l).getD A.impossible

end

/-- What was known still is, and these coins are. -/
structure Recalls (labels : List Label) (known known' : List (Label × α)) : Prop where
  kept : ∀ l p, known.lookup l = some p → known'.lookup l = some p
  covers : ∀ l ∈ labels, ∃ p, known'.lookup l = some p

/-- These are the values of the coins that are known. -/
def Agrees (coins : Label → α) (known : List (Label × α)) : Prop :=
  ∀ l p, known.lookup l = some p → coins l = p

theorem Agrees.of_recalls {labels : List Label} {known known' : List (Label × α)}
    {coins : Label → α} (h : Agrees coins known') (hr : Recalls labels known known') :
    Agrees coins known := fun l p hp => h l p (hr.kept l p hp)

variable {A : Arithmetic α}

theorem agrees_knownValue (known : List (Label × α)) : Agrees (knownValue A known) known :=
  fun l p hp => by rw [knownValue, hp, Option.getD_some]

theorem keeps_coinValue (l : Label) : (coinValue M A l).Keeps SameEntries := by
  have hask : ∀ h : Handle, (ask (M.toExternal h)).Keeps SameEntries := fun h =>
    sameEntries_of_learns fun hM => keeps_ask (hM.toExternal_later h)
  unfold coinValue
  split
  · next h _ =>
      refine Action.Keeps.bind (sameEntries_of_learns fun hM =>
        keeps_ask (keeps_readProbability hM l.call h)) fun p => ?_
      split
      · refine (hask _).bind fun v => ?_
        split
        · exact .pure _
        · exact Action.Keeps.bind (sameEntries_of_learns fun hM => keeps_display hM _)
            fun _ => .throw _
      · exact .throw _
  · exact .throw _

theorem readCoins_append (known : List (Label × α)) (ls ls' : List Label) :
    readCoins M A known (ls ++ ls') = readCoins M A known ls >>= (readCoins M A · ls') := by
  induction ls generalizing known with
  | nil => rfl
  | cons l ls ih =>
      rw [List.cons_append, readCoins, readCoins]
      split
      · exact ih known
      · simp only [bind_assoc, ih]

/-- One coin of a list that is read. -/
theorem run_readCoins_cons {known : List (Label × α)} {l : Label} {ls : List Label}
    {known' : List (Label × α)} {s s' : Session σ} :
    (readCoins M A known (l :: ls)).run s = (.ok known', s') ↔
      (∃ p, known.lookup l = some p ∧ (readCoins M A known ls).run s = (.ok known', s')) ∨
      ∃ p s₁, known.lookup l = none ∧ (coinValue M A l).run s = (.ok p, s₁) ∧
        (readCoins M A ((l, p) :: known) ls).run s₁ = (.ok known', s') := by
  rw [readCoins]
  cases known.lookup l with
  | some p =>
      simp only [Option.some.injEq, exists_eq_left', reduceCtorEq, false_and, exists_false,
        or_false]
  | none =>
      simp only [Action.run_bind_ok, reduceCtorEq, false_and, exists_false, false_or, true_and]

theorem readCoins_ok {ls : List Label} {known known' : List (Label × α)} {s s' : Session σ}
    (h : (readCoins M A known ls).run s = (.ok known', s')) :
    s'.entries = s.entries ∧ Recalls ls known known' := by
  induction ls generalizing known s with
  | nil =>
      cases h
      exact ⟨rfl, fun _ _ h => h, fun _ h => absurd h List.not_mem_nil⟩
  | cons l ls ih =>
      rcases run_readCoins_cons.1 h with ⟨p, hp, hrest⟩ | ⟨p, s₁, hnone, hcoin, hrest⟩
      · obtain ⟨hentries, hkept, hcovers⟩ := ih hrest
        exact ⟨hentries, hkept, List.forall_mem_cons.2 ⟨⟨p, hkept l p hp⟩, hcovers⟩⟩
      · obtain ⟨hentries, hkept, hcovers⟩ := ih hrest
        have hsame : s₁.entries = s.entries := (keeps_coinValue l).of_run hcoin
        exact ⟨hentries.trans hsame, fun l' p' h => hkept l' p' (lookup_cons_of_new hnone h),
          List.forall_mem_cons.2 ⟨⟨p, hkept l p (by simp)⟩, hcovers⟩⟩

/-- What holds of every value that a coin is read with holds of all that is known in the end. -/
theorem forall_known_of_readCoins {P : Label → α → Prop}
    (hP : ∀ l p s s', (coinValue M A l).run s = (.ok p, s') → P l p) {ls : List Label}
    {known known' : List (Label × α)} {s s' : Session σ}
    (h : (readCoins M A known ls).run s = (.ok known', s'))
    (hknown : ∀ l p, known.lookup l = some p → P l p) :
    ∀ l p, known'.lookup l = some p → P l p := by
  induction ls generalizing known s with
  | nil =>
      cases h
      exact hknown
  | cons l ls ih =>
      rcases run_readCoins_cons.1 h with ⟨p, -, hrest⟩ | ⟨p, s₁, -, hcoin, hrest⟩
      · exact ih hrest hknown
      · refine ih hrest fun l' p' hlookup => ?_
        rw [List.lookup_cons] at hlookup
        split at hlookup
        · next heq =>
            cases hlookup
            rw [beq_iff_eq.1 heq]
            exact hP l p s s₁ hcoin
        · exact hknown l' p' hlookup

/-! ## Terms -/

section

variable (A)

/-- What a label adds to the term of an alternative, for these values of coins. -/
def addLabel (s : Session σ) (coins : Label → α) (t : Term α) (l : Label) : Term α :=
  if l.isPrimitive then { t with coefficient := A.times t.coefficient (coins l) }
  else
    match s.number? l with
    | some i => { t with dependencies := t.dependencies ++ [i] }
    | none => { t with coefficient := A.impossible }

/-- The term of an alternative. -/
def term (s : Session σ) (coins : Label → α) (labels : List Label) : Term α :=
  labels.foldl (s.addLabel A coins) ⟨A.certain, []⟩

/-- The equations of the labels, for these values of coins. -/
def equations (s : Session σ) (coins : Label → α) : System α :=
  (s.entries.map fun e => e.alternatives.map (s.term A coins)).toArray

end

section

variable {s₀ : Session σ}

theorem termOf_ok {s s' : Session σ} (hs : s.entries = s₀.entries) {labels : List Label}
    {known known' : List (Label × α)} {t t' : Term α}
    (h : (termOf M A known t labels).run s = (.ok (known', t'), s')) :
    (readCoins M A known (labels.filter (·.isPrimitive))).run s = (.ok known', s') ∧
      ∀ coins, Agrees coins known' → t' = labels.foldl (s₀.addLabel A coins) t := by
  induction labels generalizing s known t with
  | nil =>
      rw [termOf] at h
      cases h
      exact ⟨rfl, fun _ _ => rfl⟩
  | cons l labels ih =>
      rw [termOf] at h
      split at h
      · next hprim =>
          rw [List.filter_cons_of_pos hprim]
          -- The value of the coin is known in the end, whether it was known before or not.
          have hrest : ∀ {s₁ : Session σ} {known₁ : List (Label × α)} {p : α},
              s₁.entries = s₀.entries → known₁.lookup l = some p →
              (termOf M A known₁ { t with coefficient := A.times t.coefficient p } labels).run s₁
                = (.ok (known', t'), s') →
              (readCoins M A known₁ (labels.filter (·.isPrimitive))).run s₁ = (.ok known', s') ∧
                ∀ coins, Agrees coins known' →
                  t' = (l :: labels).foldl (s₀.addLabel A coins) t := by
            intro s₁ known₁ p hs₁ hp hrun
            obtain ⟨hread, hterm⟩ := ih hs₁ hrun
            refine ⟨hread, fun coins hcoins => ?_⟩
            have hcoin : coins l = p := hcoins l p ((readCoins_ok hread).2.kept l p hp)
            rw [hterm coins hcoins, List.foldl_cons, addLabel, if_pos hprim, hcoin]
          split at h
          · next p hp =>
              obtain ⟨hread, hterm⟩ := hrest hs hp h
              exact ⟨run_readCoins_cons.2 (.inl ⟨p, hp, hread⟩), hterm⟩
          · next hnone =>
              obtain ⟨p, s₁, hcoin, h⟩ := Action.run_bind_ok.1 h
              have hs₁ : s₁.entries = s.entries := (keeps_coinValue l).of_run hcoin
              obtain ⟨hread, hterm⟩ := hrest (hs₁.trans hs) (by simp) h
              exact ⟨run_readCoins_cons.2 (.inr ⟨p, s₁, hnone, hcoin, hread⟩), hterm⟩
      · next hcall =>
          rw [List.filter_cons_of_neg hcall]
          have hnumber : s.number? l = s₀.number? l := by rw [number?, number?, hs]
          obtain ⟨s₁, s₂, hget, h⟩ := Action.run_bind_ok.1 h
          cases hget
          rw [hnumber] at h
          split at h
          · next i hi =>
              obtain ⟨hread, hterm⟩ := ih hs h
              refine ⟨hread, fun coins hcoins => ?_⟩
              rw [hterm coins hcoins, List.foldl_cons, addLabel, if_neg hcall, hi]
          · next hi =>
              obtain ⟨hread, hterm⟩ := ih hs h
              refine ⟨hread, fun coins hcoins => ?_⟩
              rw [hterm coins hcoins, List.foldl_cons, addLabel, if_neg hcall, hi]

theorem termsOf_ok {s s' : Session σ} (hs : s.entries = s₀.entries) {as : List (List Label)}
    {known known' : List (Label × α)} {ts : List (Term α)}
    (h : (termsOf M A known as).run s = (.ok (known', ts), s')) :
    (readCoins M A known (as.flatten.filter (·.isPrimitive))).run s = (.ok known', s') ∧
      ∀ coins, Agrees coins known' → ts = as.map (s₀.term A coins) := by
  induction as generalizing s known ts with
  | nil =>
      rw [termsOf] at h
      cases h
      exact ⟨rfl, fun _ _ => rfl⟩
  | cons a as ih =>
      rw [termsOf] at h
      obtain ⟨⟨known₁, t⟩, s₁, ht, h⟩ := Action.run_bind_ok.1 h
      obtain ⟨⟨known₂, ts'⟩, s₂, hts, h⟩ := Action.run_bind_ok.1 h
      cases h
      obtain ⟨hread, hterm⟩ := termOf_ok hs ht
      obtain ⟨hread', hterms⟩ := ih ((readCoins_ok hread).1.trans hs) hts
      refine ⟨?_, fun coins hcoins => ?_⟩
      · rw [List.flatten_cons, List.filter_append, readCoins_append,
          Action.run_bind_of_ok hread, hread']
      · rw [hterm coins (hcoins.of_recalls (readCoins_ok hread').2), hterms coins hcoins]
        rfl

theorem equationsOf_ok {s s' : Session σ} (hs : s.entries = s₀.entries) {es : List Entry}
    {known : List (Label × α)} {equations : List (List (Term α))}
    (h : (equationsOf M A known es).run s = (.ok equations, s')) :
    ∃ known', (readCoins M A known
        ((es.flatMap (·.alternatives.flatten)).filter (·.isPrimitive))).run s
          = (.ok known', s') ∧
      ∀ coins, Agrees coins known' →
        equations = es.map fun e => e.alternatives.map (s₀.term A coins) := by
  induction es generalizing s known equations with
  | nil =>
      rw [equationsOf] at h
      cases h
      exact ⟨known, rfl, fun _ _ => rfl⟩
  | cons e es ih =>
      rw [equationsOf] at h
      obtain ⟨⟨known₁, ts⟩, s₁, hts, h⟩ := Action.run_bind_ok.1 h
      obtain ⟨rest, s₂, hrest, h⟩ := Action.run_bind_ok.1 h
      cases h
      obtain ⟨hread, hterms⟩ := termsOf_ok hs hts
      obtain ⟨known', hread', hequations⟩ := ih ((readCoins_ok hread).1.trans hs) hrest
      refine ⟨known', ?_, fun coins hcoins => ?_⟩
      · rw [List.flatMap_cons, List.filter_append, readCoins_append,
          Action.run_bind_of_ok hread, hread']
      · rw [hterms coins (hcoins.of_recalls (readCoins_ok hread').2), hequations coins hcoins]
        rfl

end

/-- To set up the system of a session is to read its coins, each once. The equations are those for
the values that were read. -/
theorem system_ok {s s' : Session σ} {system : System α}
    (h : (Session.system M A).run s = (.ok system, s')) :
    ∃ known, (readCoins M A [] s.coins).run s = (.ok known, s') ∧
      system = s.equations A (knownValue A known) := by
  obtain ⟨s₁, s₂, hget, h⟩ := Action.run_bind_ok.1 h
  cases hget
  obtain ⟨equations, s₃, hequations, h⟩ := Action.run_bind_ok.1 h
  cases h
  obtain ⟨known, hread, hterms⟩ := equationsOf_ok rfl hequations
  exact ⟨known, hread, congrArg List.toArray (hterms _ (agrees_knownValue known))⟩

/-! ## Dependencies -/

theorem dependencies_term (s : Session σ) (coins : Label → α) (ls : List Label) :
    (s.term A coins ls).dependencies = (ls.filter (!·.isPrimitive)).filterMap s.number? := by
  suffices h : ∀ t : Term α, (ls.foldl (s.addLabel A coins) t).dependencies
      = t.dependencies ++ (ls.filter (!·.isPrimitive)).filterMap s.number? from
    (h _).trans (List.nil_append _)
  induction ls with
  | nil => exact fun t => (List.append_nil _).symm
  | cons l ls ih =>
      intro t
      rw [List.foldl_cons, ih, addLabel]
      cases hprim : l.isPrimitive with
      | true => simp [hprim]
      | false =>
          cases hnumber : s.number? l with
          | none => simp [hprim, hnumber]
          | some i => simp [hprim, hnumber]

theorem mem_dependencies_term {s : Session σ} (hd : s.entries.Pairwise (·.label ≠ ·.label))
    {coins : Label → α} {ls : List Label} {j : Nat} : j ∈ (s.term A coins ls).dependencies ↔
      ∃ y ∈ ls, y.isPrimitive = false ∧ s.labels[j]? = some y := by
  rw [dependencies_term, List.mem_filterMap]
  simp only [List.mem_filter, Bool.not_eq_true', number?_eq_some_iff hd, and_assoc]

section

variable {s s' : Session σ} {system : System α}
  (hsystem : (Session.system M A).run s = (.ok system, s'))

include hsystem

theorem size_system : system.size = s.labels.length := by
  obtain ⟨known, -, rfl⟩ := system_ok hsystem
  rw [equations, List.size_toArray, List.length_map, labels, List.length_map]

/-- The labels on which the terms of a label depend are those to which it leads. -/
theorem dependencies_iff (hd : s.entries.Pairwise (·.label ≠ ·.label)) {i j : Nat} :
    (∃ t ∈ system[i]?.getD [], j ∈ t.dependencies) ↔ Graph.Leads s.graph.successors i j := by
  obtain ⟨known, -, rfl⟩ := system_ok hsystem
  rw [graph_eq, Graph.leads_ofEdges_zipIdx, equations, List.getElem?_toArray, List.getElem?_map]
  cases he : s.entries[i]? with
  | none => simp
  | some e =>
      simp only [Option.map_some, Option.getD_some, List.mem_map, Option.some.injEq]
      constructor
      · intro h
        obtain ⟨_, ⟨ls, hls, rfl⟩, hj⟩ := h
        obtain ⟨y, hy, hcall, hplace⟩ := (mem_dependencies_term hd).1 hj
        have hlt := (List.getElem?_eq_some_iff.1 hplace).1
        rw [labels, List.length_map] at hlt
        exact ⟨hlt, e, rfl, (mem_dependencies hd).2 ⟨y, hplace, hcall, ls, hls, hy⟩⟩
      · intro h
        obtain ⟨-, _, rfl, hj⟩ := h
        obtain ⟨y, hplace, hcall, ls, hls, hy⟩ := (mem_dependencies hd).1 hj
        exact ⟨_, ⟨ls, hls, rfl⟩, (mem_dependencies_term hd).2 ⟨y, hy, hcall, hplace⟩⟩

theorem leads_dependencies (hd : s.entries.Pairwise (·.label ≠ ·.label)) :
    ∀ i, ∀ t ∈ system[i]?.getD [], ∀ d ∈ t.dependencies, Graph.Leads s.graph.successors i d :=
  fun _ t ht _ hmem => (dependencies_iff hsystem hd).1 ⟨t, ht, hmem⟩

theorem size_graph_eq_system : s.graph.size = system.size := by
  rw [size_graph, size_system hsystem, labels, List.length_map]

end

end Session

end ChanceProof
