import ChanceProof.Proofs.Evaluation.Equations
import ChanceProof.Proofs.Model.Library

/-!
# Proved probabilities are lower bounds

The equations of a session are inequalities between true probabilities: a dependency is bounded by
what is true of its label, and the alternatives of a label are paths that exclude each other. So at
values that are below what is true within some depth, every equation stays below what is true one
call deeper (`ascends_bounds`). A system starts below the truth, so nothing that the solver finds
exceeds the true probability of its label. This holds for recursive systems as for others, and
wherever the solver stops: `Model.evaluate_lower_bound`.
-/

namespace ChanceProof.Session

variable {σ : Type} {M : Model σ} {I : σ → Prop} {expand : Expander}

/-! ## Entries -/

/-- An alternative that is recorded for a call reads as a path to the result of its label. -/
theorem Records.path_of_reads {s : Session σ} {l : Label} {a : List Label}
    (h : s.Records M expand (fun v w => v.print = w.print) l a) {pl : PortableLabel}
    (hpl : l.Reads (s.form? M) pl) {sk : Sketch} (hsk : expand pl.function pl.parameters = .ok sk)
    {subs : List PortableLabel} (hsubs : List.Forall₂ (Label.Reads (s.form? M)) a subs) :
    sk.Path subs pl.result := by
  obtain ⟨pl', sk', subs', rs, hpl', hsk', hsubs', hpath, halike⟩ := h.path
  obtain rfl := reads_unique hpl hpl'
  cases hsk.symm.trans hsk'
  obtain rfl := forall₂_reads_unique hsubs hsubs'
  rw [eq_of_alike_print halike]
  exact hpath

section

variable {s : Session σ} {l : Label} {pl : PortableLabel} (hpl : l.Reads (s.form? M) pl)
  {as : List (List Label)} {subss : List (List PortableLabel)}
  (hsubss : List.Forall₂ (List.Forall₂ (Label.Reads (s.form? M))) as subss) (n : Nat)

include hpl hsubss

/-- A coin has itself as its only alternative, since it does not differ from itself. -/
theorem sum_pathWeight_coin_le (hcoin : ∀ a ∈ as, a = [l]) (hdisjoint : as.Pairwise Differ) :
    (subss.map (pathWeight expand n)).sum ≤ pl.truthWithin expand (n + 1) := by
  have hself : ¬Differ [l] [l] := by
    rw [differ_cons_iff]
    simp
  cases hsubss with
  | nil => exact pl.truthWithin_nonneg expand _
  | @cons a subs as subss ha has =>
      obtain rfl := hcoin a List.mem_cons_self
      cases has with
      | nil =>
          obtain ⟨pl', rest, hpl', hnil, rfl⟩ := List.forall₂_cons_left_iff.1 ha
          cases hnil
          obtain rfl := reads_unique hpl hpl'
          rw [List.map_singleton, List.sum_singleton, pathWeight_cons, pathWeight_nil, mul_one]
          exact PortableLabel.truthWithin_mono (Nat.le_succ n)
      | @cons b _ _ _ hb _ =>
          obtain rfl := hcoin b (List.mem_cons_of_mem _ List.mem_cons_self)
          exact absurd ((List.pairwise_cons.1 hdisjoint).1 _ List.mem_cons_self) hself

theorem sum_pathWeight_paths_le (hs : s.Coherent M I expand) (hl : l.isPrimitive = false)
    (hpaths : ∀ a ∈ as, s.Records M expand (fun v w => v.print = w.print) l a)
    (hdisjoint : as.Pairwise Differ) :
    (subss.map (pathWeight expand n)).sum ≤ pl.truthWithin expand (n + 1) := by
  have hsketch : subss = [] ∨ ∃ sk, expand pl.function pl.parameters = .ok sk := by
    cases hsubss with
    | nil => exact .inl rfl
    | @cons a _ _ _ _ _ =>
        obtain ⟨pl', sk, -, -, hpl', hsk, -, -, -⟩ := (hpaths a List.mem_cons_self).path
        obtain rfl := reads_unique hpl hpl'
        exact .inr ⟨sk, hsk⟩
  rcases hsketch with rfl | ⟨sk, hsk⟩
  · exact pl.truthWithin_nonneg expand _
  refine ChanceProof.sum_pathWeight_le expand n (hpl.function_ne hl) hsk (fun subs hsubs => ?_) ?_
  · obtain ⟨a, ha, hread⟩ := exists_of_forall₂_mem hsubss hsubs
    exact (hpaths a ha).path_of_reads hpl hsk hread
  · have hcanonical := (List.forall₂_and_left _ _).2 ⟨fun a ha => (hpaths a ha).canonical, hsubss⟩
    exact pairwise_of_forall₂ hcanonical.flip hdisjoint
      fun _ _ _ _ ⟨ha, hsubs⟩ ⟨hb, hsubs'⟩ h => results_ne_of_differ hs ha hb hsubs hsubs' h

end

/-- The paths of an entry have no more probability together than its label, one call deeper. -/
theorem Sound.sum_pathWeight_le {s : Session σ}
    (hs : s.Sound M I expand fun v w => v.print = w.print) {e : Entry} (he : e ∈ s.entries)
    {pl : PortableLabel} (hpl : e.label.Reads (s.form? M) pl) {subss : List (List PortableLabel)}
    (hsubss : List.Forall₂ (List.Forall₂ (Label.Reads (s.form? M))) e.alternatives subss)
    (n : Nat) : (subss.map (pathWeight expand n)).sum ≤ pl.truthWithin expand (n + 1) := by
  have hrec := hs.recorded e he
  cases hp : e.label.isPrimitive with
  | true => exact sum_pathWeight_coin_le hpl hsubss n (hrec.coin hp) hrec.disjoint
  | false => exact sum_pathWeight_paths_le hpl hsubss n hs.coherent hp (hrec.paths hp) hrec.disjoint

/-! ## Bounds -/

/-- Values of the labels of a session that are below what is true of them within some depth. -/
def Below (M : Model σ) (expand : Expander) (settled : ℚ → ℚ → Bool) (s : Session σ) (n : Nat)
    (values : Array ℚ) : Prop :=
  ∀ i e pl, s.entries[i]? = some e → e.label.Reads (s.form? M) pl →
    System.valueAt (exactArithmetic settled) values i ≤ pl.truthWithin expand (n + 1)

section

variable {settled : ℚ → ℚ → Bool} {s : Session σ} {n : Nat} {values : Array ℚ}
  (hvalues : ∀ i, 0 ≤ System.valueAt (exactArithmetic settled) values i)
  (hbelow : Below M expand settled s n values)

include hbelow

theorem worth_le {l : Label} {sub : PortableLabel} (hl : l.Reads (s.form? M) sub) :
    s.worth expand settled values l sub ≤ sub.truthWithin expand (n + 1) := by
  unfold worth
  split
  · exact PortableLabel.truthWithin_mono (Nat.le_add_left 1 n)
  · cases hi : s.number? l with
    | none => exact sub.truthWithin_nonneg expand _
    | some i =>
        obtain ⟨e, he, rfl⟩ := number?_some hi
        exact hbelow i e sub he hl

include hvalues

theorem pathWorth_le {labels : List Label} {subs : List PortableLabel}
    (hlabels : List.Forall₂ (Label.Reads (s.form? M)) labels subs) :
    s.pathWorth expand settled values labels subs ≤ pathWeight expand (n + 1) subs := by
  induction hlabels with
  | nil => exact le_refl 1
  | @cons l sub labels subs hl _ ih =>
      rw [pathWeight_cons, pathWorth, List.zipWith_cons_cons, List.prod_cons]
      exact mul_le_mul (worth_le hbelow hl) ih (pathWorth_nonneg hvalues labels subs)
        (sub.truthWithin_nonneg expand _)

/-- At values below the truth, what the alternatives of an entry are worth is below what is true of
it one call deeper. -/
theorem Sound.sum_pathWorth_le (hs : s.Sound M I expand fun v w => v.print = w.print) {e : Entry}
    (he : e ∈ s.entries) {pl : PortableLabel} (hpl : e.label.Reads (s.form? M) pl)
    {subss : List (List PortableLabel)}
    (hsubss : List.Forall₂ (List.Forall₂ (Label.Reads (s.form? M))) e.alternatives subss) :
    (List.zipWith (s.pathWorth expand settled values) e.alternatives subss).sum
      ≤ pl.truthWithin expand (n + 2) :=
  (forall₂_zipWith_map hsubss fun _ _ _ ha => pathWorth_le hvalues hbelow ha).sum_le_sum.trans
    (hs.sum_pathWeight_le he hpl hsubss (n + 1))

end

/-- What is true of the labels within some depth, by number. -/
def bounds (expand : Expander) (pls : List PortableLabel) (n i : Nat) : ℚ :=
  pls[i]?.elim 0 (PortableLabel.truthWithin expand (n + 1))

/-- What is true of the labels bounds their system. -/
theorem ascends_bounds {s : Session σ} (hs : s.Sound M I expand fun v w => v.print = w.print)
    {settled : ℚ → ℚ → Bool} {pls : List PortableLabel}
    (hpls : List.Forall₂ (fun e pl => e.label.Reads (s.form? M) pl) s.entries pls)
    {system : System ℚ}
    (hsystem : List.Forall₂ (Equates M expand settled s) s.entries system.toList) :
    System.Ascends settled system (bounds expand pls) where
  mono n i := by
    unfold bounds
    cases pls[i]? with
    | none => exact le_refl 0
    | some pl => exact PortableLabel.truthWithin_mono (Nat.le_succ (n + 1))
  nonneg n i := by
    unfold bounds
    cases pls[i]? with
    | none => exact le_refl 0
    | some pl => exact pl.truthWithin_nonneg expand (n + 1)
  step n values hunder i := by
    have hvalues : ∀ i, 0 ≤ System.valueAt (exactArithmetic settled) values i :=
      fun i => (hunder i).1
    have hbelow : Below M expand settled s n values := by
      intro j e pl he hpl
      obtain ⟨pl', hj, hpl'⟩ := forall₂_some_left hpls he
      obtain rfl := reads_unique hpl hpl'
      have hle := (hunder j).2
      rwa [bounds, hj] at hle
    unfold System.newValue
    rw [← Array.getElem?_toList]
    rcases forall₂_getElem? hsystem i with ⟨-, hnone⟩ | ⟨e, ts, he, hts, hequates⟩
    · rw [hnone]
      refine ⟨le_refl 0, ?_⟩
      unfold bounds
      cases pls[i]? with
      | none => exact le_refl 0
      | some pl => exact pl.truthWithin_nonneg expand (n + 2)
    · have hmem := List.mem_of_getElem? he
      obtain ⟨pl, hpl, hread⟩ := forall₂_some_left hpls he
      obtain ⟨subss, hsubss⟩ := hs.exists_alternatives hmem
      rw [hts, bounds, hpl, Option.getD_some, hequates subss hsubss]
      exact ⟨sum_pathWorth_nonneg hvalues _ _,
        hs.sum_pathWorth_le hvalues hbelow hmem hread hsubss⟩

/-- Expanding proofs one after another leads to a session that can be reached. -/
theorem Reachable.forM_expand {proofs : List Proof} {s s' : Session σ} (h : Reachable M I s)
    (hr : (proofs.forM fun p => do let _ ← Session.expand M p : Action (Session σ) Unit).run s
      = (.ok (), s')) : Reachable M I s' := by
  refine Action.forM_invariant_of_ok (fun s p l s' hreach hl => ?_) h hr
  have hexpand := hreach.expand p
  rwa [hl] at hexpand

theorem labels_zip_mem {s : Session σ} {values : Array ℚ} {l : Label} {p : ℚ}
    (h : (l, p) ∈ s.labels.zip values.toList) :
    ∃ (i : Nat) (e : Entry), s.entries[i]? = some e ∧ e.label = l ∧ values[i]? = some p := by
  obtain ⟨i, hi⟩ := List.mem_iff_getElem?.1 h
  rw [List.getElem?_zip_eq_some] at hi
  obtain ⟨hl, hp⟩ := hi
  rw [labels, List.getElem?_map, Option.map_eq_some_iff] at hl
  obtain ⟨e, he, rfl⟩ := hl
  exact ⟨i, e, he, rfl, by rwa [Array.getElem?_toList] at hp⟩

end ChanceProof.Session

namespace ChanceProof

open Session

variable {σ : Type} {M : Model σ} {I : σ → Prop} {expand : Expander}

/-- What is solved is at most what is true. -/
theorem SortedSession.solve_le_truth (hM : M.Lawful I expand) (settled : ℚ → ℚ → Bool)
    {limit : Nat} {s s' : Session σ} (hs : s.Sound M I expand fun v w => v.print = w.print)
    {r : Results ℚ} (hr : s.sort.solve M (exactArithmetic settled) limit s = some (.ok r, s')) :
    ∀ l p, (l, p) ∈ r.labels → ∃ pl, l.Reads (literalForm? (M.form? s'.world)) pl ∧
      (p : ℝ) ≤ pl.truth expand := by
  unfold SortedSession.solve at hr
  obtain ⟨system, s₁, hsystem, hr⟩ := Run.bind_ok.1 hr
  obtain ⟨hlearns, hequations⟩ := (system_ends hM hs settled).of_run_ok (Option.some.inj hsystem)
  cases hsolve : system.solve (exactArithmetic settled) s.sort.graph s.sort.components
      s.sort.session.settings.maxPasses limit with
  | none =>
      rw [hsolve] at hr
      cases hr
  | some answer =>
      rw [hsolve] at hr
      cases answer with
      | error e => cases hr
      | ok found =>
          obtain ⟨values, passes⟩ := found
          cases hr
          intro l p hmem
          obtain ⟨i, e, he, rfl, hp⟩ := labels_zip_mem hmem
          have hreads : ∀ e ∈ s.entries, ∃ pl, e.label.Reads (s.form? M) pl := fun e he =>
            hs.coherent.exists_reads (hs.recorded e he).label
          obtain ⟨pls, hpls⟩ := exists_forall₂ hreads
          obtain ⟨n, hunder⟩ := System.solve_under (ascends_bounds hs hpls hequations) hsolve
          obtain ⟨pl, hpl, hread⟩ := forall₂_some_left hpls he
          have hcanonical := hlearns.canonical (hs.recorded e (List.mem_of_getElem? he)).label
          refine ⟨pl, hcanonical.reads_literals (hlearns.reads hs.coherent hread), ?_⟩
          have hle := (hunder i).2
          rw [System.valueAt, hp, Option.getD_some, bounds, hpl] at hle
          exact le_trans (by exact_mod_cast hle) (PortableLabel.truthWithin_le_truth (n + 1))

/-- Proved probabilities are lower bounds of true ones, and so at most one. -/
theorem Model.evaluate_lower_bound (hM : M.Lawful I expand) (settled : ℚ → ℚ → Bool)
    (settings : Settings) (limit : Nat) (proofs : List Proof) {world world' : σ} (hw : I world)
    {r : Results ℚ} (hr : M.evaluate (exactArithmetic settled) settings limit proofs world
      = some (.ok r, world')) :
    ∀ l p, (l, p) ∈ r.labels → ∃ pl, l.Reads (literalForm? (M.form? world')) pl ∧
      (p : ℝ) ≤ pl.truth expand ∧ (p : ℝ) ≤ 1 := by
  unfold Model.evaluate at hr
  cases hrun : (M.evaluateIn (exactArithmetic settled) limit proofs).run
      (start settings world) with
  | none =>
      rw [hrun] at hr
      cases hr
  | some answer =>
      rw [hrun] at hr
      obtain ⟨x, s'⟩ := answer
      cases hr
      obtain ⟨_, s, hexpand, hsolve⟩ := Run.bind_ok.1 hrun
      obtain ⟨_, s₁, hget, hsolve⟩ := Run.bind_ok.1 hsolve
      cases hget
      have hreach : Reachable M I (start settings world) := .start settings hw
      have hs := (hreach.forM_expand (Option.some.inj hexpand)).sound hM
      intro l p hmem
      obtain ⟨pl, hread, hle⟩ := SortedSession.solve_le_truth hM settled hs hsolve l p hmem
      exact ⟨pl, hread, hle, hle.trans pl.truth_le_one⟩

/-! ## Tossing until tails -/

/-- Toss a fair coin again as long as it lands true. -/
def untilTails : Library :=
  [("again", fun
    | [.bool true] => .append Call.coinFunction [.literal (.number (.float 0.5))] ["x"]
        (.append "again" [.named "x"] ["y"] (.done [.named "y"]))
    | _ => .done [.literal (.bool false)])]

namespace untilTails

theorem expand_ok {f : String} {vs : List Json} {sk : Sketch}
    (h : untilTails.expand f vs = .ok sk) :
    sk = ⟨[⟨Call.coinFunction, [.object (.number (.float 0.5))], ["x"]⟩,
        ⟨"again", [.named "x"], ["y"]⟩], [.named "y"]⟩ ∨ sk = ⟨[], [.object (.bool false)]⟩ := by
  unfold Library.expand untilTails at h
  rw [List.lookup_cons] at h
  split at h
  · cases h
  · next hfun =>
      split at hfun
      · cases hfun
        by_cases hvs : vs = [.bool true]
        · subst hvs
          exact .inl (Except.ok.inj h).symm
        · simp only at h
          exact .inr (Except.ok.inj h).symm
      · cases hfun

/-- The values in the text of the function are plain, whatever it is called with. -/
theorem plain_object {f : String} {vs : List Json} {sk : Sketch}
    (h : untilTails.expand f vs = .ok sk) {v : Json}
    (hv : .object v ∈ sk.steps.flatMap (·.parameters) ++ sk.result) : v.Plain := by
  rcases expand_ok h with rfl | rfl
  · obtain rfl : v = .number (.float 0.5) := by simpa using hv
    have hfinite : (Number.float 0.5).Finite := by decide +kernel
    exact ⟨hfinite, rfl⟩
  · obtain rfl : v = .bool false := by simpa using hv
    exact ⟨trivial, rfl⟩

theorem lawful : untilTails.model.Lawful (Library.Holds Json.Plain) untilTails.expand := by
  refine Library.lawful fun f vs sk _ h item hitem v hv => ?_
  subst hv
  exact plain_object h hitem

/-- A call with its result, by the handles of both. -/
def label (start result : Nat) : Label := ⟨⟨"again", [.literal ⟨start⟩]⟩, [.literal ⟨result⟩]⟩

def toss (landed : Nat) : Mapping := .ofList [("x", .literal ⟨landed⟩), ("y", .literal ⟨1⟩)]

/-- Tossing ends with tails, whether it has to go on or not. -/
def proofs : List Proof := [⟨label 0 1, [toss 0, toss 1]⟩, ⟨label 1 1, [.ofList []]⟩]

end untilTails

theorem untilTails_bounded : ∃ (r : Results ℚ) (world' : Store) (pl : PortableLabel),
    untilTails.model.evaluate (exactArithmetic fun x y => y - x ≤ 1 / 4) .standard 10
      untilTails.proofs Library.truths = some (.ok r, world') ∧
    (untilTails.label 0 1).Reads (literalForm? (untilTails.model.form? world')) pl ∧
    ((3 / 4 : ℚ) : ℝ) ≤ pl.truth untilTails.expand := by
  have hlabels : (untilTails.model.evaluate (exactArithmetic fun x y => y - x ≤ 1 / 4) .standard 10
      untilTails.proofs Library.truths).map (fun x => x.1.toOption.map (·.labels))
        = some (some [(untilTails.label 0 1, 3 / 4), (untilTails.label 1 1, 1)]) := by
    decide +kernel
  cases hr : untilTails.model.evaluate (exactArithmetic fun x y => y - x ≤ 1 / 4) .standard 10
      untilTails.proofs Library.truths with
  | none =>
      rw [hr] at hlabels
      cases hlabels
  | some answer =>
      rw [hr] at hlabels
      obtain ⟨_ | r, world'⟩ := answer
      · cases hlabels
      · have heq : r.labels = [(untilTails.label 0 1, 3 / 4), (untilTails.label 1 1, 1)] :=
          Option.some.inj (Option.some.inj hlabels)
        have hmem : (untilTails.label 0 1, 3 / 4) ∈ r.labels := by
          rw [heq]
          exact List.mem_cons_self
        obtain ⟨pl, hread, hle, -⟩ := Model.evaluate_lower_bound untilTails.lawful _ _ _ _
          Library.truths_holds hr _ _ hmem
        exact ⟨r, world', pl, rfl, hread, hle⟩

end ChanceProof
