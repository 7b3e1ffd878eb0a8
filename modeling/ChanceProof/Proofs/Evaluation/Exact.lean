import ChanceProof.Proofs.Evaluation.Exhaustive
import ChanceProof.Proofs.Solving.Acyclic

/-!
# Proved probabilities can be exact

In a system without recursion the solver evaluates each label once, and all values are what their
equations say. If the session is exhaustive besides, no equation misses anything, so by induction
on the depth no value is below what is true of its label within that depth. Since none is above the
truth either, what the solver finds is the truth: `Model.evaluate_exact`.
-/

namespace ChanceProof.Session

variable {σ : Type} {M : Model σ} {I : σ → Prop} {expand : Expander} {E : Json → Json → Prop}

/-! ## The dependency graph -/

theorem graph_eq (s : Session σ) : s.graph = .ofEdges s.entries.length
    (s.entries.zipIdx.flatMap fun (e, i) => (s.dependencies e).map fun j => (i, j)) := by
  unfold graph Graph.ofEdges
  rw [List.foldl_flatMap]
  simp only [List.foldl_map]

theorem proper_graph (s : Session σ) : s.graph.Proper := by
  rw [graph_eq]
  exact Graph.proper_ofEdges _ _

theorem size_graph (s : Session σ) : s.graph.size = s.entries.length := by
  rw [graph_eq, Graph.size_ofEdges]

/-- A label leads to those with an entry in its alternatives. -/
theorem leads_graph {s : Session σ} {i j : Nat} {e : Entry} (he : s.entries[i]? = some e)
    {a : List Label} (ha : a ∈ e.alternatives) {l : Label} (hl : l ∈ a)
    (hcall : l.isPrimitive = false) (hj : s.number? l = some j) :
    Graph.Leads s.graph.successors i j := by
  have hdependency : j ∈ s.dependencies e := by
    unfold dependencies
    refine List.mem_filterMap.2 ⟨l, List.mem_filter.2 ⟨List.mem_flatten.2 ⟨a, ha, hl⟩, ?_⟩, hj⟩
    rw [hcall]
    rfl
  obtain ⟨e', he', -⟩ := number?_some hj
  rw [graph_eq, Graph.leads_ofEdges]
  refine ⟨List.mem_flatMap.2 ⟨(e, i), ?_, List.mem_map_of_mem hdependency⟩,
    (List.getElem?_eq_some_iff.1 he).1, (List.getElem?_eq_some_iff.1 he').1⟩
  exact List.mem_zipIdx_iff_getElem?.2 he

theorem zipWith_congr_left {α β γ : Type} {f g : α → β → γ} {xs : List α}
    (h : ∀ x ∈ xs, f x = g x) (ys : List β) : List.zipWith f xs ys = List.zipWith g xs ys := by
  induction xs generalizing ys with
  | nil => rfl
  | cons x xs ih =>
      cases ys with
      | nil => rfl
      | cons y ys =>
          rw [List.zipWith_cons_cons, List.zipWith_cons_cons, h x List.mem_cons_self,
            ih fun x hx => h x (List.mem_cons_of_mem _ hx)]

/-- Equations read no values but along the dependency graph. -/
theorem readsAlong_graph {settled : ℚ → ℚ → Bool} {s : Session σ} (hs : s.Sound M I expand E)
    {system : System ℚ}
    (hsystem : List.Forall₂ (Equates M expand settled s) s.entries system.toList) :
    System.ReadsAlong (exactArithmetic settled) system s.graph := by
  intro i values values' hsame
  unfold System.newValue
  rw [← Array.getElem?_toList]
  rcases forall₂_getElem? hsystem i with ⟨-, hnone⟩ | ⟨e, ts, he, hts, hequates⟩
  · rw [hnone]
    rfl
  obtain ⟨subss, hsubss⟩ := hs.exists_alternatives (List.mem_of_getElem? he)
  rw [hts, Option.getD_some, hequates subss hsubss, hequates subss hsubss]
  refine congrArg List.sum (zipWith_congr_left (fun a ha => funext fun subs => ?_) subss)
  refine congrArg List.prod (zipWith_congr_left (fun l hl => funext fun sub => ?_) subs)
  unfold worth
  cases hp : l.isPrimitive with
  | true => rfl
  | false =>
      cases hj : s.number? l with
      | none => rfl
      | some j => exact hsame j (leads_graph he ha hl hp hj)

/-! ## Exact values -/

section

variable {settled : ℚ → ℚ → Bool} {s : Session σ}
  (hs : s.Sound M I expand fun v w => v.print = w.print) (hb : s.Backed)
  (hex : s.Exhaustive M expand) {system : System ℚ}
  (hsystem : List.Forall₂ (Equates M expand settled s) s.entries system.toList)

include hs hb hex hsystem

/-- Values that solve the equations are at least what is true of their labels within any depth. -/
theorem above_of_solution {values : Array ℚ}
    (hvalues : ∀ i, 0 ≤ System.valueAt (exactArithmetic settled) values i)
    (hsolution : ∀ i < system.size, System.valueAt (exactArithmetic settled) values i
      = System.newValue (exactArithmetic settled) system values i) (n : Nat) :
    Above M expand settled s n values := by
  induction n with
  | zero =>
      intro i e pl _ _
      exact hvalues i
  | succ n ih =>
      intro i e pl he hpl
      have hmem := List.mem_of_getElem? he
      have hlt : i < system.size := by
        rw [← Array.length_toList, ← hsystem.length_eq]
        exact (List.getElem?_eq_some_iff.1 he).1
      obtain ⟨subss, hsubss⟩ := hs.exists_alternatives hmem
      obtain ⟨ts, hts, hequates⟩ := forall₂_some_left hsystem he
      rw [hsolution i hlt, System.newValue, ← Array.getElem?_toList, hts, Option.getD_some,
        hequates subss hsubss]
      exact hex.truthWithin_le_sum hvalues ih hs hb hmem hpl hsubss

/-- An exhaustive system without recursion is solved, and its values are true. -/
theorem solve_eq_truth
    (hacyclic : ∀ c ∈ s.graph.components, s.graph.isRecursive c = false)
    (budget : Option Nat) (limit : Nat) :
    ∃ values, system.solve (exactArithmetic settled) s.graph s.graph.components budget limit
        = some (.ok (values, s.graph.components.length)) ∧ values.size = s.entries.length ∧
      ∀ i e pl, s.entries[i]? = some e → e.label.Reads (s.form? M) pl →
        ((System.valueAt (exactArithmetic settled) values i : ℚ) : ℝ) = pl.truth expand := by
  have hsize : s.entries.length = system.size := by
    rw [hsystem.length_eq, Array.length_toList]
  obtain ⟨values, hsolve, hlength, hsolution⟩ := System.solve_acyclic (proper_graph s)
    ((size_graph s).trans hsize) hacyclic (readsAlong_graph hs hsystem) budget limit
  obtain ⟨pls, hpls⟩ := exists_forall₂ (R := fun e pl => Label.Reads (s.form? M) e.label pl)
    fun e he => hs.coherent.exists_reads (hs.recorded e he).label
  obtain ⟨m, hunder⟩ := System.solve_under (ascends_bounds hs hpls hsystem) hsolve
  have habove := above_of_solution hs hb hex hsystem (fun i => (hunder i).1) hsolution
  refine ⟨values, hsolve, hlength.trans hsize.symm, fun i e pl he hpl => le_antisymm ?_ ?_⟩
  · obtain ⟨pl', hi, hpl'⟩ := forall₂_some_left hpls he
    obtain rfl := reads_unique hpl hpl'
    have hle := (hunder i).2
    rw [bounds, hi] at hle
    exact le_trans (by exact_mod_cast hle) (PortableLabel.truthWithin_le_truth (m + 1))
  · exact ciSup_le fun n => by exact_mod_cast habove n i e pl he hpl

end

end ChanceProof.Session

namespace ChanceProof

open Session

variable {σ : Type} {M : Model σ} {I : σ → Prop} {expand : Expander}

/-- Solving an exhaustive session without recursion reports the true probability of every label. It
does not fail but for a label that says of a coin what no coin does. -/
theorem SortedSession.solve_exact (hM : M.Lawful I expand) (settled : ℚ → ℚ → Bool) (limit : Nat)
    {s : Session σ} (hs : s.Sound M I expand fun v w => v.print = w.print) (hb : s.Backed)
    (hex : s.Exhaustive M expand)
    (hacyclic : ∀ c ∈ s.sort.components, s.sort.graph.isRecursive c = false) :
    ∃ answer s', s.sort.solve M (exactArithmetic settled) limit s = some (answer, s') ∧
      match answer with
      | .error f => NoCoin f
      | .ok r => r.labels.map Prod.fst = s.labels ∧ ∀ l p, (l, p) ∈ r.labels →
          ∃ pl, l.Reads (literalForm? (M.form? s'.world)) pl ∧ (p : ℝ) = pl.truth expand := by
  unfold SortedSession.solve
  rw [Run.bind_apply]
  unfold Run.ofAction
  rcases (system_ends hM hs settled).cases with ⟨system, s', hr, hlearns, hsystem⟩ | ⟨f, s', hr, hf⟩
  · obtain ⟨values, hsolve, hsize, htruth⟩ := solve_eq_truth hs hb hex hsystem hacyclic
      s.sort.session.settings.maxPasses limit
    rw [hr]
    simp only
    rw [show s.sort.graph = s.graph from rfl, show s.sort.components = s.graph.components from rfl,
      hsolve]
    refine ⟨_, s', rfl, ?_, fun l p hmem => ?_⟩
    · have hlength : s.labels.length = values.toList.length :=
        (List.length_map _).trans (hsize.symm.trans values.length_toList.symm)
      exact List.map_fst_zip hlength.le
    · obtain ⟨i, e, he, rfl, hp⟩ := labels_zip_mem hmem
      have hcanonical := (hs.recorded e (List.mem_of_getElem? he)).label
      obtain ⟨pl, hpl⟩ := hs.coherent.exists_reads hcanonical
      refine ⟨pl, (hlearns.canonical hcanonical).reads_literals (hlearns.reads hs.coherent hpl), ?_⟩
      rw [← htruth i e pl he hpl, System.valueAt, hp, Option.getD_some]
  · rw [hr]
    exact ⟨_, s', rfl, hf⟩

/-- If all proofs are accepted and make an exhaustive session without recursion, the probability
reported for each label is its true probability. Every proved label has one, whatever the budget and
the limit, unless a label says of a coin what no coin does. -/
theorem Model.evaluate_exact (hM : M.Lawful I expand) (settled : ℚ → ℚ → Bool)
    (settings : Settings) (limit : Nat) (proofs : List Proof) {world : σ} (hw : I world)
    {s : Session σ}
    (hs : (proofs.forM fun p => do let _ ← Session.expand M p : Action (Session σ) Unit).run
      (start settings world) = (.ok (), s))
    (hacyclic : ∀ c ∈ s.sort.components, s.sort.graph.isRecursive c = false)
    (hexhaustive : s.Exhaustive M expand) :
    ∃ answer world', M.evaluate (exactArithmetic settled) settings limit proofs world
        = some (answer, world') ∧
      match answer with
      | .error f => NoCoin f
      | .ok r => (∀ l ∈ s.proved, ∃ p, (l, p) ∈ r.labels) ∧ ∀ l p, (l, p) ∈ r.labels →
          ∃ pl, l.Reads (literalForm? (M.form? world')) pl ∧ (p : ℝ) = pl.truth expand := by
  have hreach : Reachable M I (start settings world) := .start settings hw
  have hbacked := (backed_start settings world).forM_expand hM (hreach.sound hM) hs
  obtain ⟨answer, s', hsolve, hanswer⟩ := SortedSession.solve_exact hM settled limit
    ((hreach.forM_expand hs).sound hM) hbacked hexhaustive hacyclic
  have hrun : (M.evaluateIn (exactArithmetic settled) limit proofs).run (start settings world)
      = some (answer, s') := by
    unfold evaluateIn
    show (_ >>= _ : Run (Session σ) (Results ℚ)) _ = _
    rw [Run.bind_apply]
    unfold Run.ofAction
    rw [hs]
    exact hsolve
  refine ⟨answer, s'.world, ?_, ?_⟩
  · unfold evaluate
    rw [hrun]
  · cases answer with
    | error f => exact hanswer
    | ok r =>
        obtain ⟨hlabels, htruth⟩ := hanswer
        refine ⟨fun l hl => ?_, htruth⟩
        rw [← hbacked.proved, ← hlabels] at hl
        obtain ⟨⟨l', p⟩, hmem, rfl⟩ := List.mem_map.1 hl
        exact ⟨p, hmem⟩

/-! ## Two tosses, of which the first is returned -/

/-- The first toss is a call of its own, the second one is not. -/
def tossFirst : Library :=
  [("toss", fun _ => .append Call.coinFunction [.literal (.number (.float 0.5))] ["x"]
      (.done [.named "x"])),
    ("first", fun _ => .append "toss" [] ["x"]
      (.append Call.coinFunction [.literal (.number (.float 0.5))] ["y"] (.done [.named "x"])))]

namespace tossFirst

def half : Json := .number (.float 0.5)

def tossSketch : Sketch := ⟨[⟨Call.coinFunction, [.object half], ["x"]⟩], [.named "x"]⟩

def firstSketch : Sketch :=
  ⟨[⟨"toss", [], ["x"]⟩, ⟨Call.coinFunction, [.object half], ["y"]⟩], [.named "x"]⟩

theorem expand_ok {f : String} {vs : List Json} {sk : Sketch}
    (h : tossFirst.expand f vs = .ok sk) : sk = tossSketch ∨ sk = firstSketch := by
  unfold Library.expand tossFirst at h
  rw [List.lookup_cons, List.lookup_cons] at h
  split at h
  · cases h
  · next hfun =>
      split at hfun
      · cases hfun
        exact .inl (Except.ok.inj h).symm
      · split at hfun
        · cases hfun
          exact .inr (Except.ok.inj h).symm
        · cases hfun

theorem plain_half : half.Plain := by
  have hfinite : (Number.float 0.5).Finite := by decide +kernel
  exact ⟨hfinite, rfl⟩

/-- The only value in the text of the functions is the probability of their coins. -/
theorem object_eq {f : String} {vs : List Json} {sk : Sketch} (h : tossFirst.expand f vs = .ok sk)
    {v : Json} (hv : .object v ∈ sk.steps.flatMap (·.parameters) ++ sk.result) : v = half := by
  rcases expand_ok h with rfl | rfl
  · simpa [tossSketch] using hv
  · simpa [firstSketch] using hv

theorem lawful : tossFirst.model.Lawful (Library.Holds Json.Plain) tossFirst.expand := by
  refine Library.lawful fun f vs sk _ h item hitem v hv => ?_
  subst hv
  rw [object_eq h hitem]
  exact plain_half

def first : Label := ⟨⟨"first", []⟩, [.literal ⟨0⟩]⟩

def toss : Label := ⟨⟨"toss", []⟩, [.literal ⟨0⟩]⟩

/-- The first toss lands true, whatever the second one does. -/
def proofs : List Proof :=
  [⟨first, [.ofList [("x", .literal ⟨0⟩), ("y", .literal ⟨0⟩)],
      .ofList [("x", .literal ⟨0⟩), ("y", .literal ⟨1⟩)]]⟩,
    ⟨toss, [.ofList [("x", .literal ⟨0⟩)]]⟩]

def expanded : Except Failure Unit × Session Store :=
  (proofs.forM fun p => do let _ ← Session.expand tossFirst.model p :
    Action (Session Store) Unit).run (start .standard Library.truths)

def coin (landed : Nat) : Label := ⟨⟨Call.coinFunction, [.literal ⟨2⟩]⟩, [.literal ⟨landed⟩]⟩

theorem accepted : (proofs.forM fun p => do let _ ← Session.expand tossFirst.model p :
    Action (Session Store) Unit).run (start .standard Library.truths) = (.ok (), expanded.2) := by
  have hok : expanded.1 = .ok () := by decide +kernel
  show expanded = (.ok (), expanded.2)
  rw [← hok]

theorem proved_eq : expanded.2.proved = [first, toss] := by decide +kernel

theorem forms : [0, 1, 2].map (fun n => expanded.2.form? tossFirst.model (.literal ⟨n⟩))
    = [some (.bool true), some (.bool false), some half] := by decide +kernel

theorem coin_reads (landed : Bool) :
    (coin (if landed then 0 else 1)).Reads (expanded.2.form? tossFirst.model)
      ⟨Call.coinFunction, [half], [.bool landed]⟩ := by
  obtain ⟨htrue, hfalse, hhalf⟩ : _ ∧ _ ∧ _ := by simpa using forms
  cases landed with
  | true => exact ⟨rfl, .cons hhalf .nil, .cons htrue .nil⟩
  | false => exact ⟨rfl, .cons hhalf .nil, .cons hfalse .nil⟩

theorem call_reads (function : String) : Label.Reads (expanded.2.form? tossFirst.model)
    ⟨⟨function, []⟩, [.literal ⟨0⟩]⟩ ⟨function, [], [.bool true]⟩ := by
  obtain ⟨htrue, -, -⟩ : _ ∧ _ ∧ _ := by simpa using forms
  exact ⟨rfl, .nil, .cons htrue .nil⟩

/-- A toss returns true only by landing so. -/
theorem possible_toss {path : List PortableLabel}
    (h : expanded.2.Possible tossFirst.model tossFirst.expand toss path) :
    path = [⟨Call.coinFunction, [half], [.bool true]⟩] := by
  obtain ⟨pl, sk, hpl, hsk, ⟨hfollows, hreturns⟩, -⟩ := h
  obtain rfl := reads_unique (call_reads "toss") hpl
  obtain rfl : tossSketch = sk := Except.ok.inj hsk
  rcases path with _ | ⟨⟨f, ps, rs⟩, _ | ⟨l, rest⟩⟩
  · exact hfollows.elim
  · obtain ⟨rfl, hps, hlength, -⟩ := hfollows
    obtain rfl : [half] = ps := Option.some.inj hps
    obtain ⟨v, rfl⟩ := List.length_eq_one_iff.1 hlength
    obtain rfl : v = .bool true := (List.cons.inj (Option.some.inj hreturns)).1
    rfl
  · exact hfollows.2.2.2.elim

/-- The first toss has landed true, and the second one in some way. -/
theorem possible_first {path : List PortableLabel}
    (h : expanded.2.Possible tossFirst.model tossFirst.expand first path) :
    ∃ landed, path = [⟨"toss", [], [.bool true]⟩,
      ⟨Call.coinFunction, [half], [.bool landed]⟩] := by
  obtain ⟨pl, sk, hpl, hsk, ⟨hfollows, hreturns⟩, hne⟩ := h
  obtain rfl := reads_unique (call_reads "first") hpl
  obtain rfl : firstSketch = sk := Except.ok.inj hsk
  rcases path with _ | ⟨⟨f, ps, rs⟩, _ | ⟨⟨f', ps', rs'⟩, _ | ⟨l, rest⟩⟩⟩
  · exact hfollows.elim
  · exact hfollows.2.2.2.elim
  · obtain ⟨rfl, hps, hlength, rfl, hps', -, -⟩ := hfollows
    obtain rfl : [] = ps := Option.some.inj hps
    obtain rfl : [half] = ps' := Option.some.inj hps'
    obtain ⟨v, rfl⟩ := List.length_eq_one_iff.1 hlength
    obtain rfl : v = .bool true := (List.cons.inj (Option.some.inj hreturns)).1
    obtain ⟨depth, hweight⟩ := (pathTruth_ne_zero_iff _).1 hne
    obtain ⟨landed, rfl⟩ := exists_landed rfl (truthWithin_ne_zero_of_mem _ _ hweight
      (List.mem_cons_of_mem _ List.mem_cons_self))
    exact ⟨landed, rfl⟩
  · exact hfollows.2.2.2.2.2.2.elim

theorem exhaustive : expanded.2.Exhaustive tossFirst.model tossFirst.expand := by
  have hfirst : expanded.2.alternativesOf first = [[toss, coin 0], [toss, coin 1]] := by
    decide +kernel
  have htoss : expanded.2.alternativesOf toss = [[coin 0]] := by decide +kernel
  constructor
  · intro l hl _ path hpath
    rw [proved_eq, List.mem_pair] at hl
    rcases hl with rfl | rfl
    · obtain ⟨landed, rfl⟩ := possible_first hpath
      refine ⟨[toss, coin (if landed then 0 else 1)], ?_,
        .cons (call_reads "toss") (.cons (coin_reads landed) .nil)⟩
      rw [hfirst]
      cases landed <;> simp
    · obtain rfl := possible_toss hpath
      refine ⟨[coin 0], ?_, .cons (coin_reads true) .nil⟩
      rw [htoss]
      exact List.mem_cons_self
  · intro l hl _ path hpath sub hsub hfun
    rw [proved_eq, List.mem_pair] at hl
    rcases hl with rfl | rfl
    · obtain ⟨landed, rfl⟩ := possible_first hpath
      rcases List.mem_pair.1 hsub with rfl | rfl
      · refine ⟨toss, ?_, call_reads "toss"⟩
        rw [proved_eq]
        exact List.mem_cons_of_mem _ List.mem_cons_self
      · exact absurd rfl hfun
    · obtain rfl := possible_toss hpath
      rw [List.mem_singleton.1 hsub] at hfun
      exact absurd rfl hfun

end tossFirst

theorem tossFirst_exact : ∃ (r : Results ℚ) (world' : Store) (pl : PortableLabel),
    tossFirst.model.evaluate (exactArithmetic fun x y => y - x ≤ 1 / 4) .standard 0
      tossFirst.proofs Library.truths = some (.ok r, world') ∧
    tossFirst.first.Reads (literalForm? (tossFirst.model.form? world')) pl ∧
    ((1 / 2 : ℚ) : ℝ) = pl.truth tossFirst.expand := by
  have hacyclic : ∀ c ∈ tossFirst.expanded.2.sort.components,
      tossFirst.expanded.2.sort.graph.isRecursive c = false := by decide +kernel
  have hlabels : (tossFirst.model.evaluate (exactArithmetic fun x y => y - x ≤ 1 / 4) .standard 0
      tossFirst.proofs Library.truths).map (fun x => x.1.toOption.map (·.labels))
        = some (some [(tossFirst.first, 1 / 2), (tossFirst.toss, 1 / 2)]) := by
    decide +kernel
  obtain ⟨answer, world', hr, hanswer⟩ := Model.evaluate_exact tossFirst.lawful
    (fun x y => y - x ≤ 1 / 4) .standard 0 tossFirst.proofs Library.truths_holds
    tossFirst.accepted hacyclic tossFirst.exhaustive
  rw [hr] at hlabels
  cases answer with
  | error f => cases hlabels
  | ok r =>
      have heq : r.labels = [(tossFirst.first, 1 / 2), (tossFirst.toss, 1 / 2)] :=
        Option.some.inj (Option.some.inj hlabels)
      have hmem : (tossFirst.first, 1 / 2) ∈ r.labels := by
        rw [heq]
        exact List.mem_cons_self
      obtain ⟨pl, hread, htruth⟩ := hanswer.2 _ _ hmem
      exact ⟨r, world', pl, hr, hread, htruth⟩

end ChanceProof
