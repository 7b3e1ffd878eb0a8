import ChanceProof.Proofs.Evaluation.Grounded
import ChanceProof.Proofs.Evaluation.Exact
import ChanceProof.Proofs.Solving.Outside

/-!
# What labels depend on

The graph and the equations of an account are about numbers of labels, which say only where a label
stands. Here they are said of the labels themselves: one label needs another that takes part in an
execution of it (`numbers_graph`), and the value of a label is the sum over its executions of the
product of the values in them, coins included (`newValue_system`).
-/

namespace ChanceProof.Account

open ChanceProof.Graph (Leads)

/-- The second label has an entry, and takes part in an execution of the first. -/
def Needs (a : Account) (x y : PortableLabel) : Prop :=
  y ∈ a.labels ∧ y.function ≠ Call.coinFunction ∧ ∃ ls ∈ a.alternativesOf x, y ∈ ls

/-! ## Numbers and labels -/

section

variable {a : Account} (hd : a.labels.Nodup)

include hd

theorem number?_eq_some_iff {l : PortableLabel} {i : Nat} :
    a.number? l = some i ↔ a.labels[i]? = some l :=
  findIdx?_eq_some_iff_of_nodup hd

theorem alternativesOf_of_getElem? {e : Entry} {i : Nat} (he : a.entries[i]? = some e) :
    a.alternativesOf e.label = e.alternatives := by
  have hmem := List.mem_of_getElem? he
  unfold labels at hd
  unfold alternativesOf
  generalize a.entries = es at hmem hd
  clear he
  induction es with
  | nil => exact absurd hmem List.not_mem_nil
  | cons e' es ih =>
      obtain ⟨hhead, htail⟩ := List.nodup_cons.1 hd
      rcases List.mem_cons.1 hmem with rfl | hmem
      · simp
      · have hne : e'.label ≠ e.label := fun heq => hhead (List.mem_map.2 ⟨e, hmem, heq.symm⟩)
        rw [List.find?_cons_of_neg (by simpa using hne)]
        exact ih hmem htail

/-! ## The graph -/

omit hd in
theorem graph_eq (a : Account) : a.graph = .ofEdges a.entries.length
    (a.entries.zipIdx.flatMap fun e => (a.dependencies e.1).map fun j => (e.2, j)) := by
  unfold graph Graph.ofEdges
  rw [List.foldl_flatMap]
  simp only [List.foldl_map]

omit hd in
theorem proper_graph (a : Account) : a.graph.Proper := by
  rw [graph_eq]
  exact Graph.proper_ofEdges _ _

omit hd in
theorem size_graph (a : Account) : a.graph.size = a.labels.length := by
  rw [graph_eq, Graph.size_ofEdges, labels, List.length_map]

theorem mem_dependencies {e : Entry} {j : Nat} : j ∈ a.dependencies e ↔ ∃ y,
    a.labels[j]? = some y ∧ y.function ≠ Call.coinFunction ∧ ∃ ls ∈ e.alternatives, y ∈ ls := by
  rw [dependencies, Graph.mem_places_iff (number?_eq_some_iff hd)]
  simp only [bne_iff_ne]

/-- The edges of the graph are what labels need. -/
theorem numbers_graph : a.graph.Numbers a.labels a.Needs := by
  rw [graph_eq]
  refine Graph.numbers_ofEdges hd And.left fun e he j => ?_
  obtain ⟨i, hi⟩ := List.mem_iff_getElem?.1 he
  rw [mem_dependencies hd]
  refine exists_congr fun y => and_congr_right fun hy => ?_
  rw [Needs, alternativesOf_of_getElem? hd hi]
  exact (and_iff_right (List.mem_of_getElem? hy)).symm

end

/-! ## The equations -/

variable {settled : ℚ → ℚ → Bool}

/-- The value of a label in an execution: that of a coin by its probability, and none without an
entry. -/
def worth (settled : ℚ → ℚ → Bool) (a : Account) (values : Array ℚ) (l : PortableLabel) : ℚ :=
  if l.function = Call.coinFunction then
    (coinValue (exactArithmetic settled) l).toOption.getD 0
  else (a.number? l).elim 0 (System.valueAt (exactArithmetic settled) values)

/-- The value of the equation of a label. -/
def sumWorth (settled : ℚ → ℚ → Bool) (a : Account) (values : Array ℚ) (l : PortableLabel) : ℚ :=
  ((a.alternativesOf l).map fun ls => (ls.map (worth settled a values)).prod).sum

theorem termValue_termOf {a : Account} {t t' : Term ℚ} {ls : List PortableLabel}
    (h : a.termOf (exactArithmetic settled) t ls = .ok t') (values : Array ℚ) :
    System.termValue (exactArithmetic settled) values t'
      = System.termValue (exactArithmetic settled) values t
        * (ls.map (worth settled a values)).prod := by
  induction ls generalizing t with
  | nil =>
      cases h
      exact (mul_one _).symm
  | cons l ls ih =>
      rw [termOf] at h
      rw [List.map_cons, List.prod_cons, ← mul_assoc, worth]
      split at h
      · next hcoin =>
          obtain ⟨p, hp, h⟩ := bind_eq_ok_iff.1 h
          rw [ih h, if_pos hcoin, hp]
          exact congrArg (· * _) (System.termValue_times values t p)
      · next hcall =>
          rw [if_neg hcall]
          split at h
          · next i hi =>
              rw [ih h, hi]
              exact congrArg (· * _) (System.termValue_depend values t i)
          · next hnone =>
              rw [ih h, hnone]
              refine congrArg (· * _) ((System.termValue_impossible values t).trans ?_)
              exact (mul_zero _).symm

/-- The equations of an account are the sums over the executions of its labels. -/
theorem newValue_system {a : Account} (hd : a.labels.Nodup) {system : System ℚ}
    (h : a.system (exactArithmetic settled) = .ok system) {i : Nat} {x : PortableLabel}
    (hx : a.labels[i]? = some x) (values : Array ℚ) :
    System.newValue (exactArithmetic settled) system values i = a.sumWorth settled values x := by
  obtain ⟨e, he, rfl⟩ : ∃ e, a.entries[i]? = some e ∧ e.label = x := by
    rw [labels, List.getElem?_map, Option.map_eq_some_iff] at hx
    exact hx
  obtain ⟨equations, hequations, hsystem⟩ := bind_eq_ok_iff.1 h
  obtain rfl := pure_eq_ok_iff.1 hsystem
  obtain ⟨ts, hts, hterms⟩ := forall₂_some_left (mapM_ok_iff.1 hequations) he
  unfold System.newValue sumWorth
  rw [alternativesOf_of_getElem? hd he, List.getElem?_toArray, hts, Option.getD_some,
    System.sumValue_exact]
  have hall := mapM_ok_iff.1 hterms
  clear hts hterms
  generalize e.alternatives = as at hall
  induction hall with
  | nil => rfl
  | cons hls _ ih =>
      rw [List.map_cons, List.sum_cons, List.map_cons, List.sum_cons, ih,
        termValue_termOf hls, System.termValue_exact]
      simp [Arithmetic.exact]

theorem size_system {a : Account} {system : System ℚ}
    (h : a.system (exactArithmetic settled) = .ok system) : system.size = a.labels.length := by
  obtain ⟨equations, hequations, hsystem⟩ := bind_eq_ok_iff.1 h
  obtain rfl := pure_eq_ok_iff.1 hsystem
  rw [List.size_toArray, labels, List.length_map, ← (mapM_ok_iff.1 hequations).length_eq]

theorem worth_congr {a b : Account} {values values' : Array ℚ} {l : PortableLabel}
    (h : l.function ≠ Call.coinFunction →
      (a.number? l).elim 0 (System.valueAt (exactArithmetic settled) values)
        = (b.number? l).elim 0 (System.valueAt (exactArithmetic settled) values')) :
    worth settled a values l = worth settled b values' l := by
  unfold worth
  split
  · rfl
  · next hcall => exact h hcall

/-- The order of executions does not matter, and values only where labels take part in them. -/
theorem sumWorth_congr {a b : Account} {values values' : Array ℚ} {x : PortableLabel}
    (halternatives : (a.alternativesOf x).Perm (b.alternativesOf x))
    (h : ∀ ls ∈ a.alternativesOf x, ∀ y ∈ ls,
      worth settled a values y = worth settled b values' y) :
    a.sumWorth settled values x = b.sumWorth settled values' x := by
  unfold sumWorth
  rw [← (halternatives.map fun ls => (ls.map (worth settled b values')).prod).sum_eq]
  exact congrArg List.sum (List.map_congr_left fun ls hls =>
    congrArg List.prod (List.map_congr_left fun y hy => h ls hls y hy))

/-- Equations read no values but along the dependency graph. -/
theorem readsAlong_system {a : Account} (hd : a.labels.Nodup) {system : System ℚ}
    (h : a.system (exactArithmetic settled) = .ok system) :
    System.ReadsAlong (exactArithmetic settled) system a.graph := by
  intro i values values' hsame
  cases hx : a.labels[i]? with
  | none =>
      have hnone : system[i]? = none := by
        rw [Array.getElem?_eq_none_iff, size_system h]
        exact List.getElem?_eq_none_iff.1 hx
      rw [System.newValue, System.newValue, hnone]
      rfl
  | some x =>
      rw [newValue_system hd h hx, newValue_system hd h hx]
      refine sumWorth_congr (.refl _) fun ls hls y hy => worth_congr fun hcall => ?_
      cases hj : a.number? y with
      | none => rfl
      | some j =>
          have hy' := (number?_eq_some_iff hd).1 hj
          exact hsame j (((numbers_graph hd).leads hx).2
            ⟨y, hy', List.mem_of_getElem? hy', hcall, ls, hls, hy⟩)

/-- The labels have these values: those that do not depend on themselves have the values of their
equations. -/
structure Solved (settled : ℚ → ℚ → Bool) (a : Account) (values : Array ℚ) : Prop where
  size : values.size = a.labels.length
  value : ∀ (i : Nat) (x : PortableLabel), a.labels[i]? = some x → ¬Relation.TransGen a.Needs x x →
    System.valueAt (exactArithmetic settled) values i = a.sumWorth settled values x

/-- What is solved has the values of the equations outside recursion. -/
theorem solved_of_solve {a : Account} (hd : a.labels.Nodup) {budget : Option Nat} {limit : Nat}
    {r : Account.Results ℚ} (h : a.solve (exactArithmetic settled) budget limit = some (.ok r)) :
    ∃ values, a.Solved settled values ∧ r.labels = a.labels.zip values.toList := by
  unfold solve at h
  split at h
  · cases h
  · next system hsystem =>
      split at h
      · cases h
      · cases h
      · next values passes hsolve =>
          cases h
          have hsize : a.graph.size = system.size := by rw [size_graph, size_system hsystem]
          obtain ⟨hvalues, hsolved⟩ := System.solve_outside (proper_graph a) hsize
            (readsAlong_system hd hsystem) hsolve
          refine ⟨values, ⟨hvalues.trans (size_system hsystem), fun i x hx hnot => ?_⟩, rfl⟩
          have hlt : i < a.graph.size := by
            rw [size_graph]
            exact (List.getElem?_eq_some_iff.1 hx).1
          rw [hsolved i hlt fun hrecurs => hnot (((numbers_graph hd).recurs_iff hx).1 hrecurs)]
          exact newValue_system hd hsystem hx values

end ChanceProof.Account
