import ChanceProof.Proofs.Graph.Search
import Mathlib.Algebra.BigOperators.Ring.Finset
import Mathlib.Algebra.Group.Action.Defs
import Mathlib.Data.List.Sort

/-!
# Components are strongly connected

The second search goes against the edges, from the nodes in the order in which the first one
finished them, the last one first. When it starts from a node, the nodes taken before are closed
under predecessors, so the search finds just the other nodes that reach this one
(`Collects.collected`). All of them stand in the block that follows the node in the order of the
first search, for no node behind the block leads into it, and the node reaches its whole block. So
they are the nodes of its component.

That taken nodes are closed under predecessors is also why the components come in topological
order. `components_correct` says all of this of a graph given by its edges.
-/

namespace ChanceProof.Graph

/-! ## Graphs given by their edges -/

/-- The graph that a list of edges makes, in which edges without two nodes have no part. -/
def ofEdges (n : Nat) (edges : List (Nat × Nat)) : Graph :=
  edges.foldl (fun g e => g.addEdge e.1 e.2) (.ofSize n)

/-- Both ends of every edge are nodes. -/
def Proper (g : Graph) : Prop := ∀ e ∈ g.edges, e.1 < g.size ∧ e.2 < g.size

theorem Proper.addEdge {g : Graph} (hg : g.Proper) (u v : Nat) : (g.addEdge u v).Proper := by
  intro e he
  rw [size_addEdge]
  rcases mem_edges_addEdge.1 he with he | ⟨hlt, rfl⟩
  · exact hg e he
  · exact hlt

theorem foldl_addEdge (edges : List (Nat × Nat)) {g : Graph} (hg : g.Proper) :
    (edges.foldl (fun g e => g.addEdge e.1 e.2) g).Proper ∧
    (edges.foldl (fun g e => g.addEdge e.1 e.2) g).size = g.size ∧
    ∀ e, e ∈ (edges.foldl (fun g e => g.addEdge e.1 e.2) g).edges ↔
      e ∈ g.edges ∨ e ∈ edges ∧ e.1 < g.size ∧ e.2 < g.size := by
  induction edges generalizing g with
  | nil => exact ⟨hg, rfl, fun e => by simp⟩
  | cons e' edges ih =>
      obtain ⟨hproper, hsize, hedges⟩ := ih (hg.addEdge e'.1 e'.2)
      refine ⟨hproper, hsize.trans (size_addEdge g _ _), fun e => ?_⟩
      rw [List.foldl_cons, hedges, mem_edges_addEdge, size_addEdge, List.mem_cons]
      constructor
      · rintro ((he | ⟨hlt, rfl⟩) | ⟨he, hlt⟩)
        · exact .inl he
        · exact .inr ⟨.inl rfl, hlt⟩
        · exact .inr ⟨.inr he, hlt⟩
      · rintro (he | ⟨rfl | he, hlt⟩)
        · exact .inl (.inl he)
        · exact .inl (.inr ⟨hlt, rfl⟩)
        · exact .inr ⟨he, hlt⟩

theorem proper_ofSize (n : Nat) : (ofSize n).Proper := fun _ h => (nomatch h)

theorem proper_ofEdges (n : Nat) (edges : List (Nat × Nat)) : (ofEdges n edges).Proper :=
  (foldl_addEdge edges (proper_ofSize n)).1

@[simp] theorem size_ofEdges (n : Nat) (edges : List (Nat × Nat)) : (ofEdges n edges).size = n :=
  (foldl_addEdge edges (proper_ofSize n)).2.1

theorem leads_ofEdges {n : Nat} {edges : List (Nat × Nat)} {u v : Nat} :
    Leads (ofEdges n edges).successors u v ↔ (u, v) ∈ edges ∧ u < n ∧ v < n := by
  rw [Leads, mem_successors, ofEdges, (foldl_addEdge edges (proper_ofSize n)).2.2]
  simp [ofSize]

/-! ## Both searches end -/

variable {g : Graph}

theorem leads_predecessors {u v : Nat} : Leads g.predecessors v u ↔ Leads g.successors u v := by
  rw [Leads, Leads, mem_predecessors, mem_successors]

theorem reaches_predecessors {u v : Nat} :
    Reaches g.predecessors v u ↔ Reaches g.successors u v := by
  have hswap : Leads g.predecessors = Function.swap (Leads g.successors) := by
    funext v u
    exact propext leads_predecessors
  rw [Reaches, hswap, Relation.reflTransGen_swap]

/-- Each edge is one item of one list of neighbours. -/
theorem sum_length_filterMap_le (edges : List (Nat × Nat)) (key other : Nat × Nat → Nat)
    (nodes : Finset Nat) :
    ∑ u ∈ nodes, (edges.filterMap fun e => if key e = u then some (other e) else none).length
      ≤ edges.length := by
  induction edges with
  | nil => simp
  | cons e edges ih =>
      have hone : ∀ u, ((e :: edges).filterMap fun e =>
          if key e = u then some (other e) else none).length = (if key e = u then 1 else 0) +
            (edges.filterMap fun e => if key e = u then some (other e) else none).length := by
        intro u
        rw [List.filterMap_cons]
        split <;> simp_all [Nat.add_comm]
      simp only [hone]
      rw [Finset.sum_add_distrib, Finset.sum_ite_eq, List.length_cons]
      split <;> omega

theorem pending_le {next : Nat → List Nat} {size bound : Nat} (seen : List Nat)
    (h : ∑ u ∈ Finset.range size, (next u).length ≤ bound) :
    pending next size seen ≤ size + bound := by
  have hnone : ∀ v ∈ ([] : List Nat), v ∈ seen := fun _ h => (nomatch h)
  refine (pending_mono next size hnone).trans ?_
  rw [pending, List.toFinset_nil, Finset.sdiff_empty, Finset.sum_add_distrib, Finset.sum_const,
    Finset.card_range, smul_eq_mul, mul_one, Nat.add_comm]
  exact Nat.add_le_add_left h size

theorem pending_successors_le (g : Graph) (seen : List Nat) :
    pending g.successors g.size seen ≤ g.size + g.edges.length :=
  pending_le seen (sum_length_filterMap_le g.edges Prod.fst Prod.snd _)

theorem pending_predecessors_le (g : Graph) (seen : List Nat) :
    pending g.predecessors g.size seen ≤ g.size + g.edges.length :=
  pending_le seen (sum_length_filterMap_le g.edges Prod.snd Prod.fst _)

/-- How components are collected when every search comes to its end. -/
inductive Collects (g : Graph) : List Nat → List Nat → List (List Nat) → Prop
  | done (taken : List Nat) : Collects g taken [] []
  | taken {v : Nat} {rest taken : List Nat} {cs : List (List Nat)} (hv : v ∈ taken)
    (hrest : Collects g taken rest cs) : Collects g taken (v :: rest) cs
  | node {v : Nat} {rest taken : List Nat} {s : Search} {cs : List (List Nat)} (hv : v ∉ taken)
    (hsearch : Visits g.predecessors [v] ⟨taken, []⟩ s) (hrest : Collects g s.seen rest cs) :
    Collects g taken (v :: rest) (s.finished.foldr insertAscending [] :: cs)

/-- Both searches come to their ends, and these are the components found. -/
def EndsWith (g : Graph) (cs : List (List Nat)) : Prop :=
  ∃ s, Visits g.successors (List.range g.size) ⟨[], []⟩ s ∧ g.Collects [] s.finished cs

theorem Proper.leads_lt (hg : g.Proper) {u v : Nat} (h : Leads g.successors u v) :
    u < g.size ∧ v < g.size :=
  hg (u, v) (mem_successors.1 h)

theorem Proper.lt_of_reaches (hg : g.Proper) {u v : Nat} (h : Reaches g.successors u v) :
    u < g.size ↔ v < g.size := by
  rcases Relation.ReflTransGen.cases_head h with rfl | ⟨w, hfirst, -⟩
  · rfl
  rcases Relation.ReflTransGen.cases_tail h with rfl | ⟨w', -, hlast⟩
  · rfl
  exact ⟨fun _ => (hg.leads_lt hlast).2, fun _ => (hg.leads_lt hfirst).1⟩

theorem collects_collect (hg : g.Proper) {order : List Nat} (horder : ∀ v ∈ order, v < g.size)
    (taken : List Nat) : g.Collects taken order (g.collect taken order) := by
  induction order generalizing taken with
  | nil => exact .done taken
  | cons v rest ih =>
      have hrest := ih fun w hw => horder w (List.mem_cons_of_mem _ hw)
      unfold collect
      split
      · next hv => exact .taken (by simpa using hv) (hrest taken)
      · next hv =>
          refine .node (by simpa using hv) (visits_visit g.size (fun u w hw => ?_)
            (fun w hw => ?_) ?_) (hrest _)
          · exact (hg.leads_lt (leads_predecessors.1 hw)).1
          · rw [List.mem_singleton.1 hw]
            exact horder v List.mem_cons_self
          · have hpending := g.pending_predecessors_le taken
            simp only [List.length_singleton, searchFuel]
            omega

theorem visits_finishOrder (hg : g.Proper) : ∃ s, s.finished = g.finishOrder ∧
    Visits g.successors (List.range g.size) ⟨[], []⟩ s := by
  refine ⟨_, rfl, visits_visit g.size (fun u w hw => (hg.leads_lt hw).2)
    (fun v hv => List.mem_range.1 hv) ?_⟩
  have hpending := g.pending_successors_le []
  rw [List.length_range, searchFuel]
  simp only
  omega

/-! ## What one search against the edges finds -/

/-- The nodes are those that one of them reaches and is reached from, in ascending order. -/
structure IsComponent (g : Graph) (c : List Nat) : Prop where
  ascends : c.Pairwise (· < ·)
  node : ∃ v ∈ c, ∀ u, u ∈ c ↔ Reaches g.successors u v ∧ Reaches g.successors v u

/-- What leads to one of the nodes is one of them. -/
def PredecessorClosed (g : Graph) (taken : List Nat) : Prop :=
  ∀ v ∈ taken, ∀ u, Leads g.successors u v → u ∈ taken

theorem PredecessorClosed.of_reaches {taken : List Nat} (h : g.PredecessorClosed taken) {u v : Nat}
    (hreach : Reaches g.successors u v) (hv : v ∈ taken) : u ∈ taken := by
  induction hreach using Relation.ReflTransGen.head_induction_on with
  | refl => exact hv
  | head hlead _ ih => exact h _ ih _ hlead

theorem insertAscending_eq (v : Nat) (ws : List Nat) :
    insertAscending v ws = ws.orderedInsert (· ≤ ·) v := by
  induction ws with
  | nil => rfl
  | cons w ws ih => rw [insertAscending, List.orderedInsert, ih]

theorem foldr_insertAscending (vs : List Nat) :
    vs.foldr insertAscending [] = vs.insertionSort (· ≤ ·) := by
  induction vs with
  | nil => rfl
  | cons v vs ih => rw [List.foldr_cons, ih, insertAscending_eq, List.insertionSort_cons]

theorem mem_foldr_insertAscending {vs : List Nat} {v : Nat} :
    v ∈ vs.foldr insertAscending [] ↔ v ∈ vs := by
  rw [foldr_insertAscending, List.mem_insertionSort]

theorem nodup_foldr_insertAscending {vs : List Nat} (h : vs.Nodup) :
    (vs.foldr insertAscending []).Nodup := by
  rw [foldr_insertAscending]
  exact (List.perm_insertionSort _ vs).nodup_iff.2 h

theorem ascends_foldr_insertAscending {vs : List Nat} (h : vs.Nodup) :
    (vs.foldr insertAscending []).Pairwise (· < ·) := by
  have hne := nodup_foldr_insertAscending h
  rw [foldr_insertAscending] at hne ⊢
  exact (List.pairwise_insertionSort (· ≤ ·) vs).imp₂ (fun _ _ hle hne => lt_of_le_of_ne hle hne)
    hne

section

variable {taken rest : List Nat} {v : Nat} (hclosed : g.PredecessorClosed taken)
  (hlayered : Layered g.successors (v :: rest)) (hg : g.Proper)
  (hall : ∀ u < g.size, u ∈ taken ∨ u ∈ v :: rest)

include hclosed hlayered hg hall

/-- A node that is not taken and reaches the next one is reached from it: it stands in the block
behind the next one, which nothing further behind leads into. -/
theorem reaches_of_layered {u : Nat} (hreach : Reaches g.successors u v) (hu : u ∉ taken) :
    Reaches g.successors v u := by
  obtain ⟨⟨block, behind, rfl, hblock, hbehind⟩, -⟩ := hlayered
  have hmem : u ∈ v :: block := by
    induction hreach using Relation.ReflTransGen.head_induction_on with
    | refl => exact List.mem_cons_self
    | @head u w hlead _ ih =>
        have hw := ih fun hw => hu (hclosed w hw u hlead)
        rcases hall u (hg.leads_lt hlead).1 with h | h
        · exact absurd h hu
        rcases List.mem_cons.1 h with rfl | h
        · exact List.mem_cons_self
        rcases List.mem_append.1 h with h | h
        · exact List.mem_cons_of_mem _ h
        · exact absurd hlead (hbehind u h w hw)
  rcases List.mem_cons.1 hmem with rfl | hmem
  · exact .refl
  · exact hblock u hmem

/-- The search from a node that is not taken finds its component. -/
theorem Adds.isComponent {s : Search} {found : List Nat}
    (h : Adds g.predecessors [v] ⟨taken, []⟩ s found) (hv : v ∉ taken) :
    g.PredecessorClosed s.seen ∧ g.IsComponent (s.finished.foldr insertAscending []) := by
  have hfinished : s.finished = found := h.finished.trans (List.append_nil found)
  have hseen : g.PredecessorClosed s.seen := by
    intro w hw u hlead
    rcases (h.seen w).1 hw with hw | hw
    · exact h.closed w hw u (leads_predecessors.2 hlead)
    · exact (h.seen u).2 (.inr (hclosed w hw u hlead))
  have hstart : v ∈ s.seen := h.started v List.mem_cons_self
  have hfound : ∀ u, u ∈ found ↔ Reaches g.successors u v ∧ Reaches g.successors v u := by
    intro u
    constructor
    · intro hu
      obtain ⟨r, hr, hreach⟩ := h.reached u hu
      rw [List.mem_singleton.1 hr] at hreach
      have hto := reaches_predecessors.1 hreach
      exact ⟨hto, reaches_of_layered hclosed hlayered hg hall hto (h.fresh u hu)⟩
    · rintro ⟨hto, hfrom⟩
      rcases (h.seen u).1 (hseen.of_reaches hto hstart) with hu | hu
      · exact hu
      · exact absurd (hclosed.of_reaches hfrom hu) hv
  rw [hfinished]
  refine ⟨hseen, ascends_foldr_insertAscending h.nodup, v, ?_, fun u => ?_⟩
  · exact mem_foldr_insertAscending.2 ((hfound v).2 ⟨.refl, .refl⟩)
  · rw [mem_foldr_insertAscending, hfound]

end

/-! ## What all of them find -/

/-- The components of the nodes in an order, without the nodes that were taken before. -/
structure Collected (g : Graph) (taken order : List Nat) (cs : List (List Nat)) : Prop where
  component : ∀ c ∈ cs, g.IsComponent c
  fresh : ∀ v ∈ cs.flatten, v ∉ taken
  nodup : cs.flatten.Nodup
  within : ∀ v ∈ cs.flatten, v < g.size
  covers : ∀ v ∈ order, v ∈ taken ∨ v ∈ cs.flatten
  ordered : ∀ (j : Nat) (c : List Nat), cs[j]? = some c → ∀ v ∈ c, ∀ u, Leads g.successors u v →
    u ∈ taken ∨ ∃ (i : Nat) (c' : List Nat), i ≤ j ∧ cs[i]? = some c' ∧ u ∈ c'

/-- A node that was taken before adds nothing. -/
theorem Collected.skip {taken rest : List Nat} {cs : List (List Nat)}
    (h : g.Collected taken rest cs) {v : Nat} (hv : v ∈ taken) :
    g.Collected taken (v :: rest) cs := by
  refine ⟨h.component, h.fresh, h.nodup, h.within, fun u hu => ?_, h.ordered⟩
  rcases List.mem_cons.1 hu with rfl | hu
  · exact .inl hv
  · exact h.covers u hu

/-- The component that a search finds goes in front of those that are found after it. -/
theorem Collected.add {taken rest found : List Nat} {cs : List (List Nat)} {s : Search}
    (h : g.Collected s.seen rest cs) (hg : g.Proper) {v : Nat} (hv : v < g.size)
    (hadds : Adds g.predecessors [v] ⟨taken, []⟩ s found)
    (hcomponent : g.IsComponent (found.foldr insertAscending [])) :
    g.Collected taken (v :: rest) (found.foldr insertAscending [] :: cs) := by
  have hmem : ∀ u, u ∈ found.foldr insertAscending [] ↔ u ∈ found :=
    fun _ => mem_foldr_insertAscending
  refine ⟨fun c hc => ?_, fun u hu => ?_, ?_, fun u hu => ?_, fun u hu => ?_,
    fun j c hc w hw u hlead => ?_⟩
  · rcases List.mem_cons.1 hc with rfl | hc
    · exact hcomponent
    · exact h.component c hc
  · rw [List.flatten_cons, List.mem_append, hmem] at hu
    rcases hu with hu | hu
    · exact hadds.fresh u hu
    · exact fun htaken => h.fresh u hu ((hadds.seen u).2 (.inr htaken))
  · rw [List.flatten_cons, List.nodup_append]
    refine ⟨nodup_foldr_insertAscending hadds.nodup, h.nodup, ?_⟩
    rintro u hu w hw rfl
    exact h.fresh u hw ((hadds.seen u).2 (.inl ((hmem u).1 hu)))
  · rw [List.flatten_cons, List.mem_append, hmem] at hu
    rcases hu with hu | hu
    · obtain ⟨r, hr, hreach⟩ := hadds.reached u hu
      rw [List.mem_singleton.1 hr] at hreach
      exact (hg.lt_of_reaches (reaches_predecessors.1 hreach)).2 hv
    · exact h.within u hu
  · have hfrom : u ∈ s.seen ∨ u ∈ cs.flatten := by
      rcases List.mem_cons.1 hu with rfl | hu
      · exact .inl (hadds.started u List.mem_cons_self)
      · exact h.covers u hu
    rw [List.flatten_cons, List.mem_append, hmem]
    rcases hfrom with hu | hu
    · rcases (hadds.seen u).1 hu with hu | hu
      · exact .inr (.inl hu)
      · exact .inl hu
    · exact .inr (.inr hu)
  · have hsplit : u ∈ s.seen → u ∈ taken ∨ ∃ i c', i ≤ j ∧
        (found.foldr insertAscending [] :: cs)[i]? = some c' ∧ u ∈ c' := by
      intro hu
      rcases (hadds.seen u).1 hu with hu | hu
      · exact .inr ⟨0, _, Nat.zero_le j, rfl, (hmem u).2 hu⟩
      · exact .inl hu
    cases j with
    | zero =>
        cases hc
        exact hsplit (hadds.closed w ((hmem w).1 hw) u (leads_predecessors.2 hlead))
    | succ j =>
        rcases h.ordered j c hc w hw u hlead with hu | ⟨i, c', hij, hc', hu⟩
        · exact hsplit hu
        · exact .inr ⟨i + 1, c', Nat.succ_le_succ hij, hc', hu⟩

theorem Collects.collected {taken order : List Nat} {cs : List (List Nat)}
    (h : g.Collects taken order cs) (hg : g.Proper) (hclosed : g.PredecessorClosed taken)
    (hlayered : Layered g.successors order) (hall : ∀ u < g.size, u ∈ taken ∨ u ∈ order)
    (horder : ∀ u ∈ order, u < g.size) : g.Collected taken order cs := by
  induction h with
  | done taken =>
      exact ⟨fun _ h => (nomatch h), fun _ h => (nomatch h), .nil, fun _ h => (nomatch h),
        fun _ h => (nomatch h), fun _ _ h => (nomatch h)⟩
  | @taken v rest taken cs hv _ ih =>
      have hall' : ∀ u < g.size, u ∈ taken ∨ u ∈ rest := by
        intro u hu
        rcases hall u hu with h | h
        · exact .inl h
        rcases List.mem_cons.1 h with rfl | h
        · exact .inl hv
        · exact .inr h
      exact (ih hclosed hlayered.2 hall' fun u hu => horder u (List.mem_cons_of_mem _ hu)).skip hv
  | @node v rest taken s cs hv hsearch _ ih =>
      obtain ⟨found, hadds⟩ := hsearch.adds
      obtain ⟨hseen, hcomponent⟩ := hadds.isComponent hclosed hlayered hg hall hv
      have hfinished : s.finished = found := hadds.finished.trans (List.append_nil found)
      rw [hfinished] at hcomponent ⊢
      have hall' : ∀ u < g.size, u ∈ s.seen ∨ u ∈ rest := by
        intro u hu
        rcases hall u hu with h | h
        · exact .inl ((hadds.seen u).2 (.inr h))
        rcases List.mem_cons.1 h with rfl | h
        · exact .inl (hadds.started u List.mem_cons_self)
        · exact .inr h
      exact (ih hseen hlayered.2 hall' fun u hu => horder u (List.mem_cons_of_mem _ hu)).add hg
        (horder v List.mem_cons_self) hadds hcomponent

/-- The components of a proper graph are found by searches that end, and they are what they are
said to be. -/
theorem Proper.components_collected (hg : g.Proper) :
    g.EndsWith g.components ∧ g.Collected [] (List.range g.size) g.components := by
  obtain ⟨s, hfinished, hvisits⟩ := visits_finishOrder hg
  obtain ⟨found, hadds⟩ := hvisits.adds
  have hmem : ∀ v, v ∈ s.finished ↔ v < g.size := by
    intro v
    rw [hadds.finished, List.append_nil]
    constructor
    · intro hv
      obtain ⟨r, hr, hreach⟩ := hadds.reached v hv
      exact (hg.lt_of_reaches hreach).1 (List.mem_range.1 hr)
    · intro hv
      rcases (hadds.seen v).1 (hadds.started v (List.mem_range.2 hv)) with hv | hv
      · exact hv
      · exact nomatch hv
  have hlayered : Layered g.successors s.finished :=
    hvisits.layered (fun _ h => (nomatch h)) trivial
  have hcollects : g.Collects [] s.finished g.components := by
    rw [components, ← hfinished]
    exact collects_collect hg (fun v hv => (hmem v).1 hv) []
  have h := hcollects.collected hg (fun _ h => (nomatch h)) hlayered
    (fun u hu => .inr ((hmem u).2 hu)) fun u hu => (hmem u).1 hu
  exact ⟨⟨s, hvisits, hcollects⟩, h.component, h.fresh, h.nodup, h.within,
    fun v hv => h.covers v ((hmem v).2 (List.mem_range.1 hv)), h.ordered⟩

/-- The nodes in components are the nodes of the graph. -/
theorem Proper.mem_components (hg : g.Proper) {v : Nat} :
    v ∈ g.components.flatten ↔ v < g.size := by
  obtain ⟨-, h⟩ := hg.components_collected
  refine ⟨h.within v, fun hv => ?_⟩
  exact (h.covers v (List.mem_range.2 hv)).resolve_left fun h => (nomatch h)

/-! ## The components of a graph -/

/-- The lists are the strongly connected components of an edge relation on the nodes below `n`, in
topological order. -/
structure StronglyConnected (n : Nat) (edge : Nat → Nat → Prop) (cs : List (List Nat)) : Prop where
  nonempty : ∀ c ∈ cs, c ≠ []
  ascending : ∀ c ∈ cs, c.Pairwise (· < ·)
  once : ∀ v, cs.flatten.count v = if v < n then 1 else 0
  together : ∀ u v, u < n → v < n → ((∃ c ∈ cs, u ∈ c ∧ v ∈ c) ↔
    Relation.ReflTransGen edge u v ∧ Relation.ReflTransGen edge v u)
  ordered : ∀ u v, edge u v → ∃ (i j : Nat) (c c' : List Nat), i ≤ j ∧ cs[i]? = some c ∧
    cs[j]? = some c' ∧ u ∈ c ∧ v ∈ c'

theorem IsComponent.reaches {c : List Nat} (h : g.IsComponent c) {u v : Nat} (hu : u ∈ c)
    (hv : v ∈ c) : Reaches g.successors u v := by
  obtain ⟨w, -, hmem⟩ := h.node
  exact ((hmem u).1 hu).1.trans ((hmem v).1 hv).2

theorem IsComponent.mem_of_reaches {c : List Nat} (h : g.IsComponent c) {u v : Nat} (hu : u ∈ c)
    (huv : Reaches g.successors u v) (hvu : Reaches g.successors v u) : v ∈ c := by
  obtain ⟨w, -, hmem⟩ := h.node
  obtain ⟨huw, hwu⟩ := (hmem u).1 hu
  exact (hmem v).2 ⟨hvu.trans huw, hwu.trans huv⟩

theorem Proper.stronglyConnected (hg : g.Proper) :
    StronglyConnected g.size (Leads g.successors) g.components := by
  obtain ⟨-, h⟩ := hg.components_collected
  have hcomponent : ∀ v < g.size, ∃ c ∈ g.components, v ∈ c := fun v hv =>
    List.mem_flatten.1 (hg.mem_components.2 hv)
  refine ⟨fun c hc => ?_, fun c hc => (h.component c hc).ascends, fun v => ?_,
    fun u v hu hv => ⟨?_, ?_⟩, fun u v hlead => ?_⟩
  · obtain ⟨v, hv, -⟩ := (h.component c hc).node
    exact List.ne_nil_of_mem hv
  · rw [h.nodup.count]
    exact if_congr hg.mem_components rfl rfl
  · rintro ⟨c, hc, huc, hvc⟩
    exact ⟨(h.component c hc).reaches huc hvc, (h.component c hc).reaches hvc huc⟩
  · rintro ⟨huv, hvu⟩
    obtain ⟨c, hc, huc⟩ := hcomponent u hu
    exact ⟨c, hc, huc, (h.component c hc).mem_of_reaches huc huv hvu⟩
  · obtain ⟨c', hc', hv⟩ := hcomponent v (hg.leads_lt hlead).2
    obtain ⟨j, hj⟩ := List.mem_iff_getElem?.1 hc'
    obtain ⟨i, c, hij, hi, hu⟩ :=
      (h.ordered j c' hj v hv u hlead).resolve_left fun h => (nomatch h)
    exact ⟨i, j, c, c', hij, hi, hj, hu, hv⟩

/-- Of any edges between any numbers, those between nodes make a graph whose searches end and find
its strongly connected components in topological order. -/
theorem components_correct (n : Nat) (edges : List (Nat × Nat)) :
    (ofEdges n edges).EndsWith (ofEdges n edges).components ∧
    StronglyConnected n (fun u v => (u, v) ∈ edges ∧ u < n ∧ v < n)
      (ofEdges n edges).components := by
  have hg := proper_ofEdges n edges
  have hedge : Leads (ofEdges n edges).successors =
      fun u v => (u, v) ∈ edges ∧ u < n ∧ v < n := by
    funext u v
    exact propext leads_ofEdges
  have h := hg.stronglyConnected
  rw [size_ofEdges, hedge] at h
  exact ⟨hg.components_collected.1, h⟩

end ChanceProof.Graph
