import ChanceProof.Proofs.Solving.Acyclic

/-!
# Labels outside recursion

A component is solved by itself: no value of another component changes meanwhile. So whatever the
solver does about recursive components, a label that is none of theirs is evaluated once, after all
labels that it leads to, and in the end has the value of its equation (`solve_outside`). Labels that
do not even lead to recursion can be reasoned about one after another, each after those it leads to
(`Graph.Proper.induct`).
-/

namespace ChanceProof

/-- Among entries with different labels a label is found at its own place. -/
theorem findIdx?_eq_some_iff_of_nodup {α β : Type} [DecidableEq β] {f : α → β} {xs : List α}
    (hd : (xs.map f).Nodup) {y : β} {i : Nat} :
    xs.findIdx? (fun x => decide (f x = y)) = some i ↔ (xs.map f)[i]? = some y := by
  have hfound : ∀ {j}, xs.findIdx? (fun x => decide (f x = y)) = some j →
      (xs.map f)[j]? = some y := by
    intro j h
    obtain ⟨hj, heq, -⟩ := List.findIdx?_eq_some_iff_getElem.1 h
    rw [List.getElem?_map, List.getElem?_eq_getElem hj, Option.map_some, of_decide_eq_true heq]
  refine ⟨hfound, fun h => ?_⟩
  cases hy : xs.findIdx? (fun x => decide (f x = y)) with
  | none =>
      obtain ⟨x, hx, heq⟩ := List.mem_map.1 (List.mem_of_getElem? h)
      exact absurd heq (by simpa using List.findIdx?_eq_none_iff.1 hy x hx)
  | some j =>
      have hlt : i < (xs.map f).length := (List.getElem?_eq_some_iff.1 h).1
      rw [(List.getElem?_inj hlt hd).1 (h.trans (hfound hy).symm)]

namespace Graph

/-! ## The order of the components -/

/-- Every component leads to nothing but itself and those behind it, and shares no node with
them. -/
def Stacked (g : Graph) : List (List Nat) → Prop
  | [] => True
  | c :: rest => (∀ v ∈ c, v ∉ rest.flatten) ∧
      (∀ v ∈ c, ∀ w, Leads g.successors v w → w ∈ c ∨ w ∈ rest.flatten) ∧ g.Stacked rest

/-- The node depends on itself, directly or through others. -/
def Recurs (g : Graph) (v : Nat) : Prop := Relation.TransGen (Leads g.successors) v v

variable {g : Graph}

theorem Stacked.leads_mem {cs : List (List Nat)} (h : g.Stacked cs) {v w : Nat}
    (hv : v ∈ cs.flatten) (hlead : Leads g.successors v w) : w ∈ cs.flatten := by
  induction cs with
  | nil => exact absurd hv List.not_mem_nil
  | cons c cs ih =>
      obtain ⟨-, hleads, hrest⟩ := h
      rw [List.flatten_cons, List.mem_append] at hv ⊢
      rcases hv with hv | hv
      · exact hleads v hv w hlead
      · exact .inr (ih hrest hv)

theorem stacked_of_getElem? {cs : List (List Nat)} (hnodup : cs.flatten.Nodup)
    (h : ∀ (i : Nat) (c : List Nat), cs[i]? = some c → ∀ v ∈ c, ∀ w, Leads g.successors v w →
      ∃ j c', i ≤ j ∧ cs[j]? = some c' ∧ w ∈ c') : g.Stacked cs := by
  induction cs with
  | nil => trivial
  | cons c cs ih =>
      rw [List.flatten_cons] at hnodup
      obtain ⟨-, hnodup', hdisjoint⟩ := List.nodup_append.1 hnodup
      refine ⟨fun v hv hv' => hdisjoint v hv v hv' rfl, fun v hv w hlead => ?_,
        ih hnodup' fun i c' hc' v hv w hlead => ?_⟩
      · obtain ⟨j, c', -, hc', hw⟩ := h 0 c rfl v hv w hlead
        cases j with
        | zero =>
            cases hc'
            exact .inl hw
        | succ j => exact .inr (List.mem_flatten.2 ⟨c', List.mem_of_getElem? hc', hw⟩)
      · obtain ⟨j, c'', hj, hc'', hw⟩ := h (i + 1) c' hc' v hv w hlead
        obtain ⟨k, rfl⟩ : ∃ k, j = k + 1 := ⟨j - 1, by omega⟩
        exact ⟨k, c'', by omega, hc'', hw⟩

/-- A node stands in one component only. -/
theorem place_unique {cs : List (List Nat)} (hnodup : cs.flatten.Nodup) {i j : Nat}
    {c c' : List Nat} (hc : cs[i]? = some c) (hc' : cs[j]? = some c') {v : Nat} (hv : v ∈ c)
    (hv' : v ∈ c') : i = j := by
  obtain ⟨-, hdisjoint⟩ := List.nodup_flatten.1 hnodup
  obtain ⟨hi, rfl⟩ := List.getElem?_eq_some_iff.1 hc
  obtain ⟨hj, rfl⟩ := List.getElem?_eq_some_iff.1 hc'
  rcases Nat.lt_trichotomy i j with hlt | heq | hlt
  · exact absurd hv' (List.pairwise_iff_getElem.1 hdisjoint i j hi hj hlt hv)
  · exact heq
  · exact absurd hv (List.pairwise_iff_getElem.1 hdisjoint j i hj hi hlt hv')

theorem Proper.stacked_components (hg : g.Proper) : g.Stacked g.components := by
  obtain ⟨-, hcollected⟩ := hg.components_collected
  refine stacked_of_getElem? hcollected.nodup fun i c hc v hv w hlead => ?_
  obtain ⟨i', j, d, d', hle, hd, hd', hvd, hwd⟩ := hg.stronglyConnected.ordered v w hlead
  rw [place_unique hcollected.nodup hc hd hv hvd]
  exact ⟨j, d', hle, hd', hwd⟩

/-- A component is recursive just when its nodes depend on themselves. -/
theorem Proper.isRecursive_iff (hg : g.Proper) {c : List Nat} (hc : c ∈ g.components) {v : Nat}
    (hv : v ∈ c) : g.isRecursive c = true ↔ g.Recurs v := by
  obtain ⟨-, hcollected⟩ := hg.components_collected
  have hcomponent := hcollected.component c hc
  constructor
  · intro hrecursive
    by_contra hnot
    have hsingle : ∀ w ∈ c, w = v := by
      intro w hw
      rcases Relation.reflTransGen_iff_eq_or_transGen.1 (hcomponent.reaches hv hw) with heq | hvw
      · exact heq
      · exact absurd (hvw.trans_left (hcomponent.reaches hw hv)) hnot
    obtain rfl : c = [v] := by
      have hnodup : c.Nodup := hcomponent.ascends.imp fun h => Nat.ne_of_lt h
      exact List.perm_singleton.1 ((List.perm_ext_iff_of_nodup hnodup
        (List.pairwise_singleton _ _)).2 fun w => ⟨fun hw => List.mem_singleton.2 (hsingle w hw),
          fun hw => List.mem_singleton.1 hw ▸ hv⟩)
    exact hnot (.single (List.contains_iff_mem.1 hrecursive))
  · intro hrecurs
    by_contra hnot
    obtain ⟨u, rfl, hself⟩ := single_of_not_recursive (Bool.eq_false_iff.2 hnot)
    obtain rfl := List.mem_singleton.1 hv
    obtain ⟨w, hlead, hback⟩ := Relation.TransGen.head'_iff.1 hrecurs
    have hw := hcomponent.mem_of_reaches hv (.single hlead) hback
    rw [List.mem_singleton.1 hw] at hlead
    exact hself hlead

/-- What holds of a node once it holds of all those that it leads to holds of every node that does
not lead to recursion. -/
theorem Proper.induct (hg : g.Proper) {P : Nat → Prop}
    (step : ∀ v < g.size, ¬g.Recurs v → (∀ w, Leads g.successors v w → P w) → P v) {v : Nat}
    (hv : v < g.size) (hfree : ∀ w, Reaches g.successors v w → ¬g.Recurs w) : P v := by
  suffices h : ∀ cs, (∀ c ∈ cs, c ∈ g.components) → g.Stacked cs → ∀ v ∈ cs.flatten,
      (∀ w, Reaches g.successors v w → ¬g.Recurs w) → P v from
    h g.components (fun _ hc => hc) hg.stacked_components v (hg.mem_components.2 hv) hfree
  intro cs hcs hstacked
  induction cs with
  | nil => exact fun v hv => absurd hv List.not_mem_nil
  | cons c cs ih =>
      obtain ⟨-, hleads, hrest⟩ := hstacked
      have hcs' : ∀ c ∈ cs, c ∈ g.components := fun c hc => hcs c (List.mem_cons_of_mem _ hc)
      intro v hv hfree
      rw [List.flatten_cons, List.mem_append] at hv
      rcases hv with hv | hv
      · have hc := hcs c List.mem_cons_self
        have hnot := hfree v .refl
        refine step v (hg.mem_components.1 (List.mem_flatten.2 ⟨c, hc, hv⟩)) hnot fun w hlead => ?_
        refine ih hcs' hrest w ?_ fun u hreach => hfree u (.head hlead hreach)
        refine (hleads v hv w hlead).resolve_left fun hw => hnot ?_
        obtain ⟨-, hcollected⟩ := hg.components_collected
        exact .head' hlead ((hcollected.component c hc).reaches hw hv)
      · exact ih hcs' hrest v hv hfree

/-! ## Nodes that stand for labels -/

/-- The nodes are the places of these labels, and an edge from one of them is what its label
needs. -/
structure Numbers {L : Type} (g : Graph) (labels : List L) (needs : L → L → Prop) : Prop where
  proper : g.Proper
  size : g.size = labels.length
  distinct : labels.Nodup
  named : ∀ {x y}, needs x y → y ∈ labels
  leads : ∀ {i x}, labels[i]? = some x → ∀ {j},
    Leads g.successors i j ↔ ∃ y, labels[j]? = some y ∧ needs x y

/-- The edges that entries in their order make of the numbers that each of them depends on. -/
theorem leads_ofEdges_zipIdx {α : Type} {xs : List α} {dependencies : α → List Nat} {i j : Nat} :
    Leads (ofEdges xs.length (xs.zipIdx.flatMap fun e =>
        (dependencies e.1).map fun j => (e.2, j))).successors i j ↔
      j < xs.length ∧ ∃ x, xs[i]? = some x ∧ j ∈ dependencies x := by
  rw [leads_ofEdges]
  constructor
  · intro h
    obtain ⟨hedge, -, hj⟩ := h
    obtain ⟨⟨x, i'⟩, hx, hmem⟩ := List.mem_flatMap.1 hedge
    obtain ⟨j', hj', heq⟩ := List.mem_map.1 hmem
    cases heq
    exact ⟨hj, x, List.mem_zipIdx_iff_getElem?.1 hx, hj'⟩
  · intro h
    obtain ⟨hj, x, hx, hmem⟩ := h
    exact ⟨List.mem_flatMap.2 ⟨(x, i), List.mem_zipIdx_iff_getElem?.2 hx, List.mem_map_of_mem hmem⟩,
      (List.getElem?_eq_some_iff.1 hx).1, hj⟩

/-- The places of those labels in alternatives that a test admits. -/
theorem mem_places_iff {L : Type} {labels : List L} {place? : L → Option Nat}
    (hplace : ∀ {y i}, place? y = some i ↔ labels[i]? = some y) {test : L → Bool}
    {alternatives : List (List L)} {j : Nat} :
    j ∈ (alternatives.flatten.filter test).filterMap place? ↔
      ∃ y, labels[j]? = some y ∧ test y = true ∧ ∃ ls ∈ alternatives, y ∈ ls := by
  rw [List.mem_filterMap]
  constructor
  · intro h
    obtain ⟨y, hy, hj⟩ := h
    obtain ⟨hy, htest⟩ := List.mem_filter.1 hy
    exact ⟨y, hplace.1 hj, htest, List.mem_flatten.1 hy⟩
  · intro h
    obtain ⟨y, hj, htest, hy⟩ := h
    exact ⟨y, List.mem_filter.2 ⟨List.mem_flatten.2 hy, htest⟩, hplace.2 hj⟩

/-- Entries with different labels, each of which depends on the places of the labels that its own
one needs, make a graph of what the labels need. -/
theorem numbers_ofEdges {α L : Type} {xs : List α} {label : α → L} {dependencies : α → List Nat}
    {needs : L → L → Prop} (hd : (xs.map label).Nodup)
    (hnamed : ∀ {x y}, needs x y → y ∈ xs.map label)
    (hdependencies : ∀ x ∈ xs, ∀ j, j ∈ dependencies x ↔
      ∃ y, (xs.map label)[j]? = some y ∧ needs (label x) y) :
    (ofEdges xs.length (xs.zipIdx.flatMap fun e =>
      (dependencies e.1).map fun j => (e.2, j))).Numbers (xs.map label) needs where
  proper := proper_ofEdges _ _
  size := by rw [size_ofEdges, List.length_map]
  distinct := hd
  named := hnamed
  leads := by
    intro i y hy j
    rw [List.getElem?_map, Option.map_eq_some_iff] at hy
    obtain ⟨x, hx, rfl⟩ := hy
    have hneeded := hdependencies x (List.mem_of_getElem? hx) j
    rw [leads_ofEdges_zipIdx]
    constructor
    · intro h
      obtain ⟨-, x', hx', hj⟩ := h
      obtain rfl : x' = x := Option.some.inj (hx'.symm.trans hx)
      exact hneeded.1 hj
    · intro h
      obtain ⟨z, hz, hneeds⟩ := h
      have hlt := (List.getElem?_eq_some_iff.1 hz).1
      rw [List.length_map] at hlt
      exact ⟨hlt, x, hx, hneeded.2 ⟨z, hz, hneeds⟩⟩

namespace Numbers

variable {L : Type} {labels : List L} {needs : L → L → Prop} (h : g.Numbers labels needs)

include h

theorem lt_size {i : Nat} {x : L} (hx : labels[i]? = some x) : i < g.size :=
  h.size ▸ (List.getElem?_eq_some_iff.1 hx).1

theorem reaches_iff {i : Nat} {x : L} (hx : labels[i]? = some x) {j : Nat} :
    Reaches g.successors i j ↔ ∃ y, labels[j]? = some y ∧ Relation.ReflTransGen needs x y := by
  constructor
  · intro hreach
    induction hreach with
    | refl => exact ⟨x, hx, .refl⟩
    | tail _ hlead ih =>
        obtain ⟨y, hy, hxy⟩ := ih
        obtain ⟨z, hz, hyz⟩ := (h.leads hy).1 hlead
        exact ⟨z, hz, hxy.tail hyz⟩
  · intro hreach
    obtain ⟨y, hy, hxy⟩ := hreach
    induction hxy using Relation.ReflTransGen.head_induction_on generalizing i with
    | refl =>
        rw [(List.getElem?_inj (List.getElem?_eq_some_iff.1 hx).1 h.distinct).1
          (hx.trans hy.symm)]
    | head hneed _ ih =>
        obtain ⟨k, hk⟩ := List.mem_iff_getElem?.1 (h.named hneed)
        exact .head ((h.leads hx).2 ⟨_, hk, hneed⟩) (ih hk)

/-- A node depends on itself just when its label does. -/
theorem recurs_iff {i : Nat} {x : L} (hx : labels[i]? = some x) :
    g.Recurs i ↔ Relation.TransGen needs x x := by
  unfold Recurs
  rw [Relation.TransGen.head'_iff, Relation.TransGen.head'_iff]
  constructor
  · intro hrecurs
    obtain ⟨k, hlead, hreach⟩ := hrecurs
    obtain ⟨y, hy, hneed⟩ := (h.leads hx).1 hlead
    obtain ⟨z, hz, hyz⟩ := (h.reaches_iff hy).1 hreach
    obtain rfl : z = x := Option.some.inj (hz.symm.trans hx)
    exact ⟨y, hneed, hyz⟩
  · intro hrecurs
    obtain ⟨y, hneed, hyx⟩ := hrecurs
    obtain ⟨k, hk⟩ := List.mem_iff_getElem?.1 (h.named hneed)
    exact ⟨k, (h.leads hx).2 ⟨y, hk, hneed⟩, (h.reaches_iff hk).2 ⟨x, hx, hyx⟩⟩

/-- Labels are in one component just when each of them leads to the other. -/
theorem together_iff {i j : Nat} {x y : L} (hx : labels[i]? = some x) (hy : labels[j]? = some y) :
    (∃ c ∈ g.components, i ∈ c ∧ j ∈ c) ↔
      Relation.ReflTransGen needs x y ∧ Relation.ReflTransGen needs y x := by
  have hreach : ∀ {k m : Nat} {z w : L}, labels[k]? = some z → labels[m]? = some w →
      (Reaches g.successors k m ↔ Relation.ReflTransGen needs z w) := by
    intro k m z w hk hm
    rw [h.reaches_iff hk]
    constructor
    · intro hreach
      obtain ⟨w', hw', hzw⟩ := hreach
      rwa [Option.some.inj (hm.symm.trans hw')]
    · exact fun hzw => ⟨w, hm, hzw⟩
  rw [h.proper.stronglyConnected.together i j (h.lt_size hx) (h.lt_size hy)]
  exact and_congr (hreach hx hy) (hreach hy hx)

end Numbers

end Graph

namespace System

variable {α : Type} {A : Arithmetic α} {system : System α}

/-! ## What does not change -/

/-- Only values of these labels have changed. -/
structure SameOutside (vs : List Nat) (values values' : Array α) : Prop where
  size : values'.size = values.size
  same : ∀ i ∉ vs, values'[i]? = values[i]?

theorem SameOutside.refl (vs : List Nat) (values : Array α) : SameOutside vs values values :=
  ⟨rfl, fun _ _ => rfl⟩

theorem SameOutside.trans {vs : List Nat} {a b c : Array α} (h : SameOutside vs a b)
    (h' : SameOutside vs b c) : SameOutside vs a c :=
  ⟨h'.size.trans h.size, fun i hi => (h'.same i hi).trans (h.same i hi)⟩

theorem SameOutside.mono {vs ws : List Nat} {a b : Array α} (h : SameOutside vs a b)
    (hle : ∀ v ∈ vs, v ∈ ws) : SameOutside ws a b :=
  ⟨h.size, fun i hi => h.same i fun hv => hi (hle i hv)⟩

theorem SameOutside.valueAt {vs : List Nat} {a b : Array α} (h : SameOutside vs a b) {i : Nat}
    (hi : i ∉ vs) : System.valueAt A b i = System.valueAt A a i := by
  rw [System.valueAt, System.valueAt, h.same i hi]

theorem sameOutside_set {vs : List Nat} (values : Array α) {i : Nat} (hi : i ∈ vs) (x : α) :
    SameOutside vs values (values.setIfInBounds i x) := by
  refine ⟨Array.size_setIfInBounds, fun j hj => ?_⟩
  rw [Array.getElem?_setIfInBounds, if_neg]
  intro heq
  exact hj (heq ▸ hi)

theorem sameOutside_evaluate (values : Array α) (vs : List Nat) :
    SameOutside vs values (evaluate A system values vs) := by
  suffices h : ∀ ws, (∀ v ∈ ws, v ∈ vs) → ∀ values,
      SameOutside vs values (evaluate A system values ws) from h vs (fun _ hv => hv) values
  intro ws
  induction ws with
  | nil => exact fun _ values => .refl vs values
  | cons w ws ih =>
      intro hws values
      exact (sameOutside_set values (hws w List.mem_cons_self) _).trans
        (ih (fun v hv => hws v (List.mem_cons_of_mem _ hv)) _)

theorem sameOutside_pass (settled : Bool) (values : Array α) (vs : List Nat) :
    SameOutside vs values (pass A system settled values vs).1 := by
  suffices h : ∀ ws, (∀ v ∈ ws, v ∈ vs) → ∀ settled values,
      SameOutside vs values (pass A system settled values ws).1 from
    h vs (fun _ hv => hv) settled values
  intro ws
  induction ws with
  | nil => exact fun _ _ values => .refl vs values
  | cons w ws ih =>
      intro hws settled values
      exact (sameOutside_set values (hws w List.mem_cons_self) _).trans
        (ih (fun v hv => hws v (List.mem_cons_of_mem _ hv)) _ _)

theorem sameOutside_iterate {vs : List Nat} {budget : Option Nat} {limit passes n : Nat}
    {values final : Array α}
    (h : iterate A system vs budget limit passes values = some (.ok (final, n))) :
    SameOutside vs values final := by
  induction limit generalizing passes values with
  | zero => cases h
  | succ limit ih =>
      have hpass : SameOutside vs values (pass A system true values vs).1 :=
        sameOutside_pass true values vs
      rw [iterate] at h
      split at h
      · cases h
      · split at h
        · next heq =>
            rw [heq] at hpass
            cases h
            exact hpass
        · next heq =>
            rw [heq] at hpass
            exact hpass.trans (ih h)

/-! ## What is solved -/

/-- Components are solved from where those before them were. -/
theorem solveComponents_append {g : Graph} {budget : Option Nat} {limit passes : Nat}
    {values : Array α} (cs ds : List (List Nat)) :
    solveComponents A system g budget limit passes values (cs ++ ds) =
      match solveComponents A system g budget limit passes values cs with
      | some (.ok (values, passes)) => solveComponents A system g budget limit passes values ds
      | r => r := by
  induction cs generalizing passes values with
  | nil => rfl
  | cons c cs ih =>
      rw [List.cons_append, solveComponents, solveComponents]
      split
      · split
        · rfl
        · rfl
        · exact ih
      · exact ih

/-- The last component is solved after all others. -/
theorem solveComponents_snoc {g : Graph} {budget : Option Nat} {limit passes n : Nat}
    {values final : Array α} {cs : List (List Nat)} {c : List Nat}
    (h : solveComponents A system g budget limit passes values (cs ++ [c])
      = some (.ok (final, n))) :
    ∃ before k, solveComponents A system g budget limit passes values cs
        = some (.ok (before, k)) ∧
      solveComponents A system g budget limit k before [c] = some (.ok (final, n)) := by
  rw [solveComponents_append] at h
  split at h
  · next before k heq => exact ⟨before, k, heq, h⟩
  · next hnot => exact absurd h (hnot final n)

/-- Nothing outside a component changes when it is solved, and without recursion it is evaluated
once. -/
theorem solveComponents_single {g : Graph} {budget : Option Nat} {limit passes n : Nat}
    {values final : Array α} {c : List Nat}
    (h : solveComponents A system g budget limit passes values [c] = some (.ok (final, n))) :
    SameOutside c values final ∧
      (g.isRecursive c = false → final = evaluate A system values c) := by
  rw [solveComponents] at h
  split at h
  · next hrecursive =>
      split at h
      · cases h
      · cases h
      · next heq =>
          cases h
          refine ⟨sameOutside_iterate heq, fun hnot => ?_⟩
          rw [hrecursive] at hnot
          cases hnot
  · cases h
    exact ⟨sameOutside_evaluate values c, fun _ => rfl⟩

/-- In the end, a label that is no part of recursion has the value of its equation. -/
theorem solveComponents_outside {g : Graph} (hreads : ReadsAlong A system g) {budget : Option Nat}
    {limit passes n : Nat} {values final : Array α} {cs : List (List Nat)} (hcs : g.Stacked cs)
    (hlt : ∀ v ∈ cs.flatten, v < values.size)
    (h : solveComponents A system g budget limit passes values cs.reverse
      = some (.ok (final, n))) :
    SameOutside cs.flatten values final ∧ ∀ c ∈ cs, g.isRecursive c = false → ∀ v ∈ c,
      valueAt A final v = newValue A system final v := by
  induction cs generalizing final n with
  | nil =>
      cases h
      exact ⟨.refl _ _, fun c hc => absurd hc List.not_mem_nil⟩
  | cons c cs ih =>
      obtain ⟨hfresh, hleads, hrest⟩ := hcs
      rw [List.reverse_cons] at h
      obtain ⟨before, k, hbefore, hlast⟩ := solveComponents_snoc h
      obtain ⟨hsame, hevaluate⟩ := solveComponents_single hlast
      have hmem : ∀ v ∈ cs.flatten, v ∈ (c :: cs).flatten := fun v hv =>
        List.mem_append_right c hv
      obtain ⟨hsame', hsolved⟩ := ih hrest (fun v hv => hlt v (hmem v hv)) hbefore
      refine ⟨(hsame'.mono hmem).trans (hsame.mono fun v hv => List.mem_append_left _ hv), ?_⟩
      -- Nothing that a label behind reads has changed since it was evaluated.
      have hkept : ∀ w ∈ cs.flatten, valueAt A final w = valueAt A before w := fun w hw =>
        hsame.valueAt fun hwc => hfresh w hwc hw
      have hreadsKept : ∀ v, (∀ w, Graph.Leads g.successors v w → w ∈ cs.flatten) →
          newValue A system final v = newValue A system before v := fun v hv =>
        hreads v final before fun w hlead => hkept w (hv w hlead)
      intro d hd hnot v hv
      rcases List.mem_cons.1 hd with rfl | hd
      · obtain ⟨u, rfl, hself⟩ := Graph.single_of_not_recursive hnot
        obtain rfl := List.mem_singleton.1 hv
        have hsize : v < before.size := by
          rw [hsame'.size]
          exact hlt v (List.mem_append_left _ hv)
        have hset : final = before.setIfInBounds v (newValue A system before v) := hevaluate hnot
        rw [hreadsKept v fun w hlead => (hleads v hv w hlead).resolve_left fun hw => hself ?_, hset,
          valueAt_set, if_pos ⟨rfl, hsize⟩]
        rwa [List.mem_singleton.1 hw] at hlead
      · have hvmem : v ∈ cs.flatten := List.mem_flatten.2 ⟨d, hd, hv⟩
        rw [hkept v hvmem, hsolved d hd hnot v hv]
        exact (hreadsKept v fun w hlead => hrest.leads_mem hvmem hlead).symm

/-- Whatever is solved, labels that do not depend on themselves have the values of their
equations. -/
theorem solve_outside {g : Graph} (hg : g.Proper) (hsize : g.size = system.size)
    (hreads : ReadsAlong A system g) {budget : Option Nat} {limit n : Nat} {values : Array α}
    (h : solve A system g g.components budget limit = some (.ok (values, n))) :
    values.size = system.size ∧ ∀ v < g.size, ¬g.Recurs v →
      valueAt A values v = newValue A system values v := by
  have hlt : ∀ v ∈ g.components.flatten, v < (Array.replicate system.size A.impossible).size := by
    intro v hv
    rw [Array.size_replicate, ← hsize]
    exact hg.mem_components.1 hv
  obtain ⟨hsame, hsolved⟩ := solveComponents_outside hreads hg.stacked_components hlt h
  refine ⟨?_, fun v hv hnot => ?_⟩
  · rw [hsame.size, Array.size_replicate]
  · obtain ⟨c, hc, hvc⟩ := List.mem_flatten.1 (hg.mem_components.2 hv)
    refine hsolved c hc (Bool.eq_false_iff.2 fun hrecursive => hnot ?_) v hvc
    exact (hg.isRecursive_iff hc hvc).1 hrecursive

end System

end ChanceProof
