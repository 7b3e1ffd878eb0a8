import ChanceProof.Graph.Components
import Mathlib.Algebra.Order.BigOperators.Group.Finset
import Mathlib.Logic.Relation

/-!
# Searches that come to their end

`Graph.Visits` is depth-first search as a relation between the states before and after, without
fuel. The fuel of a graph is enough for every search of it, since each step either sees a new node
or takes one from a list of neighbours, and each list is gone through once: `visits_visit`.

Everything known about a search is then shown by going along its steps. It finishes just the nodes
that it sees for the first time, each is reached from one of the nodes it started with, and what
such a node leads to is seen in the end (`Visits.adds`). Nodes finish in an order in which a node
stands before a block of nodes that it reaches, and nothing finished earlier leads into the block
(`Visits.layered`).
-/

namespace ChanceProof.Graph

/-- One node leads to another. -/
def Leads (next : Nat → List Nat) (u v : Nat) : Prop := v ∈ next u

abbrev Reaches (next : Nat → List Nat) : Nat → Nat → Prop := Relation.ReflTransGen (Leads next)

/-- How a search that comes to its end leads from one state to another. -/
inductive Visits (next : Nat → List Nat) : List Nat → Search → Search → Prop
  | done (s : Search) : Visits next [] s s
  | seen {v : Nat} {rest : List Nat} {s s' : Search} (hv : v ∈ s.seen)
    (hrest : Visits next rest s s') : Visits next (v :: rest) s s'
  | node {v : Nat} {rest : List Nat} {s inner s' : Search} (hv : v ∉ s.seen)
    (hinner : Visits next (next v) { s with seen := v :: s.seen } inner)
    (hrest : Visits next rest { inner with finished := v :: inner.finished } s') :
    Visits next (v :: rest) s s'

/-! ## What a search finds -/

/-- What a search from these nodes does: it finds nodes that were not seen before. -/
structure Adds (next : Nat → List Nat) (vs : List Nat) (s s' : Search) (found : List Nat) :
    Prop where
  finished : s'.finished = found ++ s.finished
  seen : ∀ v, v ∈ s'.seen ↔ v ∈ found ∨ v ∈ s.seen
  nodup : found.Nodup
  fresh : ∀ v ∈ found, v ∉ s.seen
  started : ∀ v ∈ vs, v ∈ s'.seen
  reached : ∀ v ∈ found, ∃ r ∈ vs, Reaches next r v
  closed : ∀ v ∈ found, ∀ w ∈ next v, w ∈ s'.seen

variable {next : Nat → List Nat} {vs : List Nat} {s s' : Search}

theorem Visits.adds (h : Visits next vs s s') : ∃ found, Adds next vs s s' found := by
  induction h with
  | done s =>
      exact ⟨[], rfl, fun v => by simp, .nil, fun _ hv => (nomatch hv), fun _ hv => (nomatch hv),
        fun _ hv => (nomatch hv), fun _ hv => (nomatch hv)⟩
  | @seen v rest s s' hv _ ih =>
      obtain ⟨found, h⟩ := ih
      refine ⟨found, h.finished, h.seen, h.nodup, h.fresh, fun w hw => ?_, fun w hw => ?_,
        h.closed⟩
      · rcases List.mem_cons.1 hw with rfl | hw
        · exact (h.seen w).2 (.inr hv)
        · exact h.started w hw
      · obtain ⟨r, hr, hreach⟩ := h.reached w hw
        exact ⟨r, List.mem_cons_of_mem _ hr, hreach⟩
  | @node v rest s inner s' hv _ _ ihinner ihrest =>
      obtain ⟨below, hb⟩ := ihinner
      obtain ⟨later, hl⟩ := ihrest
      have hinner : ∀ w, w ∈ inner.seen ↔ w ∈ v :: below ∨ w ∈ s.seen := by
        intro w
        rw [hb.seen, List.mem_cons, List.mem_cons, or_left_comm, or_assoc]
      refine ⟨later ++ v :: below, ?_, fun w => ?_, ?_, fun w hw => ?_, fun w hw => ?_,
        fun w hw => ?_, fun w hw x hx => ?_⟩
      · rw [hl.finished, hb.finished, List.append_assoc, List.cons_append]
      · rw [hl.seen, hinner, List.mem_append, or_assoc]
      · refine List.nodup_append.2 ⟨hl.nodup, List.nodup_cons.2 ⟨fun hmem => ?_, hb.nodup⟩, ?_⟩
        · exact hb.fresh v hmem List.mem_cons_self
        · rintro w hw x hx rfl
          exact hl.fresh w hw ((hinner w).2 (.inl hx))
      · rcases List.mem_append.1 hw with hw | hw
        · exact fun hs => hl.fresh w hw ((hinner w).2 (.inr hs))
        · rcases List.mem_cons.1 hw with rfl | hw
          · exact hv
          · exact fun hs => hb.fresh w hw (List.mem_cons_of_mem _ hs)
      · rcases List.mem_cons.1 hw with rfl | hw
        · exact (hl.seen w).2 (.inr ((hinner w).2 (.inl List.mem_cons_self)))
        · exact hl.started w hw
      · rcases List.mem_append.1 hw with hw | hw
        · obtain ⟨r, hr, hreach⟩ := hl.reached w hw
          exact ⟨r, List.mem_cons_of_mem _ hr, hreach⟩
        · refine ⟨v, List.mem_cons_self, ?_⟩
          rcases List.mem_cons.1 hw with rfl | hw
          · exact .refl
          · obtain ⟨r, hr, hreach⟩ := hb.reached w hw
            exact .head hr hreach
      · rcases List.mem_append.1 hw with hw | hw
        · exact hl.closed w hw x hx
        · refine (hl.seen x).2 (.inr ?_)
          rcases List.mem_cons.1 hw with rfl | hw
          · exact hb.started x hx
          · exact hb.closed w hw x hx

/-! ## The order in which nodes finish -/

/-- Each node is followed by a block of nodes that it reaches, and nothing behind the block leads
to the node or into the block. -/
def Layered (next : Nat → List Nat) : List Nat → Prop
  | [] => True
  | v :: rest =>
    (∃ block behind, rest = block ++ behind ∧ (∀ w ∈ block, Reaches next v w) ∧
      ∀ u ∈ behind, ∀ w ∈ v :: block, ¬Leads next u w) ∧ Layered next rest

/-- What finished nodes lead to is seen. -/
def Search.Closed (next : Nat → List Nat) (s : Search) : Prop :=
  ∀ u ∈ s.finished, ∀ w ∈ next u, w ∈ s.seen

theorem Adds.search_closed {found : List Nat} (h : Adds next vs s s' found) (hs : s.Closed next) :
    s'.Closed next := by
  intro u hu w hw
  rw [h.finished] at hu
  rcases List.mem_append.1 hu with hu | hu
  · exact h.closed u hu w hw
  · exact (h.seen w).2 (.inr (hs u hu w hw))

/-- A node that finishes after what it found is in front of that, and what had finished before the
node was seen leads only to nodes seen before. -/
theorem Visits.layered (h : Visits next vs s s') (hs : s.Closed next)
    (hlayered : Layered next s.finished) : Layered next s'.finished := by
  induction h with
  | done s => exact hlayered
  | seen _ _ ih => exact ih hs hlayered
  | @node v rest s inner s' hv hinner _ ihinner ihrest =>
      obtain ⟨below, hb⟩ := hinner.adds
      have hstart : Search.Closed next { s with seen := v :: s.seen } := fun u hu w hw =>
        List.mem_cons_of_mem _ (hs u hu w hw)
      have hclosed : inner.Closed next := hb.search_closed hstart
      refine ihrest (fun u hu w hw => ?_) ⟨⟨below, s.finished, hb.finished, fun w hw => ?_, ?_⟩,
        ihinner hstart hlayered⟩
      · rcases List.mem_cons.1 hu with rfl | hu
        · exact hb.started w hw
        · exact hclosed u hu w hw
      · obtain ⟨r, hr, hreach⟩ := hb.reached w hw
        exact .head hr hreach
      · intro u hu w hw hlead
        have hseen := hs u hu w hlead
        rcases List.mem_cons.1 hw with rfl | hw
        · exact hv hseen
        · exact hb.fresh w hw (List.mem_cons_of_mem _ hseen)

/-! ## Fuel -/

/-- What is still to be done for the nodes not seen: to see them and go through their neighbours. -/
def pending (next : Nat → List Nat) (size : Nat) (seen : List Nat) : Nat :=
  ∑ u ∈ Finset.range size \ seen.toFinset, ((next u).length + 1)

theorem pending_mono (next : Nat → List Nat) (size : Nat) {seen seen' : List Nat}
    (h : ∀ v ∈ seen, v ∈ seen') : pending next size seen' ≤ pending next size seen := by
  refine Finset.sum_le_sum_of_subset (Finset.sdiff_subset_sdiff (Finset.Subset.refl _) ?_)
  intro v hv
  rw [List.mem_toFinset] at hv ⊢
  exact h v hv

/-- Seeing a node leaves its neighbours and the other nodes. -/
theorem pending_cons (next : Nat → List Nat) {size v : Nat} {seen : List Nat} (hv : v ∉ seen)
    (hlt : v < size) :
    pending next size (v :: seen) + ((next v).length + 1) = pending next size seen := by
  have hmem : v ∈ Finset.range size \ seen.toFinset := by
    rw [Finset.mem_sdiff, Finset.mem_range, List.mem_toFinset]
    exact ⟨hlt, hv⟩
  unfold pending
  rw [List.toFinset_cons, Finset.sdiff_insert]
  exact Finset.sum_erase_add _ _ hmem

/-- With enough fuel a search comes to its end. -/
theorem visits_visit (size : Nat) {fuel : Nat} (hnext : ∀ v, ∀ w ∈ next v, w < size)
    (hvs : ∀ v ∈ vs, v < size) (hfuel : vs.length + pending next size s.seen ≤ fuel) :
    Visits next vs s (visit next fuel vs s) := by
  induction fuel generalizing vs s with
  | zero =>
      cases vs with
      | nil => exact .done s
      | cons v rest => exact absurd hfuel (by rw [List.length_cons]; omega)
  | succ fuel ih =>
      cases vs with
      | nil => exact .done s
      | cons v rest =>
          have hrest : ∀ w ∈ rest, w < size := fun w hw => hvs w (List.mem_cons_of_mem _ hw)
          rw [List.length_cons] at hfuel
          unfold visit
          split
          · next hseen => exact .seen (by simpa using hseen) (ih hrest (by omega))
          · next hnew =>
              have hv : v ∉ s.seen := by simpa using hnew
              have hstep := pending_cons next hv (hvs v List.mem_cons_self)
              have hinner : Visits next (next v) { s with seen := v :: s.seen }
                  (visit next fuel (next v) { s with seen := v :: s.seen }) :=
                ih (hnext v) (by simp only; omega)
              obtain ⟨below, hb⟩ := hinner.adds
              have hmono := pending_mono next size fun w hw =>
                (hb.seen w).2 (.inr (List.mem_cons_of_mem v hw))
              exact .node hv hinner (ih hrest (by simp only; omega))

end ChanceProof.Graph
