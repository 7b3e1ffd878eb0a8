import ChanceProof.Proofs.Distribution.Sketch
import ChanceProof.Proofs.Distribution.Slots
import ChanceProof.Proofs.Model.Lockstep
import Mathlib.Data.List.Induction

/-!
# Walks do not get stuck

What stands for a reference can be said without a walk: the value that a call returned for the
variable, or at the place (`Distribution.Stands`). It is one value (`Distribution.Stands.unique`).

A walk gets to a list of results just when each of them has as many values as its assignment has
variables (`Walk.foldlM_bind_eq_ok_iff`). Whatever may stand at the position that such a walk has
reached is resolved, to what stands for it (`Distribution.Fitting.resolves`): the check of a
distribution looks at a set of names and at the number of variables, the walk looks into the results
that are bound, and the positions of both are the same.
-/

namespace ChanceProof

/-! ## What stands for a reference -/

namespace Distribution

/-- What stands for a value of the distribution when its first calls have returned these results. -/
inductive Stands (d : Distribution) (results : List (List Value)) : Value → Value → Prop
  | literal (h : Handle) : Stands d results (.literal h) (.literal h)
  | named {name : String} {i k : Nat} {a : Assignment} {returned : List Value} {v : Value}
    (assigned : d.assignments[i]? = some a) (bound : a.names[k]? = some name)
    (answered : results[i]? = some returned) (value : returned[k]? = some v) :
    Stands d results (.named name) v
  | output {call index : Nat} {returned : List Value} {v : Value}
    (answered : results[call]? = some returned) (value : returned[index]? = some v) :
    Stands d results (.output call index) v

/-- No two values stand for one. -/
theorem Stands.unique {d : Distribution} {results : List (List Value)} {v u u' : Value}
    (h : d.Stands results v u) (h' : d.Stands results v u') : u = u' := by
  cases h with
  | literal a =>
      cases h'
      rfl
  | named assigned bound answered value =>
      cases h' with
      | named assigned' bound' answered' value' =>
          obtain ⟨rfl, rfl⟩ := d.place_unique assigned bound assigned' bound'
          cases answered.symm.trans answered'
          exact Option.some.inj (value.symm.trans value')
  | output answered value =>
      cases h' with
      | output answered' value' =>
          cases answered.symm.trans answered'
          exact Option.some.inj (value.symm.trans value')

/-- Only literals stand for anything when all that was returned are literals. -/
theorem Stands.isLiteral {d : Distribution} {results : List (List Value)} {v u : Value}
    (h : d.Stands results v u) (hall : ∀ values ∈ results, ∀ v ∈ values, v.isLiteral = true) :
    u.isLiteral = true := by
  cases h with
  | literal a => rfl
  | named _ _ answered value =>
      exact hall _ (List.mem_of_getElem? answered) _ (List.mem_of_getElem? value)
  | output answered value =>
      exact hall _ (List.mem_of_getElem? answered) _ (List.mem_of_getElem? value)

end Distribution

/-- A reference that may stand in a distribution is resolved to what stands for it. -/
theorem Walk.stands_of_resolve {w : Walk} {position : Nat} {v u : Value}
    (hv : Distribution.Allows w.distribution.assignments position v) (h : w.resolve v = .ok u) :
    w.distribution.Stands w.results v u := by
  rcases resolve_eq_ok_iff.1 h with ⟨⟨a, rfl⟩ | ⟨name, rfl⟩, rfl⟩ | ⟨place, hslot, hbound⟩
  · exact .literal a
  · cases hv
  · obtain ⟨returned, hreturned, hu⟩ := Option.bind_eq_some_iff.1 hbound
    cases hv with
    | literal a => cases hslot
    | named =>
        obtain ⟨a, ha, hname⟩ := Distribution.locate?_eq_some_iff.1 hslot
        exact .named ha hname hreturned hu
    | output =>
        cases hslot
        exact .output hreturned hu

theorem Walk.stands_of_resolveAll {w : Walk} {position : Nat} {vs us : List Value}
    (hvs : ∀ v ∈ vs, Distribution.Allows w.distribution.assignments position v)
    (h : vs.mapM w.resolve = .ok us) : List.Forall₂ (w.distribution.Stands w.results) vs us := by
  have hresolved := mapM_ok_iff.1 h
  clear h
  induction hresolved with
  | nil => exact .nil
  | cons hone _ ih =>
      exact .cons (stands_of_resolve (hvs _ List.mem_cons_self) hone)
        (ih fun v hv => hvs v (List.mem_cons_of_mem _ hv))

/-! ## How far a walk gets -/

namespace Distribution

/-- Results of the first assignments, for each as many as it has variables. -/
def Fitting {α : Type} (d : Distribution) (results : List (List α)) : Prop :=
  List.Forall₂ (fun a values => a.names.length = values.length)
    (d.assignments.take results.length) results

section

variable {α : Type} {d : Distribution} {results : List (List α)}

theorem Fitting.length_le (h : d.Fitting results) : results.length ≤ d.assignments.length := by
  have hlen := List.Forall₂.length_eq h
  rw [List.length_take] at hlen
  omega

theorem fitting_nil (d : Distribution) : d.Fitting ([] : List (List α)) := .nil

/-- Every assignment that is bound has its results. -/
theorem Fitting.exists_returned (h : d.Fitting results) {i : Nat} {a : Assignment}
    (hi : i < results.length) (ha : d.assignments[i]? = some a) :
    ∃ returned, results[i]? = some returned ∧ a.names.length = returned.length := by
  refine forall₂_some_left h ?_
  rw [List.getElem?_take, if_pos hi, ha]

theorem fitting_append {values : List α} : d.Fitting (results ++ [values]) ↔
    d.Fitting results ∧
      ∃ a, d.assignments[results.length]? = some a ∧ a.names.length = values.length := by
  unfold Fitting
  rw [List.length_append, List.length_singleton, List.take_add_one]
  constructor
  · intro h
    have hlen := List.Forall₂.length_eq h
    rw [List.length_append, List.length_append, List.length_take, List.length_singleton] at hlen
    cases ha : d.assignments[results.length]? with
    | none =>
        rw [ha, Option.toList_none, List.length_nil] at hlen
        omega
    | some a =>
        rw [ha, Option.toList_some] at h
        have hlt := (List.getElem?_eq_some_iff.1 ha).1
        obtain ⟨hinit, hlast⟩ := forall₂_append_inv h (by rw [List.length_take]; omega)
        cases hlast with
        | cons hone _ => exact ⟨hinit, a, rfl, hone⟩
  · rintro ⟨hinit, a, ha, hlast⟩
    rw [ha, Option.toList_some]
    exact List.rel_append hinit (.cons hlast .nil)

/-- It is only the number of results that has to fit. -/
theorem fitting_map {β : Type} (f : α → β) :
    d.Fitting (results.map (·.map f)) ↔ d.Fitting results := by
  unfold Fitting
  rw [List.length_map, List.forall₂_map_right_iff]
  simp only [List.length_map]

end

section

variable {d : Distribution} {results : List (List Value)}

theorem Fitting.exists_bound? (h : d.Fitting results) {i k : Nat} {a : Assignment}
    (hi : i < results.length) (ha : d.assignments[i]? = some a) (hk : k < a.names.length) :
    ∃ u, Walk.bound? ⟨d, results⟩ (i, k) = some u := by
  obtain ⟨returned, hreturned, hlen⟩ := h.exists_returned hi ha
  have hk' : k < returned.length := hlen ▸ hk
  exact ⟨returned[k], Option.bind_eq_some_iff.2
    ⟨returned, hreturned, List.getElem?_eq_getElem hk'⟩⟩

/-- What may stand at the position that a walk has reached is resolved there. -/
theorem Fitting.resolves (h : d.Fitting results) {v : Value}
    (hv : Allows d.assignments results.length v) :
    ∃ u, Walk.resolve ⟨d, results⟩ v = .ok u ∧ d.Stands results v u := by
  have hok : ∃ u, Walk.resolve ⟨d, results⟩ v = .ok u := by
    cases hv with
    | literal a => exact ⟨.literal a, rfl⟩
    | @named name i a earlier assigned bound =>
        obtain ⟨k, hk⟩ := List.mem_iff_getElem?.1 bound
        have hplace : d.locate? name = some (i, k) := locate?_eq_some_iff.2 ⟨a, assigned, hk⟩
        obtain ⟨u, hu⟩ := h.exists_bound? earlier assigned (List.getElem?_eq_some_iff.1 hk).1
        exact ⟨u, Walk.resolve_eq_ok_iff.2 (.inr ⟨_, hplace, hu⟩)⟩
    | output earlier assigned inRange =>
        obtain ⟨u, hu⟩ := h.exists_bound? earlier assigned inRange
        exact ⟨u, Walk.resolve_eq_ok_iff.2 (.inr ⟨_, rfl, hu⟩)⟩
  obtain ⟨u, hu⟩ := hok
  exact ⟨u, hu, Walk.stands_of_resolve hv hu⟩

/-- The values that stand for these, all of them literals once all that was returned are. -/
def Fills (d : Distribution) (results : List (List Value)) (vs us : List Value) : Prop :=
  List.Forall₂ (d.Stands results) vs us ∧
    ((∀ values ∈ results, ∀ v ∈ values, v.isLiteral = true) → ∀ u ∈ us, u.isLiteral = true)

theorem Fitting.resolvesAll (h : d.Fitting results) {vs : List Value}
    (hvs : ∀ v ∈ vs, Allows d.assignments results.length v) :
    ∃ us, vs.mapM (Walk.resolve ⟨d, results⟩) = .ok us ∧ d.Fills results vs us := by
  obtain ⟨us, hus⟩ := exists_forall₂ fun v hv => h.resolves (hvs v hv)
  refine ⟨us, mapM_ok_iff.2 (hus.imp fun _ _ hu => hu.1), hus.imp fun _ _ hu => hu.2,
    fun hall u hu => ?_⟩
  obtain ⟨v, -, -, hstands⟩ := exists_of_forall₂_mem hus hu
  exact hstands.isLiteral hall

/-- The next call of a walk is resolved. -/
theorem Fitting.resolvesCall (h : d.Fitting results) {a : Assignment}
    (ha : d.assignments[results.length]? = some a) :
    ∃ us, Walk.resolveCall ⟨d, results⟩ a.call = .ok ⟨a.call.function, us⟩ ∧
      d.Fills results a.call.parameters us := by
  obtain ⟨us, hus, hfills⟩ := h.resolvesAll (d.wellFormed.parameters _ a ha)
  refine ⟨us, ?_, hfills⟩
  rw [Walk.resolveCall, hus]
  rfl

/-- After the last assignment the results are resolved. -/
theorem Fitting.resolvesResult (h : d.Fitting results)
    (hend : results.length = d.assignments.length) :
    ∃ us, Walk.resolveResult ⟨d, results⟩ = .ok us ∧ d.Fills results d.result us :=
  h.resolvesAll (hend ▸ d.wellFormed.result)

end

end Distribution

namespace Walk

/-- Results are refused for their number alone as long as there is a next assignment. -/
theorem bind_of_next? {w : Walk} {a : Assignment} (ha : w.next? = some a) (values : List Value) :
    w.bind values = if a.names.length = values.length then
      .ok { w with results := w.results ++ [values] }
    else .error (.wrongArity a.call values.length a.names.length) := by
  rw [Walk.bind, ha]

/-- Lists of results are bound one after another just when they fit. -/
theorem foldlM_bind_eq_ok_iff {d : Distribution} {results : List (List Value)} {w : Walk} :
    results.foldlM Walk.bind (.start d) = .ok w ↔ d.Fitting results ∧ w = ⟨d, results⟩ := by
  induction results using List.reverseRecOn generalizing w with
  | nil =>
      rw [List.foldlM_nil, pure_eq_ok_iff]
      exact ⟨fun h => ⟨d.fitting_nil, h.symm⟩, fun h => h.2.symm⟩
  | append_singleton results values ih =>
      have hone : ∀ w' : Walk, [values].foldlM Walk.bind w' = w'.bind values := fun w' =>
        bind_pure (w'.bind values)
      rw [List.foldlM_append, ChanceProof.bind_eq_ok_iff, Distribution.fitting_append]
      simp only [hone]
      constructor
      · rintro ⟨w', hw', h⟩
        obtain ⟨hfitting, rfl⟩ := ih.1 hw'
        obtain ⟨hnext, rfl⟩ := bind_eq_ok_iff.1 h
        exact ⟨⟨hfitting, hnext⟩, rfl⟩
      · rintro ⟨⟨hfitting, hnext⟩, rfl⟩
        exact ⟨⟨d, results⟩, ih.2 ⟨hfitting, rfl⟩, bind_eq_ok_iff.2 ⟨hnext, rfl⟩⟩

end Walk

end ChanceProof
