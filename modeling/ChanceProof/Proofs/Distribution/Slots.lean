import ChanceProof.Proofs.Distribution.WellFormed
import ChanceProof.Sampling.Basic

/-!
# What a distribution reads

A variable is found at the one place that binds it (`Distribution.locate?_eq_some_iff`), and every
value in a distribution is a literal or reads a place that an earlier assignment binds
(`Distribution.reads_earlier`, `Distribution.result_reads`). So all that is ever read from an
assignment is read after it, and `useCounts` counts it: `count_reads`.
-/

namespace ChanceProof.Distribution

/-! ## Where variables are bound -/

/-- No variable is bound twice. -/
theorem names_nodup (d : Distribution) : d.names.Nodup := d.wellFormed.distinct

/-- A variable is bound at one place only. -/
theorem place_unique (d : Distribution) {name : String} {i j k m : Nat} {a b : Assignment}
    (ha : d.assignments[i]? = some a) (hk : a.names[k]? = some name)
    (hb : d.assignments[j]? = some b) (hm : b.names[m]? = some name) : i = j ∧ k = m := by
  obtain ⟨hnodup, hdisjoint⟩ := List.nodup_flatMap.1 d.names_nodup
  have hapart : ∀ {i j : Nat} {a b : Assignment}, i < j → d.assignments[i]? = some a →
      d.assignments[j]? = some b → name ∈ a.names → name ∉ b.names := by
    intro i j a b hlt ha hb hmem
    obtain ⟨hi, rfl⟩ := List.getElem?_eq_some_iff.1 ha
    obtain ⟨hj, rfl⟩ := List.getElem?_eq_some_iff.1 hb
    exact List.pairwise_iff_getElem.1 hdisjoint i j hi hj hlt hmem
  have hk' := List.mem_of_getElem? hk
  have hm' := List.mem_of_getElem? hm
  rcases Nat.lt_trichotomy i j with hlt | rfl | hlt
  · exact absurd hm' (hapart hlt ha hb hk')
  · cases ha.symm.trans hb
    have hlt := (List.getElem?_eq_some_iff.1 hk).1
    exact ⟨rfl, (List.getElem?_inj hlt (hnodup a (List.mem_of_getElem? ha))).1
      (hk.trans hm.symm)⟩
  · exact absurd hk' (hapart hlt hb ha hm')

/-- A variable is found at the place that binds it. -/
theorem locate?_eq_some_iff {d : Distribution} {name : String} {i k : Nat} :
    d.locate? name = some (i, k) ↔
      ∃ a, d.assignments[i]? = some a ∧ a.names[k]? = some name := by
  have hbinds : ∀ {i k : Nat}, d.locate? name = some (i, k) →
      ∃ a, d.assignments[i]? = some a ∧ a.names[k]? = some name := by
    intro i k h
    obtain ⟨⟨a, j⟩, hmem, hfound⟩ := List.exists_of_findSome?_eq_some h
    obtain ⟨m, hm, heq⟩ := Option.map_eq_some_iff.1 hfound
    cases heq
    obtain ⟨hlt, hname, -⟩ := List.findIdx?_eq_some_iff_getElem.1 hm
    refine ⟨a, List.mem_zipIdx_iff_getElem?.1 hmem, ?_⟩
    rw [List.getElem?_eq_getElem hlt, eq_of_beq hname]
  refine ⟨hbinds, fun ⟨a, ha, hk⟩ => ?_⟩
  cases hfound : d.locate? name with
  | none =>
      have hnone := List.findSome?_eq_none_iff.1 hfound (a, i) (List.mem_zipIdx_iff_getElem?.2 ha)
      have hnot := List.idxOf?_eq_none_iff.1 (Option.map_eq_none_iff.1 hnone)
      exact absurd (List.mem_of_getElem? hk) hnot
  | some place =>
      obtain ⟨b, hb, hm⟩ := hbinds hfound
      obtain ⟨rfl, rfl⟩ := d.place_unique ha hk hb hm
      rfl

/-! ## What values read -/

/-- The value is a literal, or it reads a place that an assignment before number `position` has. -/
def ReadsBefore (d : Distribution) (position : Nat) (v : Value) : Prop :=
  (∃ h, v = .literal h) ∨ ∃ (place : Nat × Nat) (a : Assignment), d.slot? v = some place ∧
    place.1 < position ∧ d.assignments[place.1]? = some a ∧ place.2 < a.names.length

theorem ReadsBefore.mono {d : Distribution} {m n : Nat} (hle : m ≤ n) {v : Value}
    (h : d.ReadsBefore m v) : d.ReadsBefore n v := by
  rcases h with h | ⟨place, a, hslot, hlt, ha, hk⟩
  · exact .inl h
  · exact .inr ⟨place, a, hslot, Nat.lt_of_lt_of_le hlt hle, ha, hk⟩

/-- What may stand in a place reads what is bound before it. -/
theorem Allows.readsBefore {d : Distribution} {position : Nat} {v : Value}
    (h : Allows d.assignments position v) : d.ReadsBefore position v := by
  cases h with
  | literal a => exact .inl ⟨a, rfl⟩
  | @named name i a earlier assigned bound =>
      obtain ⟨k, hk⟩ := List.mem_iff_getElem?.1 bound
      exact .inr ⟨(i, k), a, locate?_eq_some_iff.2 ⟨a, assigned, hk⟩, earlier, assigned,
        (List.getElem?_eq_some_iff.1 hk).1⟩
  | @output call index a earlier assigned inRange =>
      exact .inr ⟨(call, index), a, rfl, earlier, assigned, inRange⟩

section

variable (d : Distribution)

theorem reads_earlier {i : Nat} {a : Assignment} (ha : d.assignments[i]? = some a) :
    ∀ v ∈ a.call.parameters, d.ReadsBefore i v :=
  fun v hv => (d.wellFormed.parameters i a ha v hv).readsBefore

theorem result_reads : ∀ v ∈ d.result, d.ReadsBefore d.assignments.length v :=
  fun v hv => (d.wellFormed.result v hv).readsBefore

end

/-- The values that come after the first assignments: those of the assignments that are left, and
the results. -/
def valuesFrom (d : Distribution) (n : Nat) : List Value :=
  (d.assignments.drop n).flatMap (·.call.parameters) ++ d.result

/-- How often values read a place. -/
def reading (d : Distribution) (vs : List Value) (place : Nat × Nat) : Nat :=
  vs.countP (d.slot? · = some place)

/-- Whatever reads an assignment comes after it. -/
theorem count_reads (d : Distribution) {n k : Nat} :
    d.reads.count (n, k) = d.reading (d.valuesFrom (n + 1)) (n, k) := by
  have hbefore : d.reading ((d.assignments.take (n + 1)).flatMap (·.call.parameters)) (n, k)
      = 0 := by
    refine List.countP_eq_zero.2 fun v hv => ?_
    obtain ⟨a, ha, hmem⟩ := List.mem_flatMap.1 hv
    obtain ⟨i, hi, hget⟩ := List.getElem_of_mem ha
    rw [List.length_take] at hi
    have ha' : d.assignments[i]? = some a := by
      rw [← hget, List.getElem_take, List.getElem?_eq_getElem]
    rcases d.reads_earlier ha' v hmem with ⟨h, rfl⟩ | ⟨place, b, hslot, hlt, -⟩
    · simp [slot?]
    · rw [hslot]
      simp only [Option.some.injEq, decide_eq_true_eq]
      rintro rfl
      simp only at hlt
      omega
  have hcount : ∀ vs : List Value,
      (vs.filterMap d.slot?).count (n, k) = d.reading vs (n, k) := by
    intro vs
    rw [List.count, List.countP_filterMap, reading]
    refine List.countP_congr fun v _ => ?_
    cases d.slot? v with
    | none => simp
    | some place => simp
  have hsplit : d.reading (d.assignments.flatMap (·.call.parameters) ++ d.result) (n, k)
      = d.reading ((d.assignments.take (n + 1)).flatMap (·.call.parameters)) (n, k)
        + d.reading (d.valuesFrom (n + 1)) (n, k) := by
    rw [reading, reading, reading, ← List.countP_append, valuesFrom, ← List.append_assoc,
      ← List.flatMap_append, List.take_append_drop]
  rw [reads, hcount, hsplit, hbefore, Nat.zero_add]

/-- The number of uses of each value that an assignment binds. -/
theorem getElem?_useCounts {d : Distribution} {n : Nat} {a : Assignment}
    (ha : d.assignments[n]? = some a) :
    d.useCounts[n]? = some ((List.range a.names.length).map fun k =>
      d.reading (d.valuesFrom (n + 1)) (n, k)) := by
  unfold useCounts
  simp only [List.getElem?_map, List.getElem?_zipIdx, ha, Option.map_some, Nat.zero_add,
    Option.some.injEq, count_reads]
  refine List.ext_getElem? fun k => ?_
  simp only [List.getElem?_map, List.getElem?_zipIdx, Option.map_map]
  by_cases hk : k < a.names.length
  · simp [hk]
  · simp [hk]

end ChanceProof.Distribution
