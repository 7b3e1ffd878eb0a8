import ChanceProof.Proofs.Evaluation.Dependence
import ChanceProof.Proofs.Sampling.Chronicle

/-!
# Accounts that are derivations

In a derivation each label has one execution, which goes through coins that landed and labels of a
lower rank. So no label needs itself, whatever the arithmetic the account is solved within one pass
of each component (`Derivation.solve_ok`), and no label comes out as impossible
(`Derivation.possible`).
-/

namespace ChanceProof

theorem PortableLabel.Landed.function {l : PortableLabel} (h : l.Landed) :
    l.function = Call.coinFunction := by
  obtain ⟨_, _, _, rfl, -⟩ := h
  rfl

namespace Account

/-- Every label has one execution, of coins that landed and labels of a lower rank. -/
structure Derivation (a : Account) (rank : PortableLabel → Nat) : Prop where
  distinct : a.labels.Nodup
  derived : ∀ x ∈ a.labels, ∃ path, a.alternativesOf x = [path] ∧ ∀ y ∈ path,
    y.Landed ∨ (y ∈ a.labels ∧ y.function ≠ Call.coinFunction ∧ rank y < rank x)

/-! ## Coins and terms -/

theorem coinValue_of_landed {α : Type} (A : Arithmetic α) {v : Json} {p : Float}
    (hp : probabilityOf v = .ok p) (landed : Bool) :
    coinValue A ⟨Call.coinFunction, [v], [.bool landed]⟩ = .ok (A.coin p landed) := by
  unfold coinValue
  simp only [hp, Json.bool?]
  rfl

theorem exists_termOf {α : Type} {A : Arithmetic α} {a : Account} {ls : List PortableLabel}
    (h : ∀ l ∈ ls, l.function = Call.coinFunction → ∃ p, coinValue A l = .ok p) (t : Term α) :
    ∃ t', a.termOf A t ls = .ok t' := by
  induction ls generalizing t with
  | nil => exact ⟨t, rfl⟩
  | cons l ls ih =>
      obtain ⟨hl, hls⟩ := List.forall_mem_cons.1 h
      unfold termOf
      split
      · next hcoin =>
          obtain ⟨p, hp⟩ := hl hcoin
          rw [hp]
          exact ih hls _
      · split
        · exact ih hls _
        · exact ih hls _

namespace Derivation

variable {a : Account} {rank : PortableLabel → Nat} (h : a.Derivation rank)

include h

/-! ## No recursion -/

theorem rank_lt_of_needs {x y : PortableLabel} (hx : x ∈ a.labels) (hneeds : a.Needs x y) :
    rank y < rank x := by
  obtain ⟨-, hcall, ls, hls, hy⟩ := hneeds
  obtain ⟨path, halternatives, hpath⟩ := h.derived x hx
  rw [halternatives] at hls
  rw [List.mem_singleton.1 hls] at hy
  exact ((hpath y hy).resolve_left fun hlanded => hcall hlanded.function).2.2

theorem rank_lt_of_transGen {x y : PortableLabel} (hx : x ∈ a.labels)
    (hneeds : Relation.TransGen a.Needs x y) : y ∈ a.labels ∧ rank y < rank x := by
  induction hneeds with
  | single hneed => exact ⟨hneed.1, h.rank_lt_of_needs hx hneed⟩
  | tail _ hneed ih => exact ⟨hneed.1, (h.rank_lt_of_needs ih.1 hneed).trans ih.2⟩

theorem not_recursive : ∀ c ∈ a.graph.components, a.graph.isRecursive c = false := by
  intro c hc
  obtain ⟨i, hi⟩ := List.exists_mem_of_ne_nil c
    ((proper_graph a).stronglyConnected.nonempty c hc)
  have hlt : i < a.labels.length := by
    rw [← size_graph]
    exact (proper_graph a).mem_components.1 (List.mem_flatten.2 ⟨c, hc, hi⟩)
  have hx : a.labels[i]? = some a.labels[i] := List.getElem?_eq_getElem hlt
  refine Bool.eq_false_iff.2 fun hrecursive => ?_
  have hneeds := ((numbers_graph h.distinct).recurs_iff hx).1
    (((proper_graph a).isRecursive_iff hc hi).1 hrecursive)
  exact absurd (h.rank_lt_of_transGen (List.getElem_mem hlt) hneeds).2 (Nat.lt_irrefl _)

/-! ## The solution -/

theorem exists_system {α : Type} (A : Arithmetic α) : ∃ system, a.system A = .ok system := by
  have hterm : ∀ e ∈ a.entries, ∀ ls ∈ e.alternatives,
      ∃ t, a.termOf A ⟨A.certain, []⟩ ls = .ok t := by
    intro e he ls hls
    obtain ⟨i, hi⟩ := List.mem_iff_getElem?.1 he
    obtain ⟨path, halternatives, hpath⟩ := h.derived e.label (List.mem_map_of_mem he)
    rw [alternativesOf_of_getElem? h.distinct hi] at halternatives
    rw [halternatives] at hls
    refine exists_termOf (fun l hl hcoin => ?_) _
    rw [List.mem_singleton.1 hls] at hl
    rcases hpath l hl with hlanded | ⟨-, hcall, -⟩
    · obtain ⟨v, p, landed, rfl, hp, -⟩ := hlanded
      exact ⟨_, coinValue_of_landed A hp landed⟩
    · exact absurd hcoin hcall
  have hequation : ∀ e ∈ a.entries,
      ∃ ts, e.alternatives.mapM (termOf A a ⟨A.certain, []⟩) = .ok ts := by
    intro e he
    obtain ⟨ts, hts⟩ := exists_forall₂ (hterm e he)
    exact ⟨ts, mapM_ok_iff.2 hts⟩
  obtain ⟨equations, hequations⟩ := exists_forall₂ hequation
  exact ⟨equations.toArray, bind_eq_ok_iff.2 ⟨equations, mapM_ok_iff.2 hequations, rfl⟩⟩

/-- A derivation is solved without recursion, whatever the arithmetic, the budget and the limit. -/
theorem solve_ok {α : Type} (A : Arithmetic α) (budget : Option Nat) (limit : Nat) :
    ∃ r, a.solve A budget limit = some (.ok r) ∧ r.recursiveComponents = 0 := by
  obtain ⟨system, hsystem⟩ := h.exists_system A
  have hsolve := System.solveComponents_acyclic A system budget limit
    (fun c hc => h.not_recursive c (List.mem_reverse.1 hc)) 0
    (Array.replicate system.size A.impossible)
  unfold solve
  rw [hsystem]
  simp only [System.solve, hsolve]
  refine ⟨_, rfl, List.countP_eq_zero.2 fun c hc => ?_⟩
  rw [h.not_recursive c hc]
  exact Bool.false_ne_true

variable {settled : ℚ → ℚ → Bool}

/-- No label of a derivation is impossible. -/
theorem value_ne_zero {values : Array ℚ} (hs : a.Solved settled values) {i : Nat}
    {x : PortableLabel} (hx : a.labels[i]? = some x) :
    System.valueAt (exactArithmetic settled) values i ≠ 0 := by
  -- By induction on the rank: the value is a product over the one execution.
  induction hrank : rank x using Nat.strong_induction_on generalizing i x with
  | _ n ih =>
      have hmem := List.mem_of_getElem? hx
      obtain ⟨path, halternatives, hpath⟩ := h.derived x hmem
      rw [hs.value i x hx fun hneeds =>
        absurd (h.rank_lt_of_transGen hmem hneeds).2 (Nat.lt_irrefl _), sumWorth, halternatives,
        List.map_singleton, List.sum_singleton]
      refine List.prod_ne_zero fun hzero => ?_
      obtain ⟨y, hy, hworth⟩ := List.mem_map.1 hzero
      revert hworth
      unfold worth
      rcases hpath y hy with hlanded | ⟨hlabel, hcall, hlower⟩
      · obtain ⟨v, p, landed, rfl, hp, hweight⟩ := hlanded
        rw [if_pos rfl, coinValue_of_landed _ hp]
        exact hweight
      · obtain ⟨j, hj⟩ := List.mem_iff_getElem?.1 hlabel
        rw [if_neg hcall, (number?_eq_some_iff h.distinct).2 hj]
        exact ih (rank y) (hrank ▸ hlower) hj rfl

/-- Every label of a derivation is solved to a probability other than zero. -/
theorem possible {budget : Option Nat} {limit : Nat} {r : Account.Results ℚ}
    (hr : a.solve (exactArithmetic settled) budget limit = some (.ok r)) {x : PortableLabel}
    (hx : x ∈ a.labels) : ∃ v, (x, v) ∈ r.labels ∧ v ≠ 0 := by
  obtain ⟨values, hs, hlabels⟩ := solved_of_solve h.distinct hr
  obtain ⟨i, hi⟩ := List.mem_iff_getElem?.1 hx
  have hlt : i < values.size := hs.size ▸ (List.getElem?_eq_some_iff.1 hi).1
  refine ⟨_, ?_, h.value_ne_zero hs hi⟩
  rw [hlabels]
  refine List.mem_iff_getElem?.2 ⟨i, List.getElem?_zip_eq_some.2 ⟨hi, ?_⟩⟩
  rw [Array.getElem?_toList, System.valueAt, Array.getElem?_eq_getElem hlt]
  rfl

end Derivation

end Account

end ChanceProof
