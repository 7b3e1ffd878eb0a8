import ChanceProof.Proofs.Sampling.Refinement
import Mathlib.Data.List.Count

/-!
# Draws conserve counts

A draw that succeeds takes one count for each argument from the store and gives one for each result
back, and that is all that it leaves behind: `sample_conserves_counts`. What functions interned on
the way, and what was bound several times or never read, is gone again. An object that is still
there has the value that it had.

The balance at every depth is the one that the sampler keeps with the interpreter beside it, so
nothing is counted twice here.
-/

namespace ChanceProof

/-- Literals stand in a grounded call as often as their handles are listed. -/
theorem Call.occurrences_parameters {c : Call} (hc : c.isGrounded = true) (h : Handle) :
    occurrences c.parameters h = c.handles.count h := by
  have hcount : (c.handles.map Value.literal).count (.literal h) = c.handles.count h :=
    List.count_map_of_injective _ _ (fun _ _ => Value.literal.inj) h
  rw [occurrences, Call.isGrounded_iff.1 hc, hcount]

/-- Whoever owns the arguments of a call has live objects behind them. -/
theorem Store.exists_values {s : Store} {owned : List Handle}
    (howned : ∀ h, (owned.count h : Int) ≤ s.counts h) :
    ∃ vs, List.Forall₂ (fun h v => s.value? h = some v) owned vs := by
  refine exists_forall₂ fun h hmem => ?_
  have hcount := howned h
  have hpos : 0 < owned.count h := List.count_pos_iff.2 hmem
  obtain ⟨o, ho, -⟩ := Store.get?_of_counts (s := s) (h := h) (by omega)
  exact ⟨o.value, by rw [Store.value?, ho, Option.map_some]⟩

/-- Whoever owns the arguments of a call owns its handles. -/
theorem Call.owned_handles {s : Store} (hs : s.Sound) {c : Call} (hc : c.isGrounded = true)
    (howned : ∀ h, .literal h ∈ c.parameters → occurrences c.parameters h ≤ s.counts h)
    (h : Handle) : (c.handles.count h : Int) ≤ s.counts h := by
  rw [← c.occurrences_parameters hc]
  by_cases hmem : .literal h ∈ c.parameters
  · exact howned h hmem
  · have hzero : occurrences c.parameters h = 0 := by
      rw [occurrences, List.count_eq_zero_of_not_mem hmem, Int.natCast_zero]
    rw [hzero]
    exact hs.counts_nonneg h

/-- A draw moves counts from the arguments of its call to its results. -/
theorem sample_moves (functions : Library) {s s' : Store} (hs : s.Sound) {c : Call}
    (hc : c.isGrounded = true)
    (howned : ∀ h, .literal h ∈ c.parameters → occurrences c.parameters h ≤ s.counts h)
    {depth : Nat} {r r' : Randomness} {rs : List Handle}
    (hr : functions.model.sample depth c (s, r) = some (.ok rs, (s', r'))) :
    s.Moves s' fun h => rs.count h - occurrences c.parameters h := by
  have hall := c.owned_handles hs hc howned
  obtain ⟨vs, hvs⟩ := Store.exists_values hall
  have hagrees := sample_agrees functions depth s c c.handles vs r hs (Call.isGrounded_iff.1 hc)
    hvs hall
  rw [hr] at hagrees
  obtain ⟨ws, -, -, hmoves⟩ := hagrees.of_ok
  exact hmoves.congr fun h => by rw [c.occurrences_parameters hc]

/-- A successful draw takes the counts of its arguments, gives those of its results, and leaves
nothing else behind. -/
theorem sample_conserves_counts (functions : Library) {s s' : Store} (hs : functions.Reached s)
    {c : Call} (hc : c.isGrounded = true)
    (howned : ∀ h, .literal h ∈ c.parameters → occurrences c.parameters h ≤ s.counts h)
    {depth : Nat} {r r' : Randomness} {rs : List Handle}
    (hr : functions.model.sample depth c (s, r) = some (.ok rs, (s', r'))) :
    (∀ h, s'.counts h = s.counts h - occurrences c.parameters h + rs.count h) ∧
    (∀ h, (s.counts h = 0 ↔ s.get? h = none) ∧ (s'.counts h = 0 ↔ s'.get? h = none)) ∧
    (∀ h o o', s.get? h = some o → s'.get? h = some o' → o'.value = o.value) ∧
    ∀ h, s.get? h = none → s'.get? h ≠ none → h ∈ rs := by
  have hmoves := sample_moves functions hs.sound hc howned hr
  have hcounts : ∀ h, s'.counts h = s.counts h - occurrences c.parameters h + rs.count h :=
    fun h => by
      have hm := hmoves.counts h
      omega
  refine ⟨hcounts, fun h => ⟨hs.sound.counts_eq_zero_iff h, hmoves.sound.counts_eq_zero_iff h⟩,
    fun h o o' => hmoves.later.value_eq hs.sound, fun h hnew hlive => ?_⟩
  have hbefore := (hs.sound.counts_eq_zero_iff h).2 hnew
  have hafter : s'.counts h ≠ 0 := fun hzero => hlive ((hmoves.sound.counts_eq_zero_iff h).1 hzero)
  have hpos : 0 < rs.count h := by
    have hc := hcounts h
    have hnonneg := hmoves.sound.counts_nonneg h
    have hargs := occurrences_nonneg c.parameters h
    omega
  exact List.count_pos_iff.1 hpos

/-! ## A flip that is returned twice beside one that is never read -/

/-- Flip two coins, and return the first one twice with a literal behind. -/
def sharedFlip : Library :=
  [("share", fun
    | [p] => .append Call.coinFunction [.literal p] ["x"]
        (.append Call.coinFunction [.literal p] ["y"]
          (.done [.named "x", .named "x", .literal (.string "tag")]))
    | _ => .fail (.unknownFunction "share"))]

theorem sharedFlip_conserves : ∃ rs s' r',
    sharedFlip.model.sample 2 ⟨"share", [.literal ⟨0⟩]⟩ (halfStore, .cycle [])
      = some (.ok rs, (s', r')) ∧
    rs = [⟨4⟩, ⟨4⟩, ⟨3⟩] ∧ s'.counts ⟨4⟩ = 2 ∧ s'.counts ⟨0⟩ = 0 ∧ s'.get? ⟨5⟩ = none := by
  have hreached := halfStore_reached sharedFlip
  have hanswer : (sharedFlip.model.sample 2 ⟨"share", [.literal ⟨0⟩]⟩ (halfStore, .cycle [])).map
      (fun x => (x.1.toOption, x.2.1)) = some (some [⟨4⟩, ⟨4⟩, ⟨3⟩],
        ⟨[(4, ⟨.bool true, 2⟩), (3, ⟨.string "tag", 1⟩)], 6⟩) := by
    decide +kernel
  cases hr : sharedFlip.model.sample 2 ⟨"share", [.literal ⟨0⟩]⟩ (halfStore, .cycle []) with
  | none =>
      rw [hr] at hanswer
      cases hanswer
  | some answer =>
      rw [hr] at hanswer
      obtain ⟨_ | rs, s', r'⟩ := answer
      · cases hanswer
      · cases hanswer
        obtain ⟨hcounts, hgone, -, hnew⟩ := sample_conserves_counts sharedFlip hreached
          (c := ⟨"share", [.literal ⟨0⟩]⟩) rfl halfStore_owned hr
        refine ⟨_, _, r', rfl, rfl, hcounts ⟨4⟩, hcounts ⟨0⟩, ?_⟩
        by_contra hlive
        exact absurd (hnew ⟨5⟩ rfl hlive) (by decide)

end ChanceProof
