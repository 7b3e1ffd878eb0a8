import ChanceProof.Proofs.Evaluation.Dependence
import ChanceProof.Proofs.Evaluation.Submission

/-!
# Order and grouping of proofs

A proof with several mappings says what one proof for each of them says together. So lists of proofs
without unknowns that have the same parts in any order and grouping are accepted alike, and lead to
the same labels, executions and components (`Library.expand_regrouped`). The values of labels that
do not lead to recursion are the same, too; those in recursion are approached in passes that go
through labels in their order.
-/

namespace ChanceProof

/-! ## Parts -/

/-- One thesis for each mapping. A thesis without mappings has no other part than itself. -/
def Thesis.parts (t : Thesis) : List Thesis :=
  if t.mappings.isEmpty then [t] else t.mappings.map fun m => ⟨t.claim, [m]⟩

/-- One proof for each mapping. A proof without mappings has no other part than itself. -/
def Proof.parts (p : Proof) : List Proof :=
  if p.mappings.isEmpty then [p] else p.mappings.map fun m => ⟨p.label, [m]⟩

/-- The lists consist of the same proofs, up to their order and up to mappings of one label being
submitted together. -/
def Regrouped (ps ps' : List Proof) : Prop :=
  (ps.flatMap Proof.parts).Perm (ps'.flatMap Proof.parts)

theorem Regrouped.of_perm {ps ps' : List Proof} (h : ps.Perm ps') : Regrouped ps ps' :=
  h.flatMap_right _

theorem Regrouped.symm {ps ps' : List Proof} (h : Regrouped ps ps') : Regrouped ps' ps :=
  List.Perm.symm h

theorem Regrouped.trans {ps ps' ps'' : List Proof} (h : Regrouped ps ps')
    (h' : Regrouped ps' ps'') : Regrouped ps ps'' :=
  List.Perm.trans h h'

/-- A proof may be replaced by its parts. -/
theorem Regrouped.split (p : Proof) (ps : List Proof) : Regrouped (p :: ps) (p.parts ++ ps) := by
  have hparts : p.parts.flatMap Proof.parts = p.parts := by
    by_cases hempty : p.mappings.isEmpty = true
    · have hself : p.parts = [p] := if_pos hempty
      rw [hself, List.flatMap_singleton, hself]
    · have hmap : p.parts = p.mappings.map fun m => ⟨p.label, [m]⟩ := if_neg hempty
      rw [hmap, List.flatMap_map]
      exact List.map_eq_flatMap.symm
  unfold Regrouped
  rw [List.flatMap_cons, List.flatMap_append, hparts]

section

variable {φ : Handle → Option Json}

theorem Proof.Means.parts {p : Proof} {t : Thesis} (h : p.Means φ t) :
    List.Forall₂ (Proof.Means φ) p.parts t.parts := by
  have hempty : p.mappings.isEmpty = t.mappings.isEmpty := by
    rw [Bool.eq_iff_iff, List.isEmpty_iff_length_eq_zero, List.isEmpty_iff_length_eq_zero,
      h.mappings.length_eq]
  unfold Proof.parts Thesis.parts
  rw [hempty]
  split
  · exact .cons h .nil
  · rw [List.forall₂_map_left_iff, List.forall₂_map_right_iff]
    exact h.mappings.imp fun _ _ hm => ⟨h.label, .cons hm .nil⟩

theorem Value.Means.unique : Relator.RightUnique (Value.Means φ) := by
  intro v r r' h h'
  cases h with
  | object hform =>
      cases h' with
      | object hform' => rw [Option.some.inj (hform.symm.trans hform')]
  | unknown =>
      cases h' with
      | unknown => rfl

theorem Mapping.Means.unique : Relator.RightUnique (Mapping.Means φ) := by
  intro m d d' hd hd'
  refine Dictionary.ext (List.right_unique_forall₂' ?_ hd hd')
  intro e f f' hf hf'
  exact Prod.ext (hf.1.symm.trans hf'.1) (Value.Means.unique hf.2 hf'.2)

/-- A proof stands for one thesis only. -/
theorem Proof.Means.unique : Relator.RightUnique (Proof.Means φ) := by
  intro p t t' h h'
  obtain ⟨⟨f, ps, rs⟩, ms⟩ := t
  obtain ⟨⟨f', ps', rs'⟩, ms'⟩ := t'
  obtain rfl : f = f' := h.label.function.symm.trans h'.label.function
  obtain rfl : ps = ps' :=
    List.right_unique_forall₂' Value.Means.unique h.label.parameters h'.label.parameters
  obtain rfl : rs = rs' :=
    List.right_unique_forall₂' Value.Means.unique h.label.result h'.label.result
  obtain rfl : ms = ms' :=
    List.right_unique_forall₂' Mapping.Means.unique h.mappings h'.mappings
  rfl

/-- Proofs that consist of the same parts stand for theses that do. -/
theorem Regrouped.theses {ps ps' : List Proof} (h : Regrouped ps ps') {ts ts' : List Thesis}
    (hts : List.Forall₂ (Proof.Means φ) ps ts) (hts' : List.Forall₂ (Proof.Means φ) ps' ts') :
    (ts.flatMap Thesis.parts).Perm (ts'.flatMap Thesis.parts) :=
  List.rel_perm_imp Proof.Means.unique (List.rel_flatMap hts fun _ _ => Proof.Means.parts)
    (List.rel_flatMap hts' fun _ _ => Proof.Means.parts) h

end

namespace Thesis

theorem label_of_mem_parts {t p : Thesis} (h : p ∈ t.parts) : p.label = t.label := by
  unfold parts at h
  split at h
  · rw [List.mem_singleton.1 h]
  · obtain ⟨m, -, rfl⟩ := List.mem_map.1 h
    rfl

theorem exists_mem_parts (t : Thesis) : ∃ p, p ∈ t.parts := by
  unfold parts
  split
  · exact ⟨t, List.mem_singleton_self t⟩
  · next hne =>
      obtain ⟨m, hm⟩ := List.exists_mem_of_ne_nil t.mappings fun heq => hne (by rw [heq]; rfl)
      exact ⟨_, List.mem_map_of_mem hm⟩

end Thesis

namespace Account

variable {E : Json → Json → Prop} [DecidableRel E] {sketchOf : Expander}

/-! ## Theses and their parts -/

theorem described_ok_iff {t : Thesis} {as : List (List PortableLabel)} :
    described sketchOf E t = .ok as ↔ ∃ sk, sketchOf t.claim.function t.label.parameters = .ok sk ∧
      checkNames t sk = .ok () ∧
        List.Forall₂ (fun m ls => execution E t.claim.result sk m = .ok ls) t.mappings as := by
  unfold described
  rw [bind_eq_ok_iff]
  refine exists_congr fun sk => and_congr_right fun _ => ?_
  rw [bind_eq_ok_iff, ← mapM_ok_iff]
  constructor
  · intro h
    obtain ⟨_, hcheck, has⟩ := h
    exact ⟨hcheck, has⟩
  · exact fun h => ⟨(), h.1, h.2⟩

/-- A mapping by itself describes what it describes among others with the same names. -/
theorem described_part_ok_iff {t : Thesis} {m : Dictionary Referent} (hm : m ∈ t.mappings)
    (hnames : m.keys = t.names) {as : List (List PortableLabel)} :
    described sketchOf E ⟨t.claim, [m]⟩ = .ok as ↔
      ∃ sk, sketchOf t.claim.function t.label.parameters = .ok sk ∧ checkNames t sk = .ok () ∧
        ∃ ls, execution E t.claim.result sk m = .ok ls ∧ as = [ls] := by
  have hcheck : ∀ sk, checkNames ⟨t.claim, [m]⟩ sk = checkNames t sk := by
    intro sk
    have hne : t.mappings.isEmpty = false := by
      cases hempty : t.mappings.isEmpty with
      | false => rfl
      | true =>
          rw [List.isEmpty_iff.1 hempty] at hm
          exact absurd hm List.not_mem_nil
    have hsame : Thesis.names ⟨t.claim, [m]⟩ = t.names := hnames
    unfold checkNames
    rw [hsame, hne]
    rfl
  rw [described_ok_iff]
  refine exists_congr fun sk => and_congr_right fun _ => ?_
  rw [hcheck]
  refine and_congr_right fun _ => ?_
  simp only [List.forall₂_cons_left_iff, List.forall₂_nil_left_iff]
  constructor
  · intro h
    obtain ⟨ls, _, hls, rfl, rfl⟩ := h
    exact ⟨ls, hls, rfl⟩
  · intro h
    obtain ⟨ls, hls, rfl⟩ := h
    exact ⟨ls, [], hls, rfl, rfl⟩

theorem forall₂_singletons {α β : Type} {R : α → β → Prop} {xs : List α} {yss : List (List β)}
    (h : List.Forall₂ (fun x ys => ∃ y, R x y ∧ ys = [y]) xs yss) :
    List.Forall₂ R xs yss.flatten := by
  induction h with
  | nil => exact .nil
  | cons hx _ ih =>
      obtain ⟨y, hy, rfl⟩ := hx
      exact .cons hy ih

/-- The executions of a thesis are those of its parts. -/
theorem executions_parts {t : Thesis} (ht : t.Uniform) {as : List (List PortableLabel)} :
    executions sketchOf E t = .ok as ↔ ∃ ass,
      List.Forall₂ (fun p as => executions sketchOf E p = .ok as) t.parts ass ∧
        ass.flatten = as := by
  unfold Thesis.parts
  cases hempty : t.mappings.isEmpty with
  | true =>
      simp only [if_true, List.forall₂_cons_left_iff, List.forall₂_nil_left_iff]
      constructor
      · exact fun h => ⟨[as], ⟨as, [], h, rfl, rfl⟩, by simp⟩
      · intro h
        obtain ⟨_, ⟨as', _, has, rfl, rfl⟩, rfl⟩ := h
        simpa using has
  | false =>
      obtain ⟨m₀, hm₀⟩ : ∃ m, m ∈ t.mappings := List.exists_mem_of_ne_nil _ fun heq => by
        rw [heq] at hempty
        cases hempty
      simp only [Bool.false_eq_true, if_false, List.forall₂_map_left_iff]
      by_cases hcoin : t.claim.function = Call.coinFunction
      · -- A coin takes no mappings, whether many or one.
        constructor
        · intro h
          rw [executions, if_pos hcoin, hempty] at h
          cases h
        · intro h
          obtain ⟨ass, hass, -⟩ := h
          obtain ⟨as', -, h⟩ := exists_of_forall₂_mem hass.flip hm₀
          rw [executions, if_pos hcoin] at h
          cases h
      · have hpart : ∀ m ∈ t.mappings, ∀ as, executions sketchOf E ⟨t.claim, [m]⟩ = .ok as ↔
            ∃ sk, sketchOf t.claim.function t.label.parameters = .ok sk ∧
              checkNames t sk = .ok () ∧
                ∃ ls, execution E t.claim.result sk m = .ok ls ∧ as = [ls] := by
          intro m hm as
          rw [executions, if_neg hcoin]
          exact described_part_ok_iff hm (ht m hm)
        rw [executions, if_neg hcoin, described_ok_iff]
        constructor
        · intro h
          obtain ⟨sk, hsk, hcheck, has⟩ := h
          refine ⟨as.map ([·]), List.forall₂_map_right_iff.2 ?_, ?_⟩
          swap
          · rw [← List.flatMap_def, List.flatMap_singleton']
          refine ((List.forall₂_and_left _ _).2 ⟨fun m hm => hm, has⟩).imp fun m ls h => ?_
          exact (hpart m h.1 _).2 ⟨sk, hsk, hcheck, ls, h.2, rfl⟩
        · intro h
          obtain ⟨ass, hass, rfl⟩ := h
          obtain ⟨as₀, -, h₀⟩ := exists_of_forall₂_mem hass.flip hm₀
          obtain ⟨sk, hsk, hcheck, -⟩ := (hpart m₀ hm₀ as₀).1 h₀
          refine ⟨sk, hsk, hcheck, forall₂_singletons ?_⟩
          refine ((List.forall₂_and_left _ _).2 ⟨fun m hm => hm, hass⟩).imp fun m as h => ?_
          obtain ⟨sk', hsk', -, hls⟩ := (hpart m h.1 as).1 h.2
          rwa [Except.ok.inj (hsk.symm.trans hsk')]

/-- A thesis has executions just when all its parts have. -/
theorem exists_executions_parts {t : Thesis} (ht : t.Uniform) :
    (∃ as, executions sketchOf E t = .ok as) ↔
      ∀ p ∈ t.parts, ∃ as, executions sketchOf E p = .ok as := by
  simp only [executions_parts ht]
  constructor
  · intro h
    obtain ⟨_, ass, hass, -⟩ := h
    intro p hp
    obtain ⟨as, -, has⟩ := exists_of_forall₂_mem hass.flip hp
    exact ⟨as, has⟩
  · intro h
    obtain ⟨ass, hass⟩ := exists_forall₂ h
    exact ⟨ass.flatten, ass, hass, rfl⟩

theorem gathered_of_forall₂ {ts : List Thesis} {ass : List (List (List PortableLabel))}
    (h : List.Forall₂ (fun t as => executions sketchOf E t = .ok as) ts ass) {l : PortableLabel}
    (hl : ∀ t ∈ ts, t.label = l) (l' : PortableLabel) :
    gathered sketchOf E ts l' = if l' = l then ass.flatten else [] := by
  induction h with
  | nil => split <;> rfl
  | cons has _ ih =>
      obtain ⟨ht, hts⟩ := List.forall_mem_cons.1 hl
      rw [gathered_cons has, ih hts, ht]
      split
      · exact List.flatten_cons.symm
      · rfl

/-- The parts of theses contribute what the theses do. -/
theorem gathered_parts {ts : List Thesis} (hts : ∀ t ∈ ts, t.Uniform)
    (h : ∀ t ∈ ts, ∃ as, executions sketchOf E t = .ok as) (l : PortableLabel) :
    gathered sketchOf E (ts.flatMap Thesis.parts) l = gathered sketchOf E ts l := by
  induction ts with
  | nil => rfl
  | cons t ts ih =>
      obtain ⟨ht, hts⟩ := List.forall_mem_cons.1 hts
      obtain ⟨⟨as, has⟩, h⟩ := List.forall_mem_cons.1 h
      obtain ⟨ass, hass, hflat⟩ := (executions_parts ht).1 has
      rw [List.flatMap_cons, gathered_append, gathered_cons has, ih hts h, ← hflat,
        gathered_of_forall₂ hass fun p hp => Thesis.label_of_mem_parts hp]

theorem mem_labels_parts (ts : List Thesis) {l : PortableLabel} :
    l ∈ (ts.flatMap Thesis.parts).map Thesis.label ↔ l ∈ ts.map Thesis.label := by
  simp only [List.mem_map, List.mem_flatMap]
  constructor
  · intro h
    obtain ⟨p, ⟨t, ht, hp⟩, rfl⟩ := h
    exact ⟨t, ht, (Thesis.label_of_mem_parts hp).symm⟩
  · intro h
    obtain ⟨t, ht, rfl⟩ := h
    obtain ⟨p, hp⟩ := t.exists_mem_parts
    exact ⟨p, ⟨t, ht, hp⟩, Thesis.label_of_mem_parts hp⟩

theorem gathered_perm {ts ts' : List Thesis} (h : ts.Perm ts') (l : PortableLabel) :
    (gathered sketchOf E ts l).Perm (gathered sketchOf E ts' l) :=
  (h.filter _).flatMap_right _

/-! ## Accounts up to order -/

/-- The accounts have the same labels with the same executions, in any order. -/
structure Reordered (a b : Account) : Prop where
  distinct : a.labels.Nodup
  distinct' : b.labels.Nodup
  labels : ∀ l, l ∈ a.labels ↔ l ∈ b.labels
  alternatives : ∀ l, (a.alternativesOf l).Perm (b.alternativesOf l)

/-- Theses that consist of the same parts are accepted alike, to accounts up to order. -/
theorem expandAll_regrouped {ts ts' : List Thesis} (hts : ∀ t ∈ ts, t.Grounded ∧ t.Uniform)
    (hts' : ∀ t ∈ ts', t.Grounded ∧ t.Uniform)
    (h : (ts.flatMap Thesis.parts).Perm (ts'.flatMap Thesis.parts)) {a : Account}
    (ha : (expandAll sketchOf E ts).run .start = (.ok (), a)) :
    ∃ b, (expandAll sketchOf E ts').run .start = (.ok (), b) ∧ a.Reordered b := by
  have hstart : ∀ l, (Account.start.alternativesOf l).Pairwise Apart := fun _ => .nil
  obtain ⟨hexecutions, hapart⟩ := (expandAll_ok_iff (fun t ht => (hts t ht).1) hstart).1 ⟨a, ha⟩
  have hparts : ∀ p ∈ ts.flatMap Thesis.parts, ∃ as, executions sketchOf E p = .ok as := by
    intro p hp
    obtain ⟨t, ht, hp⟩ := List.mem_flatMap.1 hp
    exact (exists_executions_parts (hts t ht).2).1 (hexecutions t ht) p hp
  have hexecutions' : ∀ t ∈ ts', ∃ as, executions sketchOf E t = .ok as := fun t ht =>
    (exists_executions_parts (hts' t ht).2).2 fun p hp =>
      hparts p (h.mem_iff.2 (List.mem_flatMap.2 ⟨t, ht, hp⟩))
  have hgathered : ∀ l, (gathered sketchOf E ts l).Perm (gathered sketchOf E ts' l) := by
    intro l
    rw [← gathered_parts (fun t ht => (hts t ht).2) hexecutions,
      ← gathered_parts (fun t ht => (hts' t ht).2) hexecutions']
    exact gathered_perm h l
  obtain ⟨b, hb⟩ := (expandAll_ok_iff (fun t ht => (hts' t ht).1) hstart).2 ⟨hexecutions',
    fun l => ((hgathered l).pairwise_iff fun h => h.symm).1 (hapart l)⟩
  have hga := gathers_of_run (fun t ht => (hts t ht).1) ha
  have hgb := gathers_of_run (fun t ht => (hts' t ht).1) hb
  refine ⟨b, hb, hga.distinct .nil, hgb.distinct .nil, fun l => ?_, fun l => ?_⟩
  · rw [hga.labels, hgb.labels, ← mem_labels_parts ts, ← mem_labels_parts ts',
      (h.map Thesis.label).mem_iff]
  · rw [hga.alternatives, hgb.alternatives]
    exact (hgathered l).append_left _

/-! ## What does not depend on the order -/

namespace Reordered

variable {a b : Account} (h : a.Reordered b)

include h

theorem needs_eq : a.Needs = b.Needs := by
  funext x y
  refine propext (and_congr (h.labels y) (and_congr_right fun _ => exists_congr fun ls => ?_))
  rw [(h.alternatives x).mem_iff]

variable {settled : ℚ → ℚ → Bool} {values values' : Array ℚ}

/-- A label that does not lead to recursion has the same value in both accounts. -/
theorem value_eq (hs : a.Solved settled values) (hs' : b.Solved settled values')
    {x : PortableLabel} (hfree : ∀ y, Relation.ReflTransGen a.Needs x y →
      ¬Relation.TransGen a.Needs y y) {i j : Nat} (hi : a.labels[i]? = some x)
    (hj : b.labels[j]? = some x) :
    System.valueAt (exactArithmetic settled) values i
      = System.valueAt (exactArithmetic settled) values' j := by
  have hlt : i < a.graph.size := by
    rw [size_graph]
    exact (List.getElem?_eq_some_iff.1 hi).1
  -- Labels come after those that they need, so these have the same values by now.
  refine (proper_graph a).induct (P := fun i => ∀ x j, a.labels[i]? = some x →
    b.labels[j]? = some x → System.valueAt (exactArithmetic settled) values i
      = System.valueAt (exactArithmetic settled) values' j) ?_ hlt ?_ x j hi hj
  · intro i _ hnot ih x j hi hj
    have hrecurs : ¬Relation.TransGen a.Needs x x := fun hx =>
      hnot (((numbers_graph h.distinct).recurs_iff hi).2 hx)
    rw [hs.value i x hi hrecurs, hs'.value j x hj (h.needs_eq ▸ hrecurs)]
    refine sumWorth_congr (h.alternatives x) fun ls hls y hy => worth_congr fun hcall => ?_
    by_cases hmem : y ∈ a.labels
    · obtain ⟨k, hk⟩ := List.mem_iff_getElem?.1 hmem
      obtain ⟨k', hk'⟩ := List.mem_iff_getElem?.1 ((h.labels y).1 hmem)
      rw [(number?_eq_some_iff h.distinct).2 hk, (number?_eq_some_iff h.distinct').2 hk']
      exact ih k (((numbers_graph h.distinct).leads hi).2 ⟨y, hk, hmem, hcall, ls, hls, hy⟩)
        y k' hk hk'
    · rw [Option.isNone_iff_eq_none.1 (number?_isNone_iff.2 hmem),
        Option.isNone_iff_eq_none.1 (number?_isNone_iff.2 (mt (h.labels y).2 hmem))]
      rfl
  · intro k hreach hrecurs
    obtain ⟨y, hy, hxy⟩ := ((numbers_graph h.distinct).reaches_iff hi).1 hreach
    exact hfree y hxy (((numbers_graph h.distinct).recurs_iff hy).1 hrecurs)

/-- Outside recursion the labels of both accounts go with the same values. -/
theorem mem_zip_iff (hs : a.Solved settled values) (hs' : b.Solved settled values')
    {x : PortableLabel} (hfree : ∀ y, Relation.ReflTransGen a.Needs x y →
      ¬Relation.TransGen a.Needs y y) {v : ℚ} :
    (x, v) ∈ a.labels.zip values.toList ↔ (x, v) ∈ b.labels.zip values'.toList := by
  have hvalue : ∀ {c : Account} {ws : Array ℚ}, c.Solved settled ws →
      ((x, v) ∈ c.labels.zip ws.toList ↔
        ∃ i, c.labels[i]? = some x ∧ System.valueAt (exactArithmetic settled) ws i = v) := by
    intro c ws hws
    rw [List.mem_iff_getElem?]
    refine exists_congr fun i => ?_
    have hentry : ws.toList[i]? = ws[i]? := Array.getElem?_toList
    rw [List.getElem?_zip_eq_some, hentry]
    refine and_congr_right fun hi => ?_
    have hlt : i < ws.size := hws.size ▸ (List.getElem?_eq_some_iff.1 hi).1
    rw [System.valueAt, Array.getElem?_eq_getElem hlt, Option.getD_some, Option.some.injEq]
  rw [hvalue hs, hvalue hs']
  constructor
  · intro hmem
    obtain ⟨i, hi, rfl⟩ := hmem
    obtain ⟨j, hj⟩ := List.mem_iff_getElem?.1 ((h.labels x).1 (List.mem_of_getElem? hi))
    exact ⟨j, hj, (h.value_eq hs hs' hfree hi hj).symm⟩
  · intro hmem
    obtain ⟨j, hj, rfl⟩ := hmem
    obtain ⟨i, hi⟩ := List.mem_iff_getElem?.1 ((h.labels x).2 (List.mem_of_getElem? hj))
    exact ⟨i, hi, h.value_eq hs hs' hfree hi hj⟩

end Reordered

end Account

end ChanceProof
