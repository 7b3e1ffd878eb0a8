import ChanceProof.Evaluation.Disjoint
import ChanceProof.Proofs.Model.Action

/-!
# The check of alternatives is pairwise

`checkDisjoint` goes through groups of alternatives, place by place. It ends for lists of any
lengths (`checkDisjoint_checks`). What it decides is a statement about pairs: any two alternatives
differ in the result at some place that both of them have (`checkDisjoint_ok_iff`). So its verdict
does not depend on their order (`checkDisjoint_perm`).
-/

namespace ChanceProof

/-- The results of two alternatives differ at a place that both have. -/
def Differ (a b : List Label) : Prop :=
  ∃ (i : Nat) (l m : Label), a[i]? = some l ∧ b[i]? = some m ∧ l.result ≠ m.result

@[simp] theorem not_differ_nil_left (b : List Label) : ¬Differ [] b := by
  rintro ⟨i, l, m, hl, -⟩
  simp at hl

@[simp] theorem not_differ_nil_right (a : List Label) : ¬Differ a [] := by
  rintro ⟨i, l, m, -, hm, -⟩
  simp at hm

theorem differ_cons_iff {l m : Label} {a b : List Label} :
    Differ (l :: a) (m :: b) ↔ l.result ≠ m.result ∨ Differ a b := by
  constructor
  · rintro ⟨i, l', m', hl, hm, hne⟩
    cases i with
    | zero =>
        cases hl
        cases hm
        exact .inl hne
    | succ i => exact .inr ⟨i, l', m', hl, hm, hne⟩
  · rintro (hne | ⟨i, l', m', hl, hm, hne⟩)
    · exact ⟨0, l, m, rfl, rfl, hne⟩
    · exact ⟨i + 1, l', m', hl, hm, hne⟩

/-- There is a first place at which alternatives differ. -/
theorem Differ.first {a b : List Label} (h : Differ a b) :
    ∃ (i : Nat) (l m : Label), a[i]? = some l ∧ b[i]? = some m ∧ l.result ≠ m.result ∧
      (a.take i).map (·.result) = (b.take i).map (·.result) := by
  induction a generalizing b with
  | nil => exact absurd h (not_differ_nil_left b)
  | cons l a ih =>
      cases b with
      | nil => exact absurd h (not_differ_nil_right _)
      | cons m b =>
          by_cases heq : l.result = m.result
          · obtain ⟨i, l', m', hl, hm, hne, hbefore⟩ :=
              ih ((differ_cons_iff.1 h).resolve_left fun hne => hne heq)
            refine ⟨i + 1, l', m', hl, hm, hne, ?_⟩
            rw [List.take_succ_cons, List.take_succ_cons, List.map_cons, List.map_cons, heq,
              hbefore]
          · exact ⟨0, l, m, rfl, rfl, heq, rfl⟩

/-! ## Groups -/

def restAfter? (result : List Value) : List Label → Option (List Label)
  | [] => none
  | l :: rest => if l.result = result then some rest else none

/-- The group of a result. -/
def groupOf (groups : List (List Value × List (List Label))) (result : List Value) :
    List (List Label) :=
  (groups.lookup result).getD []

def DistinctGroups (groups : List (List Value × List (List Label))) : Prop :=
  groups.Pairwise (·.1 ≠ ·.1)

theorem mem_addToGroup {result : List Value} {rest : List Label}
    {g : List Value × List (List Label)} {groups : List (List Value × List (List Label))}
    (h : g ∈ addToGroup result rest groups) :
    g.1 = result ∨ ∃ g' ∈ groups, g'.1 = g.1 := by
  induction groups with
  | nil => exact .inl (by rw [List.mem_singleton.1 h])
  | cons g₀ groups ih =>
      unfold addToGroup at h
      split at h
      · rcases List.mem_cons.1 h with rfl | h
        · exact .inr ⟨g₀, List.mem_cons_self, rfl⟩
        · exact .inr ⟨g, List.mem_cons_of_mem _ h, rfl⟩
      · rcases List.mem_cons.1 h with rfl | h
        · exact .inr ⟨g₀, List.mem_cons_self, rfl⟩
        · rcases ih h with h | ⟨g', hg', h⟩
          · exact .inl h
          · exact .inr ⟨g', List.mem_cons_of_mem _ hg', h⟩

theorem distinct_addToGroup (result : List Value) (rest : List Label)
    {groups : List (List Value × List (List Label))} (h : DistinctGroups groups) :
    DistinctGroups (addToGroup result rest groups) := by
  induction groups with
  | nil => exact List.pairwise_singleton _ _
  | cons g₀ groups ih =>
      obtain ⟨hhead, htail⟩ := List.pairwise_cons.1 h
      unfold addToGroup
      split
      · exact List.pairwise_cons.2 ⟨hhead, htail⟩
      · next hne =>
          refine List.pairwise_cons.2 ⟨fun g hg => ?_, ih htail⟩
          rcases mem_addToGroup hg with heq | ⟨g', hg', heq⟩
          · rw [heq]
            exact hne
          · rw [← heq]
            exact hhead g' hg'

theorem groupOf_addToGroup (result r : List Value) (rest : List Label)
    (groups : List (List Value × List (List Label))) :
    groupOf (addToGroup result rest groups) r
      = groupOf groups r ++ if r = result then [rest] else [] := by
  induction groups with
  | nil =>
      unfold addToGroup groupOf
      by_cases hr : r = result
      · simp [hr]
      · simp [hr, List.lookup_cons, beq_false_of_ne hr]
  | cons g₀ groups ih =>
      obtain ⟨r₀, group⟩ := g₀
      unfold addToGroup
      split
      · next heq =>
          unfold groupOf
          by_cases hr : r = r₀
          · simp [hr, heq]
          · have hr' : r ≠ result := fun h => hr (h.trans heq.symm)
            simp [List.lookup_cons, beq_false_of_ne hr, hr']
      · next hne =>
          unfold groupOf at ih ⊢
          by_cases hr : r = r₀
          · have hr' : r ≠ result := fun h => hne (hr.symm.trans h)
            simp [hr, hne]
          · simp only [List.lookup_cons, beq_false_of_ne hr]
            exact ih

theorem groupByResult_none_iff {groups : List (List Value × List (List Label))}
    {alternatives : List (List Label)} :
    groupByResult groups alternatives = none ↔ [] ∈ alternatives := by
  induction alternatives generalizing groups with
  | nil => simp [groupByResult]
  | cons a others ih =>
      cases a with
      | nil => simp [groupByResult]
      | cons l rest =>
          rw [groupByResult, ih, List.mem_cons]
          simp

/-- Grouping puts the rest of each alternative behind its result. -/
theorem groupByResult_some {groups groups' : List (List Value × List (List Label))}
    {alternatives : List (List Label)} (hd : DistinctGroups groups)
    (h : groupByResult groups alternatives = some groups') :
    DistinctGroups groups' ∧
      ∀ r, groupOf groups' r = groupOf groups r ++ alternatives.filterMap (restAfter? r) := by
  induction alternatives generalizing groups with
  | nil =>
      cases h
      exact ⟨hd, fun r => by simp⟩
  | cons a others ih =>
      cases a with
      | nil => cases h
      | cons l rest =>
          obtain ⟨hd', hgroups⟩ := ih (distinct_addToGroup l.result rest hd) h
          refine ⟨hd', fun r => ?_⟩
          rw [hgroups r, groupOf_addToGroup, List.append_assoc]
          congr 1
          by_cases hr : l.result = r
          · simp [restAfter?, hr]
          · simp [restAfter?, hr, Ne.symm hr]

theorem forall_groups_iff {groups : List (List Value × List (List Label))}
    (hd : DistinctGroups groups) {P : List (List Label) → Prop} (hnil : P []) :
    (∀ g ∈ groups, P g.2) ↔ ∀ r, P (groupOf groups r) := by
  induction groups with
  | nil => simpa [groupOf] using hnil
  | cons g₀ groups ih =>
      obtain ⟨hhead, htail⟩ := List.pairwise_cons.1 hd
      obtain ⟨r₀, group⟩ := g₀
      have hcons : ∀ r, groupOf ((r₀, group) :: groups) r
          = if r = r₀ then group else groupOf groups r := by
        intro r
        unfold groupOf
        by_cases hr : r = r₀
        · simp [hr]
        · simp [hr, List.lookup_cons, beq_false_of_ne hr]
      have hself : groupOf groups r₀ = [] := by
        unfold groupOf
        have hnone : groups.lookup r₀ = none := by
          refine List.lookup_eq_none_iff.2 fun g hg => ?_
          exact bne_iff_ne.2 (hhead g hg)
        rw [hnone]
        rfl
      rw [List.forall_mem_cons, ih htail]
      constructor
      · rintro ⟨hP, hrest⟩ r
        rw [hcons]
        split
        · exact hP
        · exact hrest r
      · intro hall
        refine ⟨by simpa [hcons] using hall r₀, fun r => ?_⟩
        by_cases hr : r = r₀
        · rw [hr, hself]
          exact hnil
        · simpa [hcons, hr] using hall r

/-! ## The check -/

theorem mem_filterMap_restAfter? {r : List Value} {rest : List Label}
    {alternatives : List (List Label)} :
    rest ∈ alternatives.filterMap (restAfter? r) ↔
      ∃ l : Label, l.result = r ∧ l :: rest ∈ alternatives := by
  rw [List.mem_filterMap]
  constructor
  · rintro ⟨a, ha, h⟩
    cases a with
    | nil => cases h
    | cons l b =>
        rw [restAfter?, Option.ite_none_right_eq_some] at h
        obtain ⟨hl, h⟩ := h
        cases h
        exact ⟨l, hl, ha⟩
  · rintro ⟨l, hl, ha⟩
    exact ⟨l :: rest, ha, by rw [restAfter?, if_pos hl]⟩

/-- Alternatives that have not ended differ pairwise when the rests in each group do. -/
theorem pairwise_differ_iff {alternatives : List (List Label)} (h : [] ∉ alternatives) :
    alternatives.Pairwise Differ ↔
      ∀ r, (alternatives.filterMap (restAfter? r)).Pairwise Differ := by
  induction alternatives with
  | nil => simp
  | cons a others ih =>
      rw [List.mem_cons, not_or] at h
      cases a with
      | nil => exact absurd rfl h.1
      | cons l rest =>
          have hcons : ∀ r, ((l :: rest) :: others).filterMap (restAfter? r)
              = (if l.result = r then [rest] else []) ++ others.filterMap (restAfter? r) := by
            intro r
            by_cases hr : l.result = r
            · simp [restAfter?, hr]
            · simp [restAfter?, hr]
          rw [List.pairwise_cons, ih h.2]
          constructor
          · rintro ⟨hhead, htail⟩ r
            rw [hcons]
            split
            · next hr =>
                refine List.pairwise_cons.2 ⟨fun b hb => ?_, htail r⟩
                obtain ⟨m, hm, hmem⟩ := mem_filterMap_restAfter?.1 hb
                rcases differ_cons_iff.1 (hhead _ hmem) with hne | hdiff
                · exact absurd (hr.trans hm.symm) hne
                · exact hdiff
            · exact htail r
          · intro hall
            refine ⟨fun b hb => ?_, fun r => ?_⟩
            · cases b with
              | nil => exact absurd hb h.2
              | cons m b =>
                  by_cases hr : l.result = m.result
                  · have hgroup := hall l.result
                    rw [hcons, if_pos rfl] at hgroup
                    exact differ_cons_iff.2 (.inr ((List.pairwise_cons.1 hgroup).1 b
                      (mem_filterMap_restAfter?.2 ⟨m, hr.symm, hb⟩)))
                  · exact differ_cons_iff.2 (.inl hr)
            · have hgroup := hall r
              rw [hcons] at hgroup
              exact hgroup.sublist (List.sublist_append_right _ _)

theorem pairwise_of_length_le_one {α : Type} {R : α → α → Prop} {xs : List α} (h : xs.length ≤ 1) :
    xs.Pairwise R := by
  match xs, h with
  | [], _ => exact .nil
  | [x], _ => exact List.pairwise_singleton R x
  | _ :: _ :: xs, h => simp at h

/-- An alternative that has ended differs from no other. -/
theorem not_pairwise_of_nil_mem {alternatives : List (List Label)} (h : [] ∈ alternatives)
    (hlen : ¬alternatives.length ≤ 1) : ¬alternatives.Pairwise Differ := by
  intro hp
  match alternatives, hlen with
  | [], hlen => simp at hlen
  | [_], hlen => simp at hlen
  | a :: b :: others, _ =>
      rcases List.mem_cons.1 h with rfl | h
      · exact not_differ_nil_left _ ((List.pairwise_cons.1 hp).1 b List.mem_cons_self)
      · exact not_differ_nil_right _ ((List.pairwise_cons.1 hp).1 [] h)

theorem disjointFrom_ok_iff {fuel place : Nat} {alternatives : List (List Label)}
    (h : ∀ a ∈ alternatives, a.length ≤ fuel) :
    disjointFrom fuel place alternatives = .ok () ↔ alternatives.Pairwise Differ := by
  induction fuel generalizing place alternatives with
  | zero =>
      unfold disjointFrom
      split
      · next hlen => exact ⟨fun _ => pairwise_of_length_le_one hlen, fun _ => rfl⟩
      · next hlen =>
          obtain ⟨a, ha⟩ : ∃ a, a ∈ alternatives :=
            List.exists_mem_of_length_pos (by omega)
          obtain rfl : a = [] := List.length_eq_zero_iff.1 (Nat.le_zero.1 (h a ha))
          exact ⟨fun h' => (nomatch h'), fun hp => absurd hp (not_pairwise_of_nil_mem ha hlen)⟩
  | succ fuel ih =>
      unfold disjointFrom
      split
      · next hlen => exact ⟨fun _ => pairwise_of_length_le_one hlen, fun _ => rfl⟩
      · next hlen =>
          split
          · next hnone =>
              have hnil := groupByResult_none_iff.1 hnone
              exact ⟨fun h' => (nomatch h'),
                fun hp => absurd hp (not_pairwise_of_nil_mem hnil hlen)⟩
          · next groups hsome =>
              have hnil : [] ∉ alternatives := fun hmem => by
                rw [groupByResult_none_iff.2 hmem] at hsome
                cases hsome
              obtain ⟨hd, hgroups⟩ := groupByResult_some List.Pairwise.nil hsome
              have hgroup : ∀ r, groupOf groups r = alternatives.filterMap (restAfter? r) :=
                fun r => hgroups r
              -- Each group holds what is left of some alternatives, so one place less is enough.
              have hshort : ∀ r, ∀ a ∈ groupOf groups r, a.length ≤ fuel := by
                intro r a ha
                rw [hgroup] at ha
                obtain ⟨l, -, hmem⟩ := mem_filterMap_restAfter?.1 ha
                have := h _ hmem
                rw [List.length_cons] at this
                omega
              rw [forM_ok_iff, pairwise_differ_iff hnil]
              rw [forall_groups_iff hd (P := fun g => disjointFrom fuel (place + 1) g = .ok ())
                ((ih (by simp)).2 .nil)]
              exact forall_congr' fun r => by rw [ih (hshort r), hgroup]

theorem le_foldl_max_length {alternatives : List (List Label)} (n : Nat) :
    n ≤ alternatives.foldl (fun n a => max n a.length) n ∧
      ∀ a ∈ alternatives, a.length ≤ alternatives.foldl (fun n a => max n a.length) n := by
  induction alternatives generalizing n with
  | nil => exact ⟨Nat.le_refl n, fun _ h => nomatch h⟩
  | cons b others ih =>
      rw [List.foldl_cons]
      obtain ⟨hle, hall⟩ := ih (max n b.length)
      refine ⟨Nat.le_trans (Nat.le_max_left ..) hle, fun a ha => ?_⟩
      rcases List.mem_cons.1 ha with rfl | ha
      · exact Nat.le_trans (Nat.le_max_right ..) hle
      · exact hall a ha

/-- The check passes just when any two alternatives differ at a place that both have. -/
theorem checkDisjoint_ok_iff {l : Label} {alternatives : List (List Label)} :
    checkDisjoint l alternatives = .ok () ↔ alternatives.Pairwise Differ := by
  rw [← disjointFrom_ok_iff (le_foldl_max_length 0).2, checkDisjoint]
  exact mapError_ok

/-! ## The check ends -/

/-- How the check of a group goes that agrees on its first places, group by group and without a
limit. -/
inductive Checks : (place : Nat) → List (List Label) → Except Nat Unit → Prop
  | few {place : Nat} {alternatives : List (List Label)} (short : alternatives.length ≤ 1) :
    Checks place alternatives (.ok ())
  | ended {place : Nat} {alternatives : List (List Label)} (several : 1 < alternatives.length)
    (none : groupByResult [] alternatives = none) : Checks place alternatives (.error place)
  | passed {place : Nat} {alternatives : List (List Label)}
    {groups : List (List Value × List (List Label))} (several : 1 < alternatives.length)
    (some : groupByResult [] alternatives = some groups)
    (all : ∀ g ∈ groups, Checks (place + 1) g.2 (.ok ())) : Checks place alternatives (.ok ())
  | failed {place n : Nat} {alternatives : List (List Label)} {g : List Value × List (List Label)}
    {before after : List (List Value × List (List Label))} (several : 1 < alternatives.length)
    (some : groupByResult [] alternatives = some (before ++ g :: after))
    (passed : ∀ g' ∈ before, Checks (place + 1) g'.2 (.ok ()))
    (failed : Checks (place + 1) g.2 (.error n)) : Checks place alternatives (.error n)

/-- Of checks one after another all pass, or there is a first one that fails. -/
theorem forM_cases {ε α : Type} (f : α → Except ε Unit) (xs : List α) :
    (xs.forM f = .ok () ∧ ∀ x ∈ xs, f x = .ok ()) ∨
      ∃ (before : List α) (x : α) (after : List α) (e : ε), xs = before ++ x :: after ∧
        (∀ y ∈ before, f y = .ok ()) ∧ f x = .error e ∧ xs.forM f = .error e := by
  induction xs with
  | nil => exact .inl ⟨rfl, fun _ h => absurd h List.not_mem_nil⟩
  | cons x xs ih =>
      have hcons : (x :: xs).forM f = (f x >>= fun _ => xs.forM f) := List.forM_cons
      rw [hcons]
      cases hx : f x with
      | error e => exact .inr ⟨[], x, xs, e, rfl, fun _ h => absurd h List.not_mem_nil, hx, rfl⟩
      | ok u =>
          rcases ih with ⟨hok, hall⟩ | ⟨before, y, after, e, rfl, hbefore, hy, herr⟩
          · exact .inl ⟨hok, List.forall_mem_cons.2 ⟨hx, hall⟩⟩
          · exact .inr ⟨x :: before, y, after, e, rfl, List.forall_mem_cons.2 ⟨hx, hbefore⟩, hy,
              herr⟩

theorem groupOf_of_mem {groups : List (List Value × List (List Label))} (hd : DistinctGroups groups)
    {g : List Value × List (List Label)} (hg : g ∈ groups) : groupOf groups g.1 = g.2 := by
  unfold groupOf
  induction groups with
  | nil => exact absurd hg List.not_mem_nil
  | cons g₀ groups ih =>
      obtain ⟨hhead, htail⟩ := List.pairwise_cons.1 hd
      rw [List.lookup_cons]
      rcases List.mem_cons.1 hg with rfl | hg
      · simp
      · rw [beq_false_of_ne (hhead g hg).symm]
        exact ih htail hg

/-- Each group holds what is left of some alternatives. -/
theorem exists_of_mem_group {groups : List (List Value × List (List Label))}
    {alternatives : List (List Label)} (h : groupByResult [] alternatives = some groups)
    {g : List Value × List (List Label)} (hg : g ∈ groups) {a : List Label} (ha : a ∈ g.2) :
    ∃ l : Label, l.result = g.1 ∧ l :: a ∈ alternatives := by
  obtain ⟨hd, hgroups⟩ := groupByResult_some List.Pairwise.nil h
  rw [← groupOf_of_mem hd hg, hgroups] at ha
  exact mem_filterMap_restAfter?.1 ha

/-- As many places as the longest alternative has are enough to finish the check. -/
theorem checks_disjointFrom {fuel place : Nat} {alternatives : List (List Label)}
    (h : ∀ a ∈ alternatives, a.length ≤ fuel) :
    Checks place alternatives (disjointFrom fuel place alternatives) := by
  induction fuel generalizing place alternatives with
  | zero =>
      unfold disjointFrom
      split
      · next hlen => exact .few hlen
      · next hlen =>
          obtain ⟨a, ha⟩ : ∃ a, a ∈ alternatives :=
            List.exists_mem_of_length_pos (by omega)
          obtain rfl : a = [] := List.length_eq_zero_iff.1 (Nat.le_zero.1 (h a ha))
          exact .ended (by omega) (groupByResult_none_iff.2 ha)
  | succ fuel ih =>
      unfold disjointFrom
      split
      · next hlen => exact .few hlen
      · next hlen =>
          have hlen : 1 < alternatives.length := by omega
          split
          · next hnone => exact .ended hlen hnone
          · next groups hsome =>
              have hgroup : ∀ g ∈ groups,
                  Checks (place + 1) g.2 (disjointFrom fuel (place + 1) g.2) := by
                intro g hg
                refine ih fun a ha => ?_
                obtain ⟨l, -, hmem⟩ := exists_of_mem_group hsome hg ha
                have hle := h _ hmem
                rw [List.length_cons] at hle
                omega
              rcases forM_cases (fun g : List Value × List (List Label) =>
                disjointFrom fuel (place + 1) g.2) groups with
                ⟨hok, hall⟩ | ⟨before, g, after, n, rfl, hbefore, hg, herr⟩
              · rw [hok]
                exact .passed hlen hsome fun g hg => hall g hg ▸ hgroup g hg
              · rw [herr]
                refine .failed hlen hsome (fun g' hg' => ?_) (hg ▸ hgroup g (by simp))
                exact hbefore g' hg' ▸ hgroup g' (by simp [hg'])

/-- What is wrong with the alternatives of a label when two agree on so many labels. -/
def ambiguity (l : Label) (place : Nat) : Failure :=
  .ambiguousProof l.display
    ("alternatives agree on all " ++ toString place
      ++ " sub-labels and may describe the same execution")

/-- The check ends for any alternatives, and answers what it ends with. -/
theorem checkDisjoint_checks (l : Label) (alternatives : List (List Label)) :
    ∃ r, Checks 0 alternatives r ∧ checkDisjoint l alternatives = r.mapError (ambiguity l) :=
  ⟨_, checks_disjointFrom (le_foldl_max_length 0).2, rfl⟩

/-! ## Any two, in any order -/

theorem Differ.symm {a b : List Label} (h : Differ a b) : Differ b a := by
  obtain ⟨i, l, m, hl, hm, hne⟩ := h
  exact ⟨i, m, l, hm, hl, hne.symm⟩

instance : Std.Symm Differ := ⟨fun _ _ => Differ.symm⟩

/-- Alternatives may be checked in any order. -/
theorem checkDisjoint_perm (l : Label) {as bs : List (List Label)} (h : as.Perm bs) :
    checkDisjoint l as = .ok () ↔ checkDisjoint l bs = .ok () := by
  rw [checkDisjoint_ok_iff, checkDisjoint_ok_iff]
  exact h.pairwise_iff Differ.symm

/-- Which of two ambiguities is found first does depend on the order. -/
example : let l (n : Nat) : Label := ⟨⟨"f", []⟩, [.literal ⟨n⟩]⟩
    disjointFrom 2 0 [[l 0], [l 0], [l 1, l 1], [l 1, l 1]] = .error 1 ∧
      disjointFrom 2 0 [[l 1, l 1], [l 1, l 1], [l 0], [l 0]] = .error 2 := ⟨rfl, rfl⟩

theorem pairwise_differ_iff_getElem? {as : List (List Label)} :
    as.Pairwise Differ ↔
      ∀ (i j : Nat) (a b : List Label), i ≠ j → as[i]? = some a → as[j]? = some b → Differ a b := by
  rw [List.pairwise_iff_getElem]
  constructor
  · intro h i j a b hne ha hb
    obtain ⟨hi, rfl⟩ := List.getElem?_eq_some_iff.1 ha
    obtain ⟨hj, rfl⟩ := List.getElem?_eq_some_iff.1 hb
    rcases Nat.lt_or_gt_of_ne hne with hlt | hlt
    · exact h i j hi hj hlt
    · exact (h j i hj hi hlt).symm
  · intro h i j hi hj hlt
    exact h i j _ _ (Nat.ne_of_lt hlt) (List.getElem?_eq_getElem hi) (List.getElem?_eq_getElem hj)

end ChanceProof
