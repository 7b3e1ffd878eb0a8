import ChanceProof.Proofs.Evaluation.Related

/-!
# Accounts of theses without unknowns

Without unknowns, what a thesis contributes does not depend on the theses before it: its executions
are fixed, and only whether they exclude those recorded before is a matter of the account. So a list
of such theses is accepted just when each has its executions and all that come together at one
label exclude each other (`expandAll_ok_iff`), and the account then holds what was gathered from
them (`Gathers`).
-/

namespace ChanceProof

def Referent.object? : Referent → Option Json
  | .object v => some v
  | .unknown _ => none

namespace Thesis

/-- The label of a thesis, in which unknowns have no part. -/
def label (t : Thesis) : PortableLabel :=
  ⟨t.claim.function, t.claim.parameters.filterMap Referent.object?,
    t.claim.result.filterMap Referent.object?⟩

/-- All values of the thesis are objects. -/
structure Grounded (t : Thesis) : Prop where
  parameters : ∀ r ∈ t.claim.parameters, ∃ v, r = .object v
  result : ∀ r ∈ t.claim.result, ∃ v, r = .object v
  mappings : ∀ m ∈ t.mappings, ∀ e ∈ m.entries, ∃ v, e.2 = .object v

/-- All mappings bind the same names. -/
def Uniform (t : Thesis) : Prop := ∀ m ∈ t.mappings, m.keys = t.names

end Thesis

theorem Action.run_mapM_of_fixed {σ α β : Type} {f : α → Action σ β} {g : α → Except Failure β}
    {xs : List α} {s : σ} (h : ∀ x ∈ xs, (f x).run s = (g x, s)) :
    (xs.mapM f).run s = (xs.mapM g, s) := by
  induction xs with
  | nil => rfl
  | cons x xs ih =>
      obtain ⟨hx, hxs⟩ := List.forall_mem_cons.1 h
      rw [List.mapM_cons, List.mapM_cons, Action.run_bind, hx]
      cases g x with
      | error e => rfl
      | ok y =>
          show (xs.mapM f >>= _).run s = _
          rw [Action.run_bind, ih hxs]
          cases xs.mapM g <;> rfl

namespace Account

variable {E : Json → Json → Prop} [DecidableRel E] {sketchOf : Expander}

/-! ## Fixed answers -/

/-- The operations answer the same whatever the account is, and leave it as it is. -/
def Fixed {α β : Type} (Q : α → β → Prop) (x : Action Account α) (y : Action Account β) : Prop :=
  ∃ u v, (∀ a, x.run a = (u, a)) ∧ (∀ a, y.run a = (v, a)) ∧ Accords Eq Q u v

theorem relates_fixed (E : Json → Json → Prop) [DecidableRel E] :
    Relates E (fun r r' => r = r' ∧ ∃ v, r = .object v) Fixed where
  pure h := ⟨.ok _, .ok _, fun _ => rfl, fun _ => rfl, h⟩
  throw f := ⟨.error f, .error f, fun _ => rfl, fun _ => rfl, rfl⟩
  bind h _ hf := by
    obtain ⟨u, v, hx, hy, huv⟩ := h
    cases u with
    | error e =>
        cases v with
        | error e' => exact ⟨.error e, .error e', fun a => Action.run_bind_of_error (hx a),
            fun a => Action.run_bind_of_error (hy a), huv⟩
        | ok v => exact huv.elim
    | ok u =>
        cases v with
        | error e' => exact huv.elim
        | ok v =>
            obtain ⟨u', v', hx', hy', h'⟩ := hf u v huv
            exact ⟨u', v', fun a => (Action.run_bind_of_ok (hx a)).trans (hx' a),
              fun a => (Action.run_bind_of_ok (hy a)).trans (hy' a), h'⟩
  object v := ⟨rfl, v, rfl⟩
  ground := by
    intro r r' h
    obtain ⟨rfl, v, rfl⟩ := h
    exact ⟨.ok v, .ok v, fun _ => rfl, fun _ => rfl, rfl⟩
  unify := by
    intro p p' m m' hp hm
    obtain ⟨rfl, v, rfl⟩ := hp
    obtain ⟨rfl, w, rfl⟩ := hm
    have hrun : ∀ a, (unify E (.object v) (.object w)).run a =
        (if E v w then .ok () else .error conflict, a) := by
      intro a
      unfold unify
      rw [Action.run_bind_of_ok (Action.run_get a)]
      simp only [resolve]
      split <;> rfl
    refine ⟨_, _, hrun, hrun, ?_⟩
    split
    · trivial
    · rfl

/-! ## Executions -/

/-- The execution that a mapping describes. -/
def execution (E : Json → Json → Prop) [DecidableRel E] (result : List Referent) (sk : Sketch)
    (m : Dictionary Referent) : Except Failure (List PortableLabel) :=
  ((alternative E result sk m).run .start).1

/-- The executions that the mappings of a thesis describe. -/
def described (sketchOf : Expander) (E : Json → Json → Prop) [DecidableRel E] (t : Thesis) :
    Except Failure (List (List PortableLabel)) := do
  let sk ← sketchOf t.claim.function t.label.parameters
  checkNames t sk
  t.mappings.mapM (execution E t.claim.result sk)

/-- The executions of a thesis. A coin is its own. -/
def executions (sketchOf : Expander) (E : Json → Json → Prop) [DecidableRel E] (t : Thesis) :
    Except Failure (List (List PortableLabel)) :=
  if t.claim.function = Call.coinFunction then
    if t.mappings.isEmpty then .ok [[t.label]] else .error unproven
  else described sketchOf E t

theorem run_groundAll {rs : List Referent} (h : ∀ r ∈ rs, ∃ v, r = .object v) (a : Account) :
    (rs.mapM ground).run a = (.ok (rs.filterMap Referent.object?), a) := by
  induction rs with
  | nil => rfl
  | cons r rs ih =>
      obtain ⟨⟨v, rfl⟩, hrs⟩ := List.forall_mem_cons.1 h
      rw [List.mapM_cons, Action.run_bind_of_ok (show (ground (.object v)).run a = (.ok v, a) from
        rfl), Action.run_bind_of_ok (ih hrs)]
      rfl

theorem run_alternative {result : List Referent} (hresult : ∀ r ∈ result, ∃ v, r = .object v)
    (sk : Sketch) {m : Dictionary Referent} (hm : ∀ e ∈ m.entries, ∃ v, e.2 = .object v)
    (a : Account) : (alternative E result sk m).run a = (execution E result sk m, a) := by
  obtain ⟨u, -, hu, -, -⟩ := (relates_fixed E).alternative
    (List.forall₂_same.2 fun r hr => ⟨rfl, hresult r hr⟩) sk
    (show m.Related (fun r r' => r = r' ∧ ∃ v, r = .object v) m from
      List.forall₂_same.2 fun e he => ⟨rfl, rfl, hm e he⟩)
  rw [execution, hu, hu]

theorem run_alternatives {t : Thesis} (ht : t.Grounded) (a : Account) :
    (alternatives sketchOf E t t.label.parameters).run a = (described sketchOf E t, a) := by
  unfold alternatives described
  rw [Action.run_bind, Action.run_liftM]
  cases sketchOf t.claim.function t.label.parameters with
  | error f => rfl
  | ok sk =>
      show ((liftM (checkNames t sk) : Action Account Unit) >>= _).run a = _
      rw [Action.run_bind, Action.run_liftM]
      show _ = (checkNames t sk >>= _, a)
      cases checkNames t sk with
      | error f => rfl
      | ok _ =>
          exact Action.run_mapM_of_fixed fun m hm =>
            run_alternative ht.result sk (ht.mappings m hm) a

/-- The account with executions recorded for a label. -/
def withThesis (a : Account) (l : PortableLabel) (as : List (List PortableLabel)) : Account :=
  let b := (a.withEntry l).setAlternatives l (a.alternativesOf l ++ as)
  { b with proved := b.proved ++ [l] }

theorem run_record {t : Thesis} (ht : t.Grounded) (as : PortableLabel → List (List PortableLabel))
    (a : Account) : (record t.claim t.label.parameters as).run a =
      if (a.alternativesOf t.label ++ as t.label).Pairwise Apart then
        (.ok t.label, a.withThesis t.label (as t.label))
      else (.error ambiguous, a.withEntry t.label) := by
  unfold record
  rw [Action.run_bind_of_ok (run_groundAll ht.result a)]
  show (add t.label (as t.label) >>= _).run a = _
  rw [Action.run_bind, run_add]
  by_cases hapart : (a.alternativesOf t.label ++ as t.label).Pairwise Apart
  · rw [if_pos hapart, if_pos hapart]
    rfl
  · rw [if_neg hapart, if_neg hapart]

/-- Whatever the account is, a thesis without unknowns has the same executions. They are recorded
unless they do not exclude those recorded before. -/
theorem run_expand {t : Thesis} (ht : t.Grounded) (a : Account) :
    (expand sketchOf E t).run a = match executions sketchOf E t with
      | .error f => (.error f, a)
      | .ok as =>
        if (a.alternativesOf t.label ++ as).Pairwise Apart then
          (.ok t.label, a.withThesis t.label as)
        else (.error ambiguous, a.withEntry t.label) := by
  have hparameters : (t.claim.parameters.mapM ground).run a = (.ok t.label.parameters, a) :=
    run_groundAll ht.parameters a
  unfold expand executions
  rw [Action.run_bind_of_ok hparameters]
  by_cases hcoin : t.claim.function = Call.coinFunction
  · rw [if_pos hcoin, if_pos hcoin]
    cases t.mappings.isEmpty with
    | false => rfl
    | true => exact run_record ht (fun l => [[l]]) a
  · rw [if_neg hcoin, if_neg hcoin, Action.run_bind, run_alternatives ht]
    cases described sketchOf E t with
    | error f => rfl
    | ok as => exact run_record ht (fun _ => as) a

/-! ## What is recorded -/

def labels (a : Account) : List PortableLabel := a.entries.map (·.label)

theorem number?_isNone_iff {a : Account} {l : PortableLabel} :
    (a.number? l).isNone = true ↔ l ∉ a.labels := by
  rw [number?, Option.isNone_iff_eq_none, List.findIdx?_eq_none_iff, labels]
  simp [eq_comm]

theorem labels_withEntry (a : Account) (l : PortableLabel) :
    (a.withEntry l).labels = if l ∈ a.labels then a.labels else a.labels ++ [l] := by
  rw [labels, entries_withEntry]
  by_cases hl : l ∈ a.labels
  · rw [if_pos hl, if_neg fun h => number?_isNone_iff.1 h hl]
    rfl
  · rw [if_neg hl, if_pos (number?_isNone_iff.2 hl), List.map_append]
    rfl

theorem labels_setAlternatives (a : Account) (l : PortableLabel)
    (as : List (List PortableLabel)) : (a.setAlternatives l as).labels = a.labels := by
  unfold labels setAlternatives
  rw [List.map_map]
  refine List.map_congr_left fun e _ => ?_
  rw [Function.comp_apply]
  split <;> rfl

theorem labels_withThesis (a : Account) (l : PortableLabel) (as : List (List PortableLabel)) :
    (a.withThesis l as).labels = if l ∈ a.labels then a.labels else a.labels ++ [l] :=
  (labels_setAlternatives _ l _).trans (labels_withEntry a l)

theorem alternativesOf_withEntry (a : Account) (l l' : PortableLabel) :
    (a.withEntry l).alternativesOf l' = a.alternativesOf l' := by
  unfold alternativesOf
  rw [entries_withEntry]
  split
  · rw [List.find?_append]
    cases a.entries.find? (·.label = l') with
    | some e => rfl
    | none =>
        by_cases heq : l = l'
        · simp [heq]
        · simp [heq]
  · rfl

theorem alternativesOf_setAlternatives {a : Account} {l : PortableLabel} (hl : l ∈ a.labels)
    (l' : PortableLabel) (as : List (List PortableLabel)) :
    (a.setAlternatives l as).alternativesOf l' = if l' = l then as else a.alternativesOf l' := by
  have hkeep : ∀ e : Entry,
      (if e.label = l then { e with alternatives := as } else e).label = e.label := by
    intro e
    split <;> rfl
  unfold alternativesOf setAlternatives
  simp only [List.find?_map, Function.comp_def, hkeep]
  cases hfound : a.entries.find? (·.label = l') with
  | none =>
      have hne : l' ≠ l := by
        rintro rfl
        obtain ⟨e, he, heq⟩ := List.mem_map.1 hl
        exact absurd heq (by simpa using List.find?_eq_none.1 hfound e he)
      rw [if_neg hne]
      rfl
  | some e =>
      have hl' : e.label = l' := by simpa using List.find?_some hfound
      simp only [Option.map_some, Option.getD_some, hl']
      split <;> rfl

theorem alternativesOf_withThesis (a : Account) (l l' : PortableLabel)
    (as : List (List PortableLabel)) : (a.withThesis l as).alternativesOf l' =
      a.alternativesOf l' ++ if l' = l then as else [] := by
  have hmem : l ∈ (a.withEntry l).labels := by
    rw [labels_withEntry]
    split
    · assumption
    · exact List.mem_append_right _ List.mem_cons_self
  show ((a.withEntry l).setAlternatives l _).alternativesOf l' = _
  rw [alternativesOf_setAlternatives hmem, alternativesOf_withEntry]
  split
  · next heq => rw [heq]
  · exact (List.append_nil _).symm

/-! ## Lists of theses -/

/-- The executions that theses with this label contribute. -/
def gathered (sketchOf : Expander) (E : Json → Json → Prop) [DecidableRel E] (ts : List Thesis)
    (l : PortableLabel) : List (List PortableLabel) :=
  (ts.filter (·.label = l)).flatMap fun t => (executions sketchOf E t).toOption.getD []

theorem gathered_append (ts ts' : List Thesis) (l : PortableLabel) :
    gathered sketchOf E (ts ++ ts') l = gathered sketchOf E ts l ++ gathered sketchOf E ts' l := by
  rw [gathered, List.filter_append, List.flatMap_append]
  rfl

theorem gathered_cons {t : Thesis} {as : List (List PortableLabel)}
    (h : executions sketchOf E t = .ok as) (ts : List Thesis) (l : PortableLabel) :
    gathered sketchOf E (t :: ts) l = (if l = t.label then as else [])
      ++ gathered sketchOf E ts l := by
  unfold gathered
  by_cases hl : t.label = l
  · rw [List.filter_cons_of_pos (by simpa using hl), List.flatMap_cons, h, if_pos hl.symm]
    rfl
  · rw [List.filter_cons_of_neg (by simpa using hl), if_neg (Ne.symm hl), List.nil_append]

/-- What an account holds when all these theses were accepted. -/
structure Gathers (sketchOf : Expander) (E : Json → Json → Prop) [DecidableRel E]
    (ts : List Thesis) (a a' : Account) : Prop where
  labels : ∀ l, l ∈ a'.labels ↔ l ∈ a.labels ∨ l ∈ ts.map Thesis.label
  distinct : a.labels.Nodup → a'.labels.Nodup
  alternatives : ∀ l, a'.alternativesOf l = a.alternativesOf l ++ gathered sketchOf E ts l
  proved : a'.proved = a.proved ++ ts.map Thesis.label

theorem Gathers.nil (a : Account) : Gathers sketchOf E [] a a :=
  ⟨fun l => by simp, id, fun l => by simp [gathered], by simp⟩

theorem Gathers.cons {t : Thesis} {as : List (List PortableLabel)}
    (h : executions sketchOf E t = .ok as) {ts : List Thesis} {a a' : Account}
    (hts : Gathers sketchOf E ts (a.withThesis t.label as) a') :
    Gathers sketchOf E (t :: ts) a a' := by
  refine ⟨fun l => ?_, fun hd => hts.distinct ?_, fun l => ?_, ?_⟩
  · rw [hts.labels, labels_withThesis, List.map_cons, List.mem_cons]
    split
    · next hl =>
        constructor
        · exact Or.imp_right .inr
        · intro h
          rcases h with h | rfl | h
          · exact .inl h
          · exact .inl hl
          · exact .inr h
    · rw [List.mem_append, List.mem_singleton, or_assoc]
  · rw [labels_withThesis]
    split
    · exact hd
    · next hl =>
        refine List.nodup_append.2 ⟨hd, List.pairwise_singleton _ _, fun l hl' l' hl'' heq => hl ?_⟩
        rw [← List.mem_singleton.1 hl'', ← heq]
        exact hl'
  · rw [hts.alternatives, alternativesOf_withThesis, gathered_cons h, List.append_assoc]
  · rw [hts.proved]
    show ((a.withEntry t.label).setAlternatives t.label _).proved ++ [t.label] ++ _ = _
    rw [setAlternatives, proved_withEntry, List.append_assoc]
    rfl

theorem run_expandAll_cons_ok {t : Thesis} (ht : t.Grounded) {ts : List Thesis} {a a' : Account} :
    (expandAll sketchOf E (t :: ts)).run a = (.ok (), a') ↔
      ∃ as, executions sketchOf E t = .ok as ∧ (a.alternativesOf t.label ++ as).Pairwise Apart ∧
        (expandAll sketchOf E ts).run (a.withThesis t.label as) = (.ok (), a') := by
  have hexpand : (expand sketchOf E t).run a = _ := run_expand ht a
  constructor
  · intro h
    obtain ⟨l, a₁, hrun, hts⟩ := Action.run_forM_cons_ok.1 h
    rw [hrun] at hexpand
    split at hexpand
    · cases hexpand
    · next as has =>
        split at hexpand
        · next hapart =>
            cases hexpand
            exact ⟨as, has, hapart, hts⟩
        · cases hexpand
  · intro h
    obtain ⟨as, has, hapart, hts⟩ := h
    rw [has] at hexpand
    simp only [if_pos hapart] at hexpand
    exact Action.run_forM_cons_ok.2 ⟨_, _, hexpand, hts⟩

theorem gathers_of_run {ts : List Thesis} (hts : ∀ t ∈ ts, t.Grounded) {a a' : Account}
    (h : (expandAll sketchOf E ts).run a = (.ok (), a')) : Gathers sketchOf E ts a a' := by
  induction ts generalizing a with
  | nil =>
      obtain ⟨-, rfl⟩ := Action.run_pure_ok.1 h
      exact .nil a
  | cons t ts ih =>
      obtain ⟨ht, hts⟩ := List.forall_mem_cons.1 hts
      obtain ⟨as, has, -, hrest⟩ := (run_expandAll_cons_ok ht).1 h
      exact (ih hts hrest).cons has

/-- Theses without unknowns are accepted just when each has its executions and all that come
together at one label exclude each other. -/
theorem expandAll_ok_iff {ts : List Thesis} (hts : ∀ t ∈ ts, t.Grounded) {a : Account}
    (ha : ∀ l, (a.alternativesOf l).Pairwise Apart) :
    (∃ a', (expandAll sketchOf E ts).run a = (.ok (), a')) ↔
      (∀ t ∈ ts, ∃ as, executions sketchOf E t = .ok as) ∧
        ∀ l, (a.alternativesOf l ++ gathered sketchOf E ts l).Pairwise Apart := by
  induction ts generalizing a with
  | nil =>
      refine ⟨fun _ => ⟨fun t ht => absurd ht List.not_mem_nil, fun l => ?_⟩, fun _ => ⟨a, rfl⟩⟩
      rw [show gathered sketchOf E [] l = [] from rfl, List.append_nil]
      exact ha l
  | cons t ts ih =>
      obtain ⟨ht, hts⟩ := List.forall_mem_cons.1 hts
      simp only [run_expandAll_cons_ok ht]
      -- What the first thesis adds is a part of what is there in the end.
      have hwith : ∀ {as : List (List PortableLabel)},
          (a.alternativesOf t.label ++ as).Pairwise Apart →
          ∀ l, ((a.withThesis t.label as).alternativesOf l).Pairwise Apart := by
        intro as hapart l
        rw [alternativesOf_withThesis]
        split
        · next heq => exact heq ▸ hapart
        · rw [List.append_nil]
          exact ha l
      have hsplit : ∀ {as : List (List PortableLabel)}, executions sketchOf E t = .ok as → ∀ l,
          (a.withThesis t.label as).alternativesOf l ++ gathered sketchOf E ts l
            = a.alternativesOf l ++ gathered sketchOf E (t :: ts) l := by
        intro as has l
        rw [alternativesOf_withThesis, gathered_cons has, List.append_assoc]
      constructor
      · intro h
        obtain ⟨a', as, has, hapart, hrun⟩ := h
        obtain ⟨hsound, hall⟩ := (ih hts (hwith hapart)).1 ⟨a', hrun⟩
        exact ⟨List.forall_mem_cons.2 ⟨⟨as, has⟩, hsound⟩, fun l => hsplit has l ▸ hall l⟩
      · intro h
        obtain ⟨hsound, hall⟩ := h
        obtain ⟨⟨as, has⟩, hsound⟩ := List.forall_mem_cons.1 hsound
        have hapart : (a.alternativesOf t.label ++ as).Pairwise Apart := by
          refine (hall t.label).sublist ?_
          rw [gathered_cons has, if_pos rfl, ← List.append_assoc]
          exact List.sublist_append_left _ _
        obtain ⟨a', hrun⟩ := (ih hts (hwith hapart)).2
          ⟨hsound, fun l => (hsplit has l).symm ▸ hall l⟩
        exact ⟨a', as, has, hapart, hrun⟩

end Account

end ChanceProof
