import ChanceProof.Proofs.Solving.Budget

/-!
# The evaluations of a run

What a solver has found in the end says little about what it did on the way. Its trace lists every
evaluation of a label in order, with the values before and after it, also when the solver gives up.
Each evaluation takes up the values where the one before it left them, and the last one leaves the
solution (`linked_trace`), so what every evaluation keeps holds at all times.

Each component has its turn: its evaluations are in the trace, and what it reads and what it has
found do not change any more (`turns`). The trace is no longer than the run: it lists the labels of
each component as often as the solver counts a pass over it (`labels_trace`).
-/

namespace ChanceProof.System

variable {α : Type}

/-- One evaluation of a label, with the values before and after it. -/
structure Evaluation (α : Type) where
  label : Nat
  before : Array α
  after : Array α
deriving DecidableEq, Repr

/-- Evaluations of labels one after another, each of which does this to the values. -/
def evaluations (step : Array α → Nat → Array α) : Array α → List Nat → List (Evaluation α)
  | _, [] => []
  | values, i :: rest => ⟨i, values, step values i⟩ :: evaluations step (step values i) rest

section

variable (A : Arithmetic α) (system : System α)

/-- The evaluation of a label outside recursion. -/
def once (values : Array α) (i : Nat) : Array α := evaluate A system values [i]

/-- The evaluation of a label in a pass. -/
def grow (values : Array α) (i : Nat) : Array α := (pass A system true values [i]).1

def iterateTrace (component : List Nat) (budget : Option Nat) :
    (limit passes : Nat) → Array α → List (Evaluation α)
  | 0, _, _ => []
  | limit + 1, passes, values =>
    if budget.any (· ≤ passes) then []
    else evaluations (grow A system) values component ++
      match pass A system true values component with
      | (_, true) => []
      | (values, false) => iterateTrace component budget limit (passes + 1) values

def componentTrace (g : Graph) (budget : Option Nat) (limit : Nat) (values : Array α)
    (c : List Nat) : List (Evaluation α) :=
  if g.isRecursive c then iterateTrace A system c budget limit 0 values
  else evaluations (once A system) values c

/-- The evaluations of components one after another, as long as they are solved. -/
def componentsTrace (g : Graph) (budget : Option Nat) (limit : Nat) :
    (passes : Nat) → Array α → List (List Nat) → List (Evaluation α)
  | _, _, [] => []
  | passes, values, c :: rest =>
    componentTrace A system g budget limit values c ++
      match solveComponents A system g budget limit passes values [c] with
      | some (.ok (values, passes)) => componentsTrace g budget limit passes values rest
      | _ => []

/-- All evaluations of a run of the solver. -/
def trace (g : Graph) (components : List (List Nat)) (budget : Option Nat) (limit : Nat) :
    List (Evaluation α) :=
  componentsTrace A system g budget limit 0 (Array.replicate system.size A.impossible)
    components.reverse

/-- The evaluations lead from the first values to the last ones, each from where the one before it
ended. -/
def Linked : Array α → List (Evaluation α) → Array α → Prop
  | values, [], last => last = values
  | values, e :: log, last => e.before = values ∧
      (e.after = once A system values e.label ∨ e.after = grow A system values e.label) ∧
      Linked e.after log last

end

variable {A : Arithmetic α} {system : System α}

theorem once_eq (values : Array α) (i : Nat) :
    once A system values i = values.setIfInBounds i (newValue A system values i) := rfl

theorem foldl_once (values : Array α) (vs : List Nat) :
    vs.foldl (once A system) values = evaluate A system values vs := rfl

theorem foldl_grow (settled : Bool) (values : Array α) (vs : List Nat) :
    vs.foldl (grow A system) values = (pass A system settled values vs).1 := by
  induction vs generalizing settled values with
  | nil => rfl
  | cons i vs ih => exact ih _ _

/-! ## Every evaluation goes on from the one before -/

theorem Linked.append {u v w : Array α} {log log' : List (Evaluation α)}
    (h : Linked A system u log v) (h' : Linked A system v log' w) :
    Linked A system u (log ++ log') w := by
  induction log generalizing u with
  | nil =>
      obtain rfl : v = u := h
      exact h'
  | cons e log ih => exact ⟨h.1, h.2.1, ih h.2.2⟩

/-- What both kinds of evaluation keep holds at all times. -/
theorem Linked.invariant {P : Array α → Prop}
    (honce : ∀ values i, P values → P (once A system values i))
    (hgrow : ∀ values i, P values → P (grow A system values i))
    {u w : Array α} {log : List (Evaluation α)} (h : Linked A system u log w) (hu : P u) :
    (∀ e ∈ log, P e.before ∧ P e.after ∧
      (e.after = once A system e.before e.label ∨ e.after = grow A system e.before e.label)) ∧
      P w := by
  induction log generalizing u with
  | nil =>
      obtain rfl : w = u := h
      exact ⟨fun _ he => absurd he List.not_mem_nil, hu⟩
  | cons e log ih =>
      obtain ⟨rfl, hstep, hrest⟩ := h
      have hafter : P e.after := by
        rcases hstep with heq | heq
        · exact heq ▸ honce _ _ hu
        · exact heq ▸ hgrow _ _ hu
      obtain ⟨hall, hw⟩ := ih hrest hafter
      exact ⟨List.forall_mem_cons.2 ⟨⟨hu, hafter, hstep⟩, hall⟩, hw⟩

theorem linked_evaluations {step : Array α → Nat → Array α}
    (hstep : step = once A system ∨ step = grow A system) (values : Array α) (vs : List Nat) :
    Linked A system values (evaluations step values vs) (vs.foldl step values) := by
  induction vs generalizing values with
  | nil => rfl
  | cons i vs ih =>
      refine ⟨rfl, ?_, ih _⟩
      rcases hstep with rfl | rfl
      · exact .inl rfl
      · exact .inr rfl

section

variable (A system)

theorem linked_iterateTrace (c : List Nat) (budget : Option Nat) (limit passes : Nat)
    (values : Array α) :
    ∃ last, Linked A system values (iterateTrace A system c budget limit passes values) last ∧
      ∀ final n, iterate A system c budget limit passes values = some (.ok (final, n)) →
        final = last := by
  induction limit generalizing passes values with
  | zero => exact ⟨values, rfl, fun _ _ h => by cases h⟩
  | succ limit ih =>
      rw [iterateTrace, iterate]
      split
      · exact ⟨values, rfl, fun _ _ h => by cases h⟩
      · have hpass : Linked A system values (evaluations (grow A system) values c)
            (pass A system true values c).1 := by
          rw [← foldl_grow]
          exact linked_evaluations (.inr rfl) values c
        rcases hafter : pass A system true values c with ⟨after, _ | _⟩ <;> rw [hafter] at hpass
        · obtain ⟨last, hlinked, hlast⟩ := ih (passes + 1) after
          exact ⟨last, hpass.append hlinked, hlast⟩
        · exact ⟨after, hpass.append rfl, fun _ _ h => by cases h; rfl⟩

variable (g : Graph) (budget : Option Nat) (limit : Nat)

theorem linked_componentTrace (passes : Nat) (values : Array α) (c : List Nat) :
    ∃ last, Linked A system values (componentTrace A system g budget limit values c) last ∧
      ∀ final n, solveComponents A system g budget limit passes values [c]
        = some (.ok (final, n)) → final = last := by
  rw [componentTrace, solveComponents]
  split
  · obtain ⟨last, hlinked, hlast⟩ := linked_iterateTrace A system c budget limit 0 values
    refine ⟨last, hlinked, fun final n h => ?_⟩
    split at h
    · cases h
    · cases h
    · next heq =>
        cases h
        exact hlast _ _ heq
  · refine ⟨_, linked_evaluations (.inl rfl) values c, fun final n h => ?_⟩
    cases h
    exact (foldl_once values c).symm

theorem linked_componentsTrace (passes : Nat) (values : Array α) (cs : List (List Nat)) :
    ∃ last, Linked A system values (componentsTrace A system g budget limit passes values cs) last ∧
      ∀ final n, solveComponents A system g budget limit passes values cs
        = some (.ok (final, n)) → final = last := by
  induction cs generalizing passes values with
  | nil => exact ⟨values, rfl, fun _ _ h => by cases h; rfl⟩
  | cons c cs ih =>
      obtain ⟨last, hlinked, hlast⟩ := linked_componentTrace A system g budget limit passes values c
      rw [componentsTrace, show c :: cs = [c] ++ cs from rfl, solveComponents_append]
      rcases hc : solveComponents A system g budget limit passes values [c] with
        _ | f | ⟨before, passes'⟩
      · exact ⟨last, hlinked.append rfl, fun _ _ h => by cases h⟩
      · exact ⟨last, hlinked.append rfl, fun _ _ h => by cases h⟩
      · obtain rfl := hlast _ _ hc
        obtain ⟨last', hlinked', hlast'⟩ := ih passes' before
        exact ⟨last', hlinked.append hlinked', hlast'⟩

/-- The trace leads from impossible labels to the solution, if there is one. -/
theorem linked_trace (components : List (List Nat)) :
    ∃ last, Linked A system (Array.replicate system.size A.impossible)
        (trace A system g components budget limit) last ∧
      ∀ final n, solve A system g components budget limit = some (.ok (final, n)) →
        final = last :=
  linked_componentsTrace A system g budget limit 0 _ _

end

/-! ## Every component has its turn -/

variable {g : Graph} {budget : Option Nat} {limit : Nat}

theorem mem_evaluations {step : Array α → Nat → Array α} {vs : List Nat} {c : List Nat}
    (hstep : ∀ values, ∀ i ∈ c, SameOutside c values (step values i)) (hvs : ∀ i ∈ vs, i ∈ c)
    {values : Array α} {e : Evaluation α} (he : e ∈ evaluations step values vs) :
    e.label ∈ c ∧ SameOutside c values e.before := by
  induction vs generalizing values with
  | nil => exact absurd he List.not_mem_nil
  | cons i vs ih =>
      obtain ⟨hi, hvs⟩ := List.forall_mem_cons.1 hvs
      rcases List.mem_cons.1 he with rfl | he
      · exact ⟨hi, .refl c values⟩
      · obtain ⟨hlabel, hsame⟩ := ih hvs he
        exact ⟨hlabel, (hstep values i hi).trans hsame⟩

theorem mem_iterateTrace {c : List Nat} {budget : Option Nat} {limit passes : Nat}
    {values : Array α} {e : Evaluation α}
    (he : e ∈ iterateTrace A system c budget limit passes values) :
    e.label ∈ c ∧ SameOutside c values e.before := by
  induction limit generalizing passes values with
  | zero => exact absurd he List.not_mem_nil
  | succ limit ih =>
      rw [iterateTrace] at he
      split at he
      · exact absurd he List.not_mem_nil
      rcases List.mem_append.1 he with he | he
      · exact mem_evaluations (fun values i hi => sameOutside_set values hi _) (fun _ h => h) he
      · split at he
        · exact absurd he List.not_mem_nil
        · next hpass =>
            obtain ⟨hlabel, hsame⟩ := ih he
            have hpassed : SameOutside c values (pass A system true values c).1 :=
              sameOutside_pass true values c
            rw [hpass] at hpassed
            exact ⟨hlabel, hpassed.trans hsame⟩

/-- In its turn a component is evaluated and nothing else. -/
theorem mem_componentTrace {values : Array α} {c : List Nat} {e : Evaluation α}
    (he : e ∈ componentTrace A system g budget limit values c) :
    e.label ∈ c ∧ SameOutside c values e.before := by
  rw [componentTrace] at he
  split at he
  · exact mem_iterateTrace he
  · exact mem_evaluations (fun values i hi => sameOutside_set values hi _) (fun _ h => h) he

/-- The turn of a component in a run: it leads from the values that were reached before to those
after it, and what the component reads then does not change any more. -/
structure Turn (A : Arithmetic α) (system : System α) (g : Graph) (budget : Option Nat)
    (limit : Nat) (start : Array α) (log : List (Evaluation α)) (final : Array α) (c : List Nat)
    (before after : Array α) : Prop where
  reached : ∃ earlier, Linked A system start earlier before
  solves : ∃ passes n, solveComponents A system g budget limit passes before [c]
    = some (.ok (after, n))
  evaluations : log.filter (·.label ∈ c) = componentTrace A system g budget limit before c
  found : ∀ v ∈ c, final[v]? = after[v]?
  reads : ∀ v ∈ c, ∀ w, Graph.Leads g.successors v w → final[w]? = after[w]?

theorem componentsTrace_snoc {passes k : Nat} {values before : Array α} {cs : List (List Nat)}
    {c : List Nat}
    (h : solveComponents A system g budget limit passes values cs = some (.ok (before, k))) :
    componentsTrace A system g budget limit passes values (cs ++ [c])
      = componentsTrace A system g budget limit passes values cs
        ++ componentTrace A system g budget limit before c := by
  induction cs generalizing passes values with
  | nil =>
      cases h
      rw [List.nil_append, componentsTrace, componentsTrace, List.nil_append]
      split
      · exact List.append_nil _
      · exact List.append_nil _
  | cons d cs ih =>
      rw [show d :: cs = [d] ++ cs from rfl, solveComponents_append] at h
      rw [List.cons_append, componentsTrace, componentsTrace, List.append_assoc]
      rcases hd : solveComponents A system g budget limit passes values [d] with
        _ | f | ⟨between, passes'⟩ <;> rw [hd] at h
      · cases h
      · cases h
      · exact congrArg (componentTrace A system g budget limit values d ++ ·) (ih h)

/-- The component that is solved last has its turn then. -/
theorem turn_last {passes k n : Nat} {values before final : Array α} {cs : List (List Nat)}
    {c : List Nat}
    (hbefore : solveComponents A system g budget limit passes values cs = some (.ok (before, k)))
    (hlast : solveComponents A system g budget limit k before [c] = some (.ok (final, n)))
    (hothers : ∀ e ∈ componentsTrace A system g budget limit passes values cs, e.label ∉ c) :
    Turn A system g budget limit values
      (componentsTrace A system g budget limit passes values cs
        ++ componentTrace A system g budget limit before c) final c before final := by
  obtain ⟨last, hlinked, heq⟩ := linked_componentsTrace A system g budget limit passes values cs
  obtain rfl := heq before k hbefore
  refine ⟨⟨_, hlinked⟩, ⟨k, n, hlast⟩, ?_, fun _ _ => rfl, fun _ _ _ _ => rfl⟩
  rw [List.filter_append, List.filter_eq_nil_iff.2 fun e he hmem =>
      hothers e he (of_decide_eq_true hmem),
    List.filter_eq_self.2 fun e he => decide_eq_true (mem_componentTrace he).1, List.nil_append]

/-- A turn stays what it was when other components have theirs, as long as they leave alone what the
component has found and read. -/
theorem Turn.append {values final final' before after : Array α} {log later : List (Evaluation α)}
    {d : List Nat} (h : Turn A system g budget limit values log final d before after)
    (hothers : ∀ e ∈ later, e.label ∉ d) (hfound : ∀ v ∈ d, final'[v]? = final[v]?)
    (hreads : ∀ v ∈ d, ∀ w, Graph.Leads g.successors v w → final'[w]? = final[w]?) :
    Turn A system g budget limit values (log ++ later) final' d before after := by
  refine ⟨h.reached, h.solves, ?_, fun v hv => ?_, fun v hv w hlead => ?_⟩
  · rw [List.filter_append, h.evaluations, List.filter_eq_nil_iff.2 fun e he hmem =>
      hothers e he (of_decide_eq_true hmem), List.append_nil]
  · rw [hfound v hv, h.found v hv]
  · rw [hreads v hv w hlead, h.reads v hv w hlead]

/-- In a run over components that lead to nothing but those solved before, every component has its
turn, and there are no other evaluations. -/
theorem turns {passes n : Nat} {values final : Array α} {cs : List (List Nat)}
    (hcs : g.Stacked cs)
    (h : solveComponents A system g budget limit passes values cs.reverse
      = some (.ok (final, n))) {log : List (Evaluation α)}
    (hlog : componentsTrace A system g budget limit passes values cs.reverse = log) :
    (∀ e ∈ log, e.label ∈ cs.flatten) ∧
      ∀ c ∈ cs, ∃ before after,
        Turn A system g budget limit values log final c before after := by
  induction cs generalizing final n log with
  | nil =>
      subst hlog
      exact ⟨fun _ he => absurd he List.not_mem_nil, fun _ hc => absurd hc List.not_mem_nil⟩
  | cons c cs ih =>
      obtain ⟨hfresh, hleads, hrest⟩ := hcs
      rw [List.reverse_cons] at h hlog
      obtain ⟨before, k, hbefore, hlast⟩ := solveComponents_snoc h
      obtain ⟨hsame, -⟩ := solveComponents_single hlast
      rw [componentsTrace_snoc hbefore] at hlog
      obtain ⟨hlabels, hturns⟩ := ih hrest hbefore rfl
      have hmine : ∀ e ∈ componentTrace A system g budget limit before c, e.label ∈ c :=
        fun e he => (mem_componentTrace he).1
      subst hlog
      refine ⟨fun e he => ?_, fun d hd => ?_⟩
      · rw [List.flatten_cons, List.mem_append]
        rcases List.mem_append.1 he with he | he
        · exact .inr (hlabels e he)
        · exact .inl (hmine e he)
      rcases List.mem_cons.1 hd with rfl | hd
      · exact ⟨before, final, turn_last hbefore hlast fun e he hmem =>
          hfresh e.label hmem (hlabels e he)⟩
      · obtain ⟨before', after', hturn⟩ := hturns d hd
        have hmem : ∀ v ∈ d, v ∈ cs.flatten := fun v hv => List.mem_flatten.2 ⟨d, hd, hv⟩
        have hkept : ∀ w ∈ cs.flatten, final[w]? = before[w]? := fun w hw =>
          hsame.same w fun hwc => hfresh w hwc hw
        exact ⟨before', after', hturn.append
          (fun e he hmemd => hfresh e.label (hmine e he) (hmem e.label hmemd))
          (fun v hv => hkept v (hmem v hv))
          fun v hv w hlead => hkept w (hrest.leads_mem (hmem v hv) hlead)⟩

/-- What a label reads from other components when it is evaluated is what is found in the end. -/
theorem Turn.final {log : List (Evaluation α)} {start final before after : Array α} {c : List Nat}
    (h : Turn A system g budget limit start log final c before after) {e : Evaluation α}
    (he : e ∈ log) (hc : e.label ∈ c) {w : Nat} (hw : w ∉ c)
    (hlead : Graph.Leads g.successors e.label w) : e.before[w]? = final[w]? := by
  have hmem : e ∈ componentTrace A system g budget limit before c := by
    rw [← h.evaluations]
    exact List.mem_filter.2 ⟨he, decide_eq_true hc⟩
  obtain ⟨passes, n, hsolves⟩ := h.solves
  rw [(mem_componentTrace hmem).2.same w hw, h.reads _ hc w hlead,
    (solveComponents_single hsolves).1.same w hw]

/-! ## As many evaluations as passes are counted -/

/-- The labels of components one after another, those of each component as often as it is passed. -/
def passedLabels (turns : List (List Nat × Nat)) : List Nat :=
  turns.flatMap fun t => (List.replicate t.2 t.1).flatten

/-- A label of different components is passed as often as its component. -/
theorem count_passedLabels {turns : List (List Nat × Nat)}
    (hnodup : (turns.map Prod.fst).flatten.Nodup) {t : List Nat × Nat} (ht : t ∈ turns) {v : Nat}
    (hv : v ∈ t.1) : (passedLabels turns).count v = t.2 := by
  have hcount : ∀ turns : List (List Nat × Nat),
      (passedLabels turns).count v = (turns.map fun t => t.2 * t.1.count v).sum := by
    intro turns
    rw [passedLabels, List.count_flatMap]
    refine congrArg List.sum (List.map_congr_left fun t _ => ?_)
    rw [Function.comp_apply, List.count_flatten, List.map_replicate, List.sum_replicate,
      smul_eq_mul]
  rw [hcount]
  induction turns with
  | nil => exact absurd ht List.not_mem_nil
  | cons u turns ih =>
      rw [List.map_cons, List.flatten_cons, List.nodup_append] at hnodup
      obtain ⟨hu, hturns, hdisjoint⟩ := hnodup
      rw [List.map_cons, List.sum_cons]
      rcases List.mem_cons.1 ht with rfl | ht
      · rw [List.count_eq_one_of_mem hu hv, Nat.mul_one, List.sum_eq_zero, Nat.add_zero]
        intro x hx
        obtain ⟨t', ht', rfl⟩ := List.mem_map.1 hx
        have hnot : v ∉ t'.1 := fun hv' => hdisjoint v hv v
          (List.mem_flatten.2 ⟨t'.1, List.mem_map_of_mem ht', hv'⟩) rfl
        rw [List.count_eq_zero.2 hnot, Nat.mul_zero]
      · have hnot : v ∉ u.1 := fun hv' => hdisjoint v hv' v
          (List.mem_flatten.2 ⟨t.1, List.mem_map_of_mem ht, hv⟩) rfl
        rw [List.count_eq_zero.2 hnot, Nat.mul_zero, Nat.zero_add, ih hturns ht]

theorem labels_evaluations (step : Array α → Nat → Array α) (values : Array α) (vs : List Nat) :
    (evaluations step values vs).map (·.label) = vs := by
  induction vs generalizing values with
  | nil => rfl
  | cons i vs ih => rw [evaluations, List.map_cons, ih]

theorem labels_iterateTrace {c : List Nat} {passes n : Nat} {values after : Array α}
    (h : Settles A system c values n after) (hbudget : ∀ k ∈ budget, passes + n ≤ k)
    (hlimit : n ≤ limit) :
    (iterateTrace A system c budget limit passes values).map (·.label)
      = (List.replicate n c).flatten := by
  -- Along the run without a budget, which says beforehand how many passes budget and limit allow.
  induction h generalizing limit passes with
  | last hcalm =>
      have hgoes := not_used_up_iff.2 hbudget
      obtain ⟨limit, rfl⟩ := Nat.exists_eq_add_of_le' hlimit
      rw [iterateTrace, if_neg hgoes, hcalm, List.map_append, labels_evaluations]
      rfl
  | @more values next after n hgrew _ ih =>
      have hgoes : ¬budget.any (· ≤ passes) = true :=
        not_used_up_iff.2 fun k hk => by have := hbudget k hk; omega
      obtain ⟨limit, rfl⟩ := Nat.exists_eq_add_of_le' (Nat.le_of_add_left_le hlimit)
      rw [iterateTrace, if_neg hgoes, hgrew, List.map_append, labels_evaluations]
      simp only
      rw [ih (fun k hk => by have := hbudget k hk; omega) (by omega), List.replicate_succ,
        List.flatten_cons]

/-- The solver evaluates the labels of each component as often as it counts a pass over it. -/
theorem labels_componentsTrace {passes : Nat} {values last : Array α} {cs : List (List Nat)}
    {turns : List (List Nat × Nat)} (h : Runs A system g values cs turns last)
    (hbudget : ∀ k ∈ budget, Within g k turns) (hlimit : Within g limit turns) :
    (componentsTrace A system g budget limit passes values cs).map (·.label)
      = passedLabels turns := by
  induction h generalizing passes with
  | done => rfl
  | @once values last c cs turns hsingle _ ih =>
      have hsolves : solveComponents A system g budget limit passes values [c]
          = some (.ok (evaluate A system values c, passes + 1)) := by
        rw [solveComponents, if_neg (Bool.eq_false_iff.1 hsingle)]
        rfl
      rw [componentsTrace, componentTrace, if_neg (Bool.eq_false_iff.1 hsingle), hsolves,
        List.map_append, labels_evaluations]
      simp only
      rw [ih (fun k hk => (hbudget k hk).tail) hlimit.tail, passedLabels, passedLabels,
        List.flatMap_cons, List.replicate_one, List.flatten_singleton]
  | @recursive values next last c n cs turns hcyclic hsettles _ ih =>
      have hwithin : ∀ k ∈ budget, 0 + n ≤ k := fun k hk => by
        rw [Nat.zero_add]
        exact hbudget k hk _ List.mem_cons_self hcyclic
      have hle : n ≤ limit := hlimit _ List.mem_cons_self hcyclic
      have hsolves : solveComponents A system g budget limit passes values [c]
          = some (.ok (next, passes + (0 + n))) := by
        rw [solveComponents, if_pos hcyclic, iterate_of_settles hsettles hwithin hle]
        rfl
      rw [componentsTrace, componentTrace, if_pos hcyclic, hsolves, List.map_append,
        labels_iterateTrace hsettles hwithin hle]
      simp only
      rw [ih (fun k hk => (hbudget k hk).tail) hlimit.tail, passedLabels, passedLabels,
        List.flatMap_cons]

/-! ## Whole runs -/

/-- The evaluations of a run are those of its turns, the passes of which the solver has counted. -/
theorem labels_trace {components : List (List Nat)} {n : Nat} {values : Array α}
    (h : solve A system g components budget limit = some (.ok (values, n))) :
    ∃ turns, Runs A system g (Array.replicate system.size A.impossible) components.reverse turns
        values ∧ n = totalPasses turns ∧
      (trace A system g components budget limit).map (·.label) = passedLabels turns := by
  obtain ⟨turns, hruns, hpasses, hlimit, hbudget⟩ := runs_of_solve h
  exact ⟨turns, hruns, hpasses, labels_componentsTrace hruns hbudget hlimit⟩

/-- Equations whose terms depend only on labels that their own label leads to read nothing else. -/
theorem readsAlong_of_dependencies (h : ∀ i, ∀ t ∈ system[i]?.getD [], ∀ d ∈ t.dependencies,
    Graph.Leads g.successors i d) : ReadsAlong A system g := by
  intro i values values' hsame
  refine congrArg A.sum (List.map_congr_left fun t ht => ?_)
  exact List.foldl_ext _ _ _ fun acc d hd => congrArg (A.times acc) (hsame d (h i t ht d hd))

section

variable (hg : g.Proper) {n : Nat} {values : Array α}
  (h : solve A system g g.components budget limit = some (.ok (values, n)))

include hg h

theorem exists_turn {c : List Nat} (hc : c ∈ g.components) : ∃ before after,
    Turn A system g budget limit (Array.replicate system.size A.impossible)
      (trace A system g g.components budget limit) values c before after :=
  (turns hg.stacked_components h rfl).2 c hc

/-- When a label is evaluated, the labels of other components that it leads to have their final
values. -/
theorem final_when_read {e : Evaluation α}
    (he : e ∈ trace A system g g.components budget limit) {w : Nat}
    (hlead : Graph.Leads g.successors e.label w)
    (hother : ∀ c ∈ g.components, e.label ∈ c → w ∉ c) : e.before[w]? = values[w]? := by
  have hlabel := (turns hg.stacked_components h rfl).1 e he
  obtain ⟨c, hc, hec⟩ := List.mem_flatten.1 hlabel
  obtain ⟨before, after, hturn⟩ := exists_turn hg h hc
  exact hturn.final he hec (hother c hc hec) hlead

theorem evaluated_once {v : Nat} (hv : v < g.size) (hnot : ¬g.Recurs v) :
    ((trace A system g g.components budget limit).map (·.label)).count v = 1 := by
  obtain ⟨turns, hruns, -, hlabels⟩ := labels_trace h
  obtain ⟨c, hc, hvc⟩ := List.mem_flatten.1 (hg.mem_components.2 hv)
  have hfree : g.isRecursive c = false :=
    Bool.eq_false_iff.2 fun hrecursive => hnot ((hg.isRecursive_iff hc hvc).1 hrecursive)
  have hturn : c ∈ turns.map Prod.fst := by
    rw [hruns.components]
    exact List.mem_reverse.2 hc
  obtain ⟨t, ht, rfl⟩ := List.mem_map.1 hturn
  have hnodup : (turns.map Prod.fst).flatten.Nodup := by
    rw [hruns.components]
    exact ((List.reverse_perm _).flatten).nodup_iff.2 hg.components_collected.2.nodup
  rw [hlabels, count_passedLabels hnodup ht hvc, hruns.passed_once ht hfree]

end

end ChanceProof.System
