import ChanceProof.Proofs.Sampling.Record

/-!
# Records are justified step by step

A call is completed after all the calls that its distribution made. So every occurrence in the
record of a draw is justified by those before it: its variables were bound to the results of an
execution of the call's sketch, in which each call is a coin that landed in a possible way or has
been completed before (`sampleRecorded_chronicle`). The first occurrence of each label is justified
by first occurrences alone (`Chronicle.exists_represents`).
-/

namespace ChanceProof

/-- A coin that landed in a possible way. -/
def PortableLabel.Landed (l : PortableLabel) : Prop :=
  ∃ v p landed, l = ⟨Call.coinFunction, [v], [.bool landed]⟩ ∧ probabilityOf v = .ok p ∧
    coinWeight p landed ≠ 0

/-- What the variables of steps are bound to in an execution. -/
def Sketch.bindings : List Step → List PortableLabel → List (String × Json)
  | st :: steps, l :: path => st.names.zip l.result ++ bindings steps path
  | _, _ => []

namespace Occurrence

/-- The occurrence went through this path. -/
structure Traces (expand : Expander) (o : Occurrence) (sk : Sketch) (path : List PortableLabel) :
    Prop where
  compound : o.label.function ≠ Call.coinFunction
  sketch : expand o.label.function o.label.parameters = .ok sk
  distinct : sk.names.Nodup
  mapping : o.mapping = Sketch.bindings sk.steps path
  returns : sk.Path path o.label.result

/-- The label is of a coin that landed or of a call that was completed. -/
def Backs (log : List Occurrence) (l : PortableLabel) : Prop :=
  l.Landed ∨ l ∈ log.map Occurrence.label

theorem Backs.mono {log log' : List Occurrence} {l : PortableLabel} (h : Backs log l)
    (hle : ∀ l ∈ log.map Occurrence.label, l ∈ log'.map Occurrence.label) : Backs log' l :=
  h.imp_right (hle l)

theorem Backs.append_left {log : List Occurrence} {l : PortableLabel} (h : Backs log l)
    (log' : List Occurrence) : Backs (log ++ log') l :=
  h.mono fun l hl => by
    rw [List.map_append]
    exact List.mem_append_left _ hl

theorem Backs.append_right {log : List Occurrence} {l : PortableLabel} (h : Backs log l)
    (log' : List Occurrence) : Backs (log' ++ log) l :=
  h.mono fun l hl => by
    rw [List.map_append]
    exact List.mem_append_right _ hl

/-- The occurrence went through calls that were completed before, and coins. -/
def Justified (expand : Expander) (before : List Occurrence) (o : Occurrence) : Prop :=
  ∃ sk path, o.Traces expand sk path ∧ ∀ l ∈ path, Backs before l

theorem Justified.mono {expand : Expander} {before before' : List Occurrence} {o : Occurrence}
    (h : Justified expand before o)
    (hle : ∀ l ∈ before.map Occurrence.label, l ∈ before'.map Occurrence.label) :
    Justified expand before' o := by
  obtain ⟨sk, path, htraces, hbacked⟩ := h
  exact ⟨sk, path, htraces, fun l hl => (hbacked l hl).mono hle⟩

/-- The first list has one occurrence of each label in the second one. -/
structure Represents (os log : List Occurrence) : Prop where
  among : os.Sublist log
  once : (os.map Occurrence.label).Nodup
  all : ∀ l, l ∈ os.map Occurrence.label ↔ l ∈ log.map Occurrence.label

end Occurrence

open Occurrence

/-- Every occurrence is justified by those before it, and all objects are such. -/
inductive Chronicle (expand : Expander) (P : Json → Prop) : List Occurrence → Prop
  | nil : Chronicle expand P []
  | snoc {log : List Occurrence} {o : Occurrence} (h : Chronicle expand P log)
    (ho : Justified expand log o) (hvalues : ∀ v ∈ o.values, P v) : Chronicle expand P (log ++ [o])

namespace Chronicle

variable {expand : Expander} {P : Json → Prop}

theorem append {log log' : List Occurrence} (h : Chronicle expand P log)
    (h' : Chronicle expand P log') : Chronicle expand P (log ++ log') := by
  induction h' with
  | nil => rwa [List.append_nil]
  | snoc _ ho hvalues ih =>
      rw [← List.append_assoc]
      refine ih.snoc (ho.mono fun l hl => ?_) hvalues
      rw [List.map_append]
      exact List.mem_append_right _ hl

theorem values {log : List Occurrence} (h : Chronicle expand P log) :
    ∀ o ∈ log, ∀ v ∈ o.values, P v := by
  induction h with
  | nil => exact fun o ho => absurd ho List.not_mem_nil
  | snoc _ _ hvalues ih =>
      intro o ho
      rcases List.mem_append.1 ho with ho | ho
      · exact ih o ho
      · exact List.mem_singleton.1 ho ▸ hvalues

/-- What justifies an occurrence stands before it. -/
theorem justified {log : List Occurrence} (h : Chronicle expand P log) {i : Nat} {o : Occurrence}
    (ho : log[i]? = some o) : Justified expand (log.take i) o := by
  induction h with
  | nil => cases ho
  | @snoc log o' _ ho' _ ih =>
      rcases Nat.lt_or_ge i log.length with hlt | hge
      · rw [List.getElem?_append_left hlt] at ho
        rw [List.take_append_of_le_length hlt.le]
        exact ih ho
      · rw [List.getElem?_append_right hge] at ho
        obtain ⟨hlt, heq⟩ := List.getElem?_eq_some_iff.1 ho
        obtain rfl : i = log.length := by
          rw [List.length_singleton] at hlt
          omega
        rw [List.take_left]
        simp only [Nat.sub_self, List.getElem_cons_zero] at heq
        exact heq ▸ ho'

/-- The first occurrences of all labels are a chronicle by themselves. -/
theorem exists_represents {log : List Occurrence} (h : Chronicle expand P log) :
    ∃ os, Chronicle expand P os ∧ Represents os log := by
  induction h with
  | nil => exact ⟨[], .nil, .slnil, .nil, fun _ => .rfl⟩
  | @snoc log o _ ho hvalues ih =>
      obtain ⟨os, hos, hsub, hnodup, hsame⟩ := ih
      by_cases hseen : o.label ∈ log.map Occurrence.label
      · refine ⟨os, hos, hsub.trans (List.sublist_append_left _ _), hnodup, fun l => ?_⟩
        rw [hsame, List.map_append, List.mem_append, List.map_singleton, List.mem_singleton]
        constructor
        · exact .inl
        · intro h
          rcases h with h | rfl
          · exact h
          · exact hseen
      · refine ⟨os ++ [o], hos.snoc (ho.mono fun l => (hsame l).2) hvalues,
          hsub.append_right [o], ?_, fun l => ?_⟩
        · rw [List.map_append, List.nodup_append]
          refine ⟨hnodup, List.pairwise_singleton _ _, fun l hl l' hl' heq => hseen ?_⟩
          rw [← List.mem_singleton.1 hl', ← heq]
          exact (hsame l).1 hl
        · rw [List.map_append, List.map_append, List.mem_append, List.mem_append, hsame]

end Chronicle

/-! ## Objects -/

section

variable {P : Json → Prop} {sk : Sketch}

/-- No other objects are resolved to than those of the sketch and of the results before. -/
theorem Sketch.resolveAll_within {results : List (List Json)} {items : List Item} {vs : List Json}
    (h : sk.resolveAll results items = some vs) (hresults : ∀ js ∈ results, ∀ v ∈ js, P v)
    (hitems : ∀ item ∈ items, ∀ v, item = .object v → P v) : ∀ v ∈ vs, P v := by
  have hbound : ∀ (place : Nat × Nat) (v : Json), bound? results place = some v → P v := by
    intro place v hv
    obtain ⟨js, hjs, hv⟩ := Option.bind_eq_some_iff.1 hv
    exact hresults js (List.mem_of_getElem? hjs) v (List.mem_of_getElem? hv)
  unfold resolveAll at h
  induction items generalizing vs with
  | nil =>
      cases h
      exact fun v hv => absurd hv List.not_mem_nil
  | cons item items ih =>
      obtain ⟨hitem, hitems⟩ := List.forall_mem_cons.1 hitems
      rw [List.mapM_cons] at h
      obtain ⟨v, hv, h⟩ := Option.bind_eq_some_iff.1 h
      obtain ⟨vs', hvs, h⟩ := Option.bind_eq_some_iff.1 h
      cases h
      refine List.forall_mem_cons.2 ⟨?_, ih hvs hitems⟩
      cases item with
      | object w =>
          cases hv
          exact hitem _ rfl
      | output call index => exact hbound _ v hv
      | named name =>
          obtain ⟨place, -, hv⟩ := Option.bind_eq_some_iff.1 hv
          exact hbound place v hv

theorem Sketch.bindings_within {steps : List Step} {path : List PortableLabel}
    (h : ∀ l ∈ path, ∀ v ∈ l.result, P v) : ∀ e ∈ bindings steps path, P e.2 := by
  induction steps generalizing path with
  | nil => exact fun e he => absurd he List.not_mem_nil
  | cons st steps ih =>
      cases path with
      | nil => exact fun e he => absurd he List.not_mem_nil
      | cons l path =>
          obtain ⟨hl, hpath⟩ := List.forall_mem_cons.1 h
          intro e he
          rcases List.mem_append.1 he with he | he
          · exact hl e.2 (List.of_mem_zip he).2
          · exact ih hpath e he

end

/-! ## Recorded draws -/

theorem Draw.look_apply {α : Type} {f : Store × Randomness → Draw Store α}
    (s : Store × Randomness) : (get >>= f) s = f s s := rfl

/-- A call whose arguments are owned is drawn with a chronicle of it. -/
def Chronicles (expand : Expander) (P : Json → Prop)
    (draw : Call → Draw Store (List Handle × List Occurrence)) : Prop :=
  ∀ (s : Store) (c : Call) (owned : List Handle) (vs : List Json) (r : Randomness), s.Sound →
    c.parameters = owned.map .literal →
    List.Forall₂ (fun h v => s.value? h = some v) owned vs →
    (∀ h, (owned.count h : Int) ≤ s.counts h) → (∀ v ∈ vs, P v) →
    ∀ rs log s' r', draw c (s, r) = some (.ok (rs, log), (s', r')) →
      ∃ ws, Returns s owned rs s' ws ∧ Chronicle expand P log ∧
        Backs log ⟨c.function, vs, ws⟩ ∧ ∀ w ∈ ws, P w

section

variable (functions : Library) {draw : Call → Draw Store (List Handle × List Occurrence)}
  {P : Json → Prop} (hdraw : Chronicles functions.expand P draw) {d : Distribution} {sk : Sketch}
  {φ : Handle → Option Json} (hd : d.Reads φ sk)

include hdraw

/-- Assignment by assignment, the steps of the sketch are followed through calls in the record. -/
theorem recordAssignments_chronicle {as : List Assignment} {steps : List Step}
    (has : List.Forall₂ (Assignment.Reads φ) as steps) (hss : List (List Handle))
    (results : List (List Json)) {s s' : Store} {r r' : Randomness}
    (h : d.Midway sk as steps hss results s) (hresults : ∀ js ∈ results, ∀ v ∈ js, P v)
    (hitems : ∀ st ∈ steps, ∀ item ∈ st.parameters, ∀ v, item = .object v → P v)
    {w : Walk} {bound : List (String × Json)} {log : List Occurrence}
    (hr : functions.model.recordAssignments draw (d.walkTo hss)
      (as.zip (d.useCounts.drop hss.length)) (s, r) = some (.ok (w, bound, log), (s', r'))) :
    ∃ hss' path, w = d.walkTo hss' ∧
      d.Midway sk [] [] hss' (results ++ path.map (·.result)) s' ∧
      (s.Moves s' fun b => d.needs hss' (d.left []) b - d.needs hss (d.left as) b) ∧
      sk.Follows results steps path ∧ bound = Sketch.bindings steps path ∧
      Chronicle functions.expand P log ∧ ∀ l ∈ path, Backs log l ∧ ∀ v ∈ l.result, P v := by
  induction has generalizing hss results s r w bound log with
  | nil =>
      cases hr
      refine ⟨hss, [], rfl, ?_, (Store.Moves.refl h.sound).congr fun b => ?_, trivial, rfl, .nil,
        fun l hl => absurd hl List.not_mem_nil⟩
      · rw [List.map_nil, List.append_nil]
        exact h
      · rw [Int.sub_self]
  | @cons a st as steps hast _ ih =>
      obtain ⟨hhead, hitems⟩ := List.forall_mem_cons.1 hitems
      obtain ⟨hlt, hget⟩ := List.getElem?_eq_some_iff.1 (Distribution.getElem?_useCounts h.current)
      rw [List.drop_eq_getElem_cons hlt, hget, List.zip_cons_cons, h.valuesFrom] at hr
      obtain ⟨owned, vs, hcall, hall, hvals, howned, hstep⟩ := h.step hast functions
      unfold Model.recordAssignments at hr
      rw [Run.liftM_ok (by rw [hcall]; rfl)] at hr
      obtain ⟨⟨rs, inner⟩, ⟨s₁, r₁⟩, hrs, hr⟩ := Run.bind_ok.1 hr
      obtain ⟨ws, hreturns, hinner, hbacks, hws⟩ := hdraw s _ owned vs r h.sound rfl hvals howned
        (Sketch.resolveAll_within hall hresults hhead) _ _ _ _ hrs
      dsimp only at hr
      by_cases hlen : a.names.length = rs.length
      swap
      · rw [Run.liftM_error (by rw [Distribution.bind_walkTo h.current, if_neg hlen]; rfl)] at hr
        cases hr
      obtain ⟨s₂, hsettle, hmid, hmoves'⟩ := hstep rs ws s₁ hreturns hlen
      rw [Run.liftM_ok (by rw [Distribution.bind_walkTo h.current, if_pos hlen]; rfl), hlen] at hr
      have hforms : functions.model.formsOf s₁ rs = ws :=
        Model.Forms.formsOf (hreturns.1.imp fun b w hw => by rwa [Library.form?_model])
      rw [Draw.look_apply, hforms, Draw.ask_ok hsettle] at hr
      obtain ⟨⟨w', later, log'⟩, s₃, hlater, hr⟩ := Run.bind_ok.1 hr
      cases hr
      obtain ⟨hss', path, rfl, hend, hmoves'', hfollows, rfl, hlog, hbacked⟩ :=
        ih (hss ++ [rs]) (results ++ [ws]) hmid
          (List.forall_mem_append.2 ⟨hresults, List.forall_mem_singleton.2 hws⟩) hitems (by
            rw [List.length_append, List.length_singleton]
            exact hlater)
      refine ⟨hss', ⟨st.function, vs, ws⟩ :: path, rfl, ?_,
        (hmoves'.trans hmoves'').congr fun b => by omega, ⟨rfl, hall, ?_, hfollows⟩, ?_,
        hinner.append hlog, fun l hl => ?_⟩
      · rwa [List.append_assoc, List.singleton_append] at hend
      · rw [← hreturns.1.length_eq, ← hast.names, hlen]
      · rw [Sketch.bindings, hast.names]
      · rcases List.mem_cons.1 hl with rfl | hl
        · rw [← hast.function]
          exact ⟨hbacks.append_left log', hws⟩
        · exact ⟨(hbacked l hl).1.append_right inner, (hbacked l hl).2⟩

include hd

/-- A distribution whose literals are owned is drawn with a chronicle of a path through it. -/
theorem recordDistribution_chronicle {s s' : Store} {r r' : Randomness} (hs : s.Sound)
    (hlive : ∀ h w, .literal h ∈ d.values → φ h = some w → s.value? h = some w)
    (howned : ∀ h, occurrences d.values h ≤ s.counts h)
    (hitems : ∀ item ∈ sk.steps.flatMap (·.parameters) ++ sk.result, ∀ v, item = .object v → P v)
    {rs : List Handle} {bound : List (String × Json)} {log : List Occurrence}
    (hr : functions.model.recordDistribution draw d (s, r)
      = some (.ok (rs, bound, log), (s', r'))) :
    ∃ ws path, List.Forall₂ (fun h w => s'.value? h = some w) rs ws ∧
      (s.Moves s' fun h => rs.count h - occurrences d.values h) ∧ sk.Path path ws ∧
      bound = Sketch.bindings sk.steps path ∧ Chronicle functions.expand P log ∧
      (∀ l ∈ path, Backs log l ∧ ∀ v ∈ l.result, P v) ∧ ∀ w ∈ ws, P w := by
  have hmid := midway_start hd hs hlive howned
  unfold Model.recordDistribution at hr
  obtain ⟨⟨w, bound', log'⟩, ⟨s₁, r₁⟩, hrecord, hr⟩ := Run.bind_ok.1 hr
  obtain ⟨hss, path, rfl, hend, hmoves, hfollows, rfl, hlog, hbacked⟩ :=
    recordAssignments_chronicle functions hdraw hd.steps [] [] hmid
      (fun js hjs => absurd hjs List.not_mem_nil)
      (fun st hst item hitem => hitems item (List.mem_append_left _ (List.mem_flatMap.2
        ⟨st, hst, hitem⟩))) hrecord
  obtain ⟨rs', ws, hresult, hwhole, hvals, hcounts⟩ := midway_end hend
  dsimp only at hr
  rw [Run.liftM_ok (by rw [hresult]; rfl), Run.bind_apply, run_resultHandles] at hr
  cases hr
  refine ⟨ws, path, hvals, hmoves.congr fun h => ?_, ⟨hfollows, hwhole⟩, rfl, hlog, hbacked,
    Sketch.resolveAll_within hwhole ?_ fun item hitem => hitems item
      (List.mem_append_right _ hitem)⟩
  swap
  · intro js hjs
    obtain ⟨l, hl, rfl⟩ := List.mem_map.1 hjs
    exact (hbacked l hl).2
  have hstart : d.needs [] (d.left d.assignments) h = occurrences d.values h :=
    d.needs_nil d.values h
  rw [hcounts, hstart]

end

/-- A coin lands in a possible way. -/
theorem landed_of_coinTrial {vs ws : List Json} {r r' : Randomness}
    (h : (coinTrial vs).run r = some (.ok ws, r')) :
    PortableLabel.Landed ⟨Call.coinFunction, vs, ws⟩ := by
  unfold coinTrial at h
  split at h
  · next v =>
      split at h
      · next p hp =>
          cases h
          exact ⟨v, p, _, rfl, hp, coinWeight_lands_ne_zero (unit_of_probabilityOf hp) _⟩
      · cases h
  · cases h

/-- Draws are recorded as chronicles, of objects that the functions keep to. -/
theorem sampleRecorded_chronicle {functions : Library} {P : Json → Prop}
    (hP : functions.KeepsTo P) (hbool : ∀ b, P (.bool b)) (depth : Nat) :
    Chronicles functions.expand P (functions.model.sampleRecorded depth) := by
  induction depth with
  | zero =>
      intro s c owned vs r _ _ _ _ _ rs log s' r' hr
      cases hr
  | succ depth ih =>
      intro s c owned vs r hs hpar hvals howned hvs rs log s' r' hr
      unfold Model.sampleRecorded at hr
      by_cases hprim : c.isPrimitive = true
      · rw [if_pos hprim] at hr
        obtain ⟨h, s₁, hcoin, hr⟩ := Run.bind_ok.1 hr
        cases hr
        have hagrees := sampleCoin_agrees functions hs r hpar hvals howned
        rw [Run.bind_apply, hcoin] at hagrees
        obtain ⟨ws, hrun, hreturns⟩ := hagrees.of_ok
        have hlanded := landed_of_coinTrial hrun
        refine ⟨ws, hreturns, .nil, .inl ?_, fun w hw => ?_⟩
        · rw [Call.isPrimitive_iff.1 hprim]
          exact hlanded
        · obtain ⟨_, _, landed, heq, -⟩ := hlanded
          cases heq
          exact List.mem_singleton.1 hw ▸ hbool landed
      · rw [if_neg hprim] at hr
        have hprim' := Bool.eq_false_iff.2 hprim
        rcases getDistribution_released functions hs hprim' hpar hvals howned with
          ⟨f, hget, -⟩ | ⟨e, sk, s₁, s₂, hget, hrelease, hsk, hreads, hmoves, hlive, howned₂⟩
        · rw [Draw.look_apply, Draw.ask_error hget] at hr
          cases hr
        · rw [Draw.look_apply, Draw.ask_ok hget, Draw.ask_ok hrelease] at hr
          obtain ⟨⟨rs', bound, log'⟩, s₃, hrecord, hr⟩ := Run.bind_ok.1 hr
          cases hr
          obtain ⟨ws, path, hws, hmoves', hpath, rfl, hlog, hbacked, hwithin⟩ :=
            recordDistribution_chronicle functions ih hreads hmoves.sound hlive howned₂
              (hP _ _ _ hvs hsk) hrecord
          have hresults : functions.model.formsOf s' rs = ws :=
            Model.Forms.formsOf (hws.imp fun b w hw => by rwa [Library.form?_model])
          have harguments : functions.model.formsOf s c.handles = vs := by
            rw [Call.handles_of_parameters hpar]
            exact Model.Forms.formsOf (hvals.imp fun b w hw => by rwa [Library.form?_model])
          rw [harguments, hresults]
          refine ⟨ws, ⟨hws, (hmoves.trans hmoves').congr fun h => by omega⟩,
            hlog.snoc ⟨sk, path, ⟨?_, hsk, ?_, rfl, hpath⟩, fun l hl => (hbacked l hl).1⟩ ?_,
            .inr ?_, hwithin⟩
          · exact fun h => hprim (Call.isPrimitive_iff.2 h)
          · rw [← hreads.names]
            exact e.distribution.names_nodup
          · have hlabel := List.forall_mem_append.2 ⟨hvs, hwithin⟩
            refine List.forall_mem_append.2 ⟨hlabel, fun v hv => ?_⟩
            obtain ⟨e, he, rfl⟩ := List.mem_map.1 hv
            exact Sketch.bindings_within (fun l hl => (hbacked l hl).2) e he
          · rw [List.map_append, List.map_singleton]
            exact List.mem_append_right _ List.mem_cons_self

end ChanceProof
