import ChanceProof.Proofs.Evaluation.Alike
import ChanceProof.Proofs.Evaluation.Content
import ChanceProof.Proofs.Model.Ledger

/-!
# An evaluation does not disturb the store

An evaluation over a library adds objects to the store and does nothing else to it: what was there
keeps its value and its count, and what was added has one count, for its place in the distribution
that brought it (`Store.Extends`). This is so however the evaluation ends, since only requests for
distributions touch the store at all, and those that fail do not.

Every handle in the results is canonical. The object of such a handle was there when its form was
asked for, and it is not disturbed later. Solving changes nothing at all (`Session.eq_of_solve`), so
the results can be read in the store that is left (`Library.evaluate_undisturbed`).
-/

namespace ChanceProof

/-! ## Stores that grow -/

/-- Objects are as they were, with their counts, and new ones have new numbers and one count. -/
structure Store.Extends (s s' : Store) : Prop where
  sound : s'.Sound
  next : s.next ≤ s'.next
  kept : ∀ a o, s.get? a = some o → s'.get? a = some o
  created : ∀ a o, s'.get? a = some o → s.get? a = none → s.next ≤ a.number ∧ o.count = 1

namespace Store

variable {s s' s'' : Store}

theorem Extends.refl (hs : s.Sound) : s.Extends s :=
  ⟨hs, Nat.le_refl _, fun _ _ h => h, fun _ _ h hnone => nomatch hnone.symm.trans h⟩

theorem Extends.trans (h : s.Extends s') (h' : s'.Extends s'') : s.Extends s'' := by
  refine ⟨h'.sound, Nat.le_trans h.next h'.next, fun a o ho => h'.kept a o (h.kept a o ho),
    fun a o ho hnone => ?_⟩
  cases hmid : s'.get? a with
  | some o' =>
      cases ho.symm.trans (h'.kept a o' hmid)
      exact h.created a o hmid hnone
  | none =>
      obtain ⟨hnew, hcount⟩ := h'.created a o ho hmid
      exact ⟨Nat.le_trans h.next hnew, hcount⟩

/-- A store that gives handles away and changes no counts besides only grows. -/
theorem Books.extends {given : List Handle} (h : s.Books s' given fun _ => 0) (hs : s.Sound) :
    s.Extends s' := by
  have hsame : ∀ a, a ∉ given → s'.get? a = s.get? a := fun a ha =>
    h.moves.get?_eq hs (by rw [List.count_eq_zero_of_not_mem ha]; rfl)
  refine ⟨h.moves.sound, h.moves.later.next, fun a o ho => ?_, fun a o ho hnone => ?_⟩
  · have ha : a ∉ given := fun hmem => nomatch (h.mints.get?_eq_none hs hmem).symm.trans ho
    rw [hsame a ha, ho]
  · have ha : a ∈ given := by
      by_contra hnot
      rw [hsame a hnot, hnone] at ho
      cases ho
    have hcounts := h.moves.counts a
    rw [counts_of_get? ho, (hs.counts_eq_zero_iff a).2 hnone,
      List.count_eq_one_of_mem h.mints.nodup ha] at hcounts
    exact ⟨(h.mints.mem_iff.1 ha).1, hcounts⟩

end Store

namespace Library

variable (functions : Library)

theorem extends_getDistribution {s : Store} (hs : s.Sound) (c : Call) :
    s.Extends ((functions.model.getDistribution c).run s).2 := by
  show s.Extends ((functions.getDistribution c).run s).2
  rcases functions.getDistribution_cases hs c with ⟨f, hr, -⟩ | ⟨e, s', hr, hmoves, -⟩ <;> rw [hr]
  · exact .refl hs
  · have hbooks : s.Books s' (Answer.expansion e).handles fun _ => 0 :=
      ⟨hmoves.congr fun h => by rw [occurrences_eq_count, Int.add_zero]; rfl,
        mints_getDistribution hr⟩
    exact hbooks.extends hs

/-- Exporting a label leaves the store as it is. -/
theorem run_exportLabel (s : Store) (l : Label) :
    ((functions.model.exportLabel l).run s).2 = s := by
  have hvalue : ∀ v, (functions.model.exportValue v).Keeps Eq := fun v s => by
    cases v with
    | literal h => exact (functions.run_toExternal s h).symm
    | _ => rfl
  have hlabel : (functions.model.exportLabel l).Keeps Eq :=
    (Action.Keeps.mapM _ hvalue).bind fun _ => (Action.Keeps.mapM _ hvalue).bind fun _ => .pure _
  exact (hlabel s).symm

end Library

/-! ## What a session does to the store -/

namespace Session

/-- Whatever was done, the store has only grown. -/
def Spares (s s' : Session Store) : Prop := s.world.Sound → s.world.Extends s'.world

instance : Std.Refl Spares := ⟨fun _ => .refl⟩

instance : IsTrans (Session Store) Spares := ⟨fun _ _ _ h h' hs => (h hs).trans (h' (h hs).sound)⟩

theorem spares_of_same {s s' : Session Store} (h : s'.world = s.world) : Spares s s' := fun hs => by
  rw [h]
  exact .refl hs

variable (functions : Library)

theorem spares_frame : Frame id functions.model functions.model Spares where
  toExternal _ _ := rfl
  isEqual _ _ _ _ := rfl
  keeps_toExternal h s := spares_of_same (functions.run_toExternal s.world h)
  keeps_isEqual a b _ s := spares_of_same (functions.run_isEqual s.world a b)
  canonicalOf _ _ _ _ _ := .refl
  bindings _ _ := .refl
  records _ _ _ := .refl

theorem spares_distribution (c : Call) :
    Shows id Spares (distribution functions.model c) (distribution functions.model c) := by
  refine fun s => ⟨fun hs => ?_, rfl⟩
  have hextends := functions.extends_getDistribution hs c
  rw [run_distribution]
  cases s.expansions.lookup c with
  | some e => exact .refl hs
  | none =>
      rcases hr : (functions.model.getDistribution c).run s.world with ⟨f | e, w⟩ <;>
        rw [hr] at hextends
      · exact hextends
      · exact hextends

theorem spares_expandAll (ps : List Proof) : (expandAll functions.model ps).Keeps Spares :=
  ((spares_frame functions).expandAll (fun c _ _ => spares_distribution functions c) ps).keeps

/-- Questions for forms change nothing in a session over a library. -/
theorem unchanged_reading : Reading id functions.model functions.model Eq where
  toExternal _ _ := rfl
  keeps_toExternal h s := by
    rw [run_ask, functions.run_toExternal]

/-- Solving leaves a session over a library as it is. -/
theorem eq_of_solve {α : Type} {A : Arithmetic α} {limit : Nat} {s : SortedSession Store}
    {t t' : Session Store} {x : Except Failure (Results α)}
    (h : s.solve functions.model A limit t = some (x, t')) : t' = t := by
  rw [SortedSession.solve_state h]
  exact (((unchanged_reading functions).system A).keeps t).symm

end Session

/-! ## Results that can be read -/

namespace Results

variable {α : Type}

/-- The labels in the results. -/
def mentioned (r : Results α) : List Label := r.labels.map (·.1) ++ r.proved

/-- The handles in the results are those of live objects, so all of them can be exported. -/
structure Readable (functions : Library) (w : Store) (r : Results α) : Prop where
  live : ∀ l ∈ r.mentioned, ∀ v ∈ l.values, ∃ h o, v = .literal h ∧ w.get? h = some o
  exported : ∀ l ∈ r.mentioned, ∃ pl, (functions.model.exportLabel l).run w = (.ok pl, w)
  bindings : ∀ b ∈ r.bindings, ∃ o, w.get? b.2 = some o ∧
    (functions.model.toExternal b.2).run w = (.ok o.value, w)

end Results

/-- The results mention only labels that the session has written down. -/
theorem Session.written_of_mentioned {σ α : Type} {s : Session σ} {values : Array α} {passes : Nat}
    {l : Label} (hl : l ∈ (s.sort.results values passes).mentioned) : l ∈ s.written := by
  refine List.mem_append_left _ ?_
  rcases List.mem_append.1 hl with hl | hl
  · obtain ⟨⟨l, p⟩, hmem, rfl⟩ := List.mem_map.1 hl
    exact List.mem_append_left _ (List.of_mem_zip hmem).1
  · exact List.mem_append_right _ hl

namespace Library

variable {functions : Library}

/-- The results of a session can be read in its store. -/
theorem readable_results {α : Type} {s : Session Store}
    (hreach : Session.Reachable functions.model Store.Sound s) (values : Array α) (passes : Nat) :
    (s.sort.results values passes).Readable functions s.world := by
  have hM := functions.meets_sound
  have hsound := hreach.sound hM
  have hs := hsound.coherent
  have hlive : ∀ c, s.IsCanonical c → ∃ o, s.world.get? c = some o := fun c hc => by
    obtain ⟨v, hv⟩ := hs.live hc
    rw [functions.form?_model] at hv
    obtain ⟨o, ho, -⟩ := Option.map_eq_some_iff.1 hv
    exact ⟨o, ho⟩
  have hcanonical : ∀ l ∈ (s.sort.results values passes).mentioned, s.Canonical l := fun l hl =>
    hsound.canonical_of_written (hreach.listed hM) (Session.written_of_mentioned hl)
  refine ⟨fun l hl v hv => ?_, fun l hl => ?_, fun b hb => ?_⟩
  · obtain ⟨c, rfl, hc⟩ := hcanonical l hl v hv
    obtain ⟨o, ho⟩ := hlive c hc
    exact ⟨c, o, rfl, ho⟩
  · obtain ⟨pl, hpl⟩ := hs.exists_reads (hcanonical l hl)
    have hreads := (hcanonical l hl).reads_literals hpl
    obtain ⟨w, hr, -⟩ := Model.exportLabel_of_reads hM hs.world hreads
    have hsame := functions.run_exportLabel s.world l
    rw [hr] at hsame
    obtain rfl : w = s.world := hsame
    exact ⟨pl, hr⟩
  · have hc := hs.bindings b.1 b.2 (lookup_of_mem (hreach.distinct hM) hb)
    obtain ⟨o, ho⟩ := hlive b.2 hc
    exact ⟨o, ho, functions.run_toExternal_of_get? ho⟩

/-- Whether an evaluation succeeds or fails, it only adds objects to the store, with one count each.
If it succeeds, its results can be read in the store after it. -/
theorem evaluate_undisturbed {α : Type} {A : Arithmetic α} {settings : Settings} {limit : Nat}
    {ps : List Proof} {w w' : Store} (hw : w.Sound) {x : Except Failure (Results α)}
    (h : functions.model.evaluate A settings limit ps w = some (x, w')) :
    w.Extends w' ∧ ∀ r, x = .ok r → r.Readable functions w' := by
  have hexpanded := Session.spares_expandAll functions ps (.start settings w) hw
  rw [Model.evaluate_eq] at h
  rcases hr : (Session.expandAll functions.model ps).run (.start settings w) with ⟨f | ⟨⟩, s⟩ <;>
    rw [hr] at h hexpanded
  · cases h
    exact ⟨hexpanded, fun _ h => nomatch h⟩
  · obtain ⟨⟨y, s'⟩, hsolve, heq⟩ := Option.map_eq_some_iff.1 h
    cases heq
    obtain rfl := Session.eq_of_solve functions hsolve
    refine ⟨hexpanded, ?_⟩
    rintro r rfl
    obtain ⟨_, values, passes, -, rfl⟩ := SortedSession.solve_results hsolve
    have hstart : Session.Reachable functions.model Store.Sound (.start settings w) :=
      .start settings hw
    exact readable_results (hstart.forM_expand hr) values passes

end Library

/-- Each of the two calls brings one object: the probability of a toss, and the last result. -/
theorem untilTails_undisturbed : ∃ (r : Results ℚ) (w' : Store),
    untilTails.model.evaluate (exactArithmetic fun x y => y - x ≤ 1 / 4) .standard 10
      untilTails.proofs Library.truths = some (.ok r, w') ∧
    w'.live = 4 ∧ Library.truths.Extends w' ∧ r.Readable untilTails w' := by
  have hlive : (untilTails.model.evaluate (exactArithmetic fun x y => y - x ≤ 1 / 4) .standard 10
      untilTails.proofs Library.truths).map (fun x => (x.1.isOk, x.2.live)) = some (true, 4) := by
    decide +kernel
  rcases hr : untilTails.model.evaluate (exactArithmetic fun x y => y - x ≤ 1 / 4) .standard 10
      untilTails.proofs Library.truths with _ | ⟨f | r, w'⟩ <;> rw [hr] at hlive
  · cases hlive
  · cases hlive
  · obtain ⟨hextends, hreadable⟩ := Library.evaluate_undisturbed Library.truths_holds.1 hr
    exact ⟨r, w', rfl, (Prod.mk.inj (Option.some.inj hlive)).2, hextends, hreadable r rfl⟩

end ChanceProof
