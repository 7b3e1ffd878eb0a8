import ChanceProof.Proofs.CommandLine.Report
import ChanceProof.Proofs.Evaluation.Undisturbed

/-!
# Importing a file is undone by exporting

A library imports a file just when its markers are well formed and the mappings of each proof have
the same names. Every value that is no marker then is an object of its own, which was not there
before, and nothing else happens to the store. Exporting the proofs gives back the file:
`Library.importProofs_exact`.

That an import fails on nothing else is said together with what a successful one does to the store
(`Library.importProof_ends`). The objects of a list are those of its elements one after another
(`Store.ends_mapM`), so that they are new and different follows for the whole file from what one
value does.
-/

namespace ChanceProof

/-! ## What can be imported -/

namespace Json

/-- An object that has the key of markers is a marker. -/
def WellMarked (v : Json) : Prop :=
  ∀ fields, v = .object fields → unknownKey ∈ fields.map (·.1) → ∃ x, v = .ofUnknown x

theorem mem_keys_iff {fields : List (String × Json)} {key : String} :
    key ∈ fields.map (·.1) ↔ ∃ v, fields.lookup key = some v := by
  induction fields with
  | nil => simp
  | cons f fields ih =>
      obtain ⟨k, v⟩ := f
      rw [List.map_cons, List.mem_cons, List.lookup_cons, ih]
      by_cases hkey : key = k
      · simp [hkey]
      · have hne : (key == k) = false := beq_eq_false_iff_ne.2 hkey
        simp [hkey, hne]

/-- Just the values that are well marked are told to be markers or not. -/
theorem wellMarked_iff {v : Json} : v.WellMarked ↔ ∃ x, v.unknown? = .ok x := by
  constructor
  · intro h
    cases hname : v.field? unknownKey with
    | none => exact ⟨none, by rw [unknown?, hname]⟩
    | some name =>
        cases v with
        | object fields =>
            obtain ⟨x, hx⟩ := h fields rfl (mem_keys_iff.2 ⟨name, hname⟩)
            rw [hx]
            exact ⟨some x, rfl⟩
        | _ => cases hname
  · rintro ⟨x, hx⟩ fields rfl hkey
    obtain ⟨name, hname⟩ := mem_keys_iff.1 hkey
    have hmarked := marked?_of_unknown? hx
    cases x with
    | some x => exact ⟨x, marked?_eq_some_iff.1 hmarked⟩
    | none =>
        rw [unknown?, field?, hname] at hx
        simp only at hx
        split at hx <;> cases hx

end Json

/-- The proof has no malformed markers, and its mappings have the same names. -/
structure PortableProof.Importable (p : PortableProof) : Prop where
  values : ∀ v ∈ p.values, v.WellMarked
  names : ∀ m ∈ p.mappings, ∀ m' ∈ p.mappings, m.keys = m'.keys

/-! ## What has been imported -/

/-- What a value of a file has become: an unknown if it is a marker, and otherwise an object that
was not there before, with this value and one count. -/
inductive Value.Interned (s s' : Store) : Json → Value → Prop
  | unknown (x : String) : Interned s s' (.ofUnknown x) (.unknown x)
  | object {v : Json} {h : Handle} (unmarked : ∀ x, v ≠ .ofUnknown x) (absent : s.get? h = none)
    (present : s'.get? h = some ⟨v, 1⟩) : Interned s s' v (.literal h)

/-- Exporting the proof gives this one and changes nothing. -/
structure Library.Exports (functions : Library) (s : Store) (p : Proof) (pp : PortableProof) :
    Prop where
  label : (functions.model.exportLabel p.label).run s = (.ok pp.label, s)
  mappings : List.Forall₂ (Dictionary.Related fun u v =>
    (functions.model.exportValue u).run s = (.ok v, s)) p.mappings pp.mappings

/-- The handles in all places of the proofs. -/
def handlesOf (ps : List Proof) : List Handle := (ps.flatMap Proof.values).filterMap Value.handle?

/-- These proofs were imported from the file, and the store has become this one. -/
structure Library.Imported (functions : Library) (s : Store) (file : List PortableProof)
    (ps : List Proof) (s' : Store) : Prop where
  exports : List.Forall₂ (functions.Exports s') ps file
  interned : List.Forall₂ (Value.Interned s s') (file.flatMap PortableProof.values)
    (ps.flatMap Proof.values)
  /-- No object stands in two places. -/
  distinct : (handlesOf ps).Nodup
  kept : ∀ h o, s.get? h = some o → s'.get? h = some o
  added : ∀ h o, s'.get? h = some o → s.get? h = some o ∨ h ∈ handlesOf ps

/-! ## Objects of their own -/

namespace Store

variable {s s' s'' : Store}

theorem Books.append {given given' : List Handle} (h : s.Books s' given fun _ => 0)
    (h' : s'.Books s'' given' fun _ => 0) : s.Books s'' (given ++ given') fun _ => 0 :=
  h.trans h'

/-- A list is imported just when its elements are, and has the objects of all of them. -/
theorem ends_mapM {α β : Type} {f : α → Action Store β} {P : α → Prop} {R : α → β → Prop}
    {H : β → List Handle}
    (hf : ∀ x {s : Store}, s.Sound → (f x).Ends
      (fun y s' => R x y ∧ s.Books s' (H y) fun _ => 0) (fun _ => ¬ P x) s)
    (xs : List α) (hs : s.Sound) : (xs.mapM f).Ends
      (fun ys s' => List.Forall₂ R xs ys ∧ s.Books s' (ys.flatMap H) fun _ => 0)
      (fun _ => ¬ ∀ x ∈ xs, P x) s := by
  induction xs generalizing s with
  | nil => exact .pure ⟨.nil, .refl hs⟩
  | cons x xs ih =>
      rw [List.mapM_cons]
      refine .bind ((hf x hs).imp_failure fun _ h hall => h (hall x List.mem_cons_self))
        fun y s₁ ⟨hy, hbooks⟩ => ?_
      refine .bind ((ih hbooks.moves.sound).imp_failure fun _ h hall =>
        h fun z hz => hall z (List.mem_cons_of_mem _ hz)) fun ys s₂ ⟨hys, hrest⟩ => ?_
      exact .pure ⟨.cons hy hys, hbooks.append hrest⟩

end Store

/-- The value may be imported, and what it is imported as may stand in a proof. -/
def Value.Admitted (v : Json) (u : Value) : Prop := v.WellMarked ∧ Proof.checkValue u = .ok ()

/-- The values of a proof in the file and those of the imported proof stand in the same places. -/
theorem forall₂_values {R : Json → Value → Prop} {pp : PortableProof} {p : Proof}
    (hparameters : List.Forall₂ R pp.label.parameters p.label.call.parameters)
    (hresult : List.Forall₂ R pp.label.result p.label.result)
    (hmappings : List.Forall₂ (Dictionary.Related R) pp.mappings p.mappings) :
    List.Forall₂ R pp.values p.values := by
  refine List.rel_append (List.rel_append hparameters hresult) ?_
  exact List.rel_flatMap hmappings fun _ _ hm => List.forall₂_map_left_iff.2
    (List.forall₂_map_right_iff.2 (List.Forall₂.imp (fun _ _ he => he.2) hm))

namespace Library

variable (functions : Library) {s : Store}

theorem importValue_ends (v : Json) (hs : s.Sound) : (functions.model.importValue v).Ends
    (fun u s' => Value.Admitted v u ∧ s.Books s' u.handle?.toList fun _ => 0)
    (fun _ => ¬ v.WellMarked) s := by
  unfold Model.importValue
  refine .bind (P := fun x s' => v.WellMarked ∧ s' = s)
    (.liftM (fun x hx => ⟨Json.wellMarked_iff.2 ⟨x, hx⟩, rfl⟩) fun f hf h => ?_)
    fun x s' ⟨hv, hsame⟩ => ?_
  · obtain ⟨x, hx⟩ := Json.wellMarked_iff.1 h
    cases hf.symm.trans hx
  · subst hsame
    cases x with
    | some x => exact .pure ⟨⟨hv, rfl⟩, .refl hs⟩
    | none =>
        obtain ⟨h, s₁, hr, -, hmoves⟩ := Store.run_add hs v
        refine .bind (P := fun h s₁ => Store.Books _ s₁ [h] fun _ => 0) (.of_ok hr ?_)
          fun h s₁ hbooks => .pure ⟨⟨hv, rfl⟩, hbooks⟩
        refine ⟨hmoves.congr fun a => ?_, ?_⟩
        · rw [count_cons]
          simp
        · cases hr
          exact ⟨rfl, rfl⟩

theorem importValues_ends (vs : List Json) (hs : s.Sound) :
    (vs.mapM functions.model.importValue).Ends
      (fun us s' => List.Forall₂ Value.Admitted vs us ∧
        s.Books s' (us.filterMap Value.handle?) fun _ => 0)
      (fun _ => ¬ ∀ v ∈ vs, v.WellMarked) s := by
  refine (Store.ends_mapM (fun v _ hs => functions.importValue_ends v hs) vs hs).imp ?_
  rintro us s' ⟨hus, hbooks⟩
  rw [List.filterMap_eq_flatMap_toList]
  exact ⟨hus, hbooks⟩

theorem importMapping_ends (m : Dictionary Json) (hs : s.Sound) :
    (functions.model.importMapping m).Ends
      (fun m' s' => m.Related Value.Admitted m' ∧
        s.Books s' ((m'.entries.map (·.2)).filterMap Value.handle?) fun _ => 0)
      (fun _ => ¬ ∀ e ∈ m.entries, e.2.WellMarked) s := by
  unfold Model.importMapping
  refine .bind (Store.ends_mapM (R := fun e e' => e.1 = e'.1 ∧ Value.Admitted e.2 e'.2)
    (H := fun e => e.2.handle?.toList) (fun e _ hs => ?_) m.entries hs) ?_
  · exact .bind (functions.importValue_ends e.2 hs) fun u s' ⟨hu, hbooks⟩ =>
      .pure ⟨⟨rfl, hu⟩, hbooks⟩
  · rintro es s' ⟨hes, hbooks⟩
    refine .pure ⟨Dictionary.related_ofList hes, ?_⟩
    rw [Dictionary.entries_ofList (hes.imp fun _ _ h => h.1), List.filterMap_map,
      List.filterMap_eq_flatMap_toList]
    exact hbooks

/-- The proof check looks at nothing else than the names, once the values are imported. -/
theorem check_ok_iff_names {l : Label} {ms : List Mapping}
    (hvalues : ∀ v ∈ Proof.values ⟨l, ms⟩, Proof.checkValue v = .ok ()) :
    Proof.check l ms = .ok () ↔ ∀ m ∈ ms, ∀ m' ∈ ms, m.keys = m'.keys := by
  refine (Proof.check_ok_iff (p := ⟨l, ms⟩)).trans ((and_iff_right hvalues).trans ?_)
  constructor
  · exact fun h m hm m' hm' => (h m hm).trans (h m' hm').symm
  · intro h m hm
    cases ms with
    | nil => cases hm
    | cons first rest => exact h m hm first List.mem_cons_self

theorem importProof_ends (pp : PortableProof) (hs : s.Sound) :
    (functions.model.importProof pp).Ends
      (fun p s' => pp.Importable ∧ s.Books s' (p.values.filterMap Value.handle?) fun _ => 0)
      (fun _ => ¬ pp.Importable) s := by
  obtain ⟨⟨f, parameters, result⟩, mappings⟩ := pp
  unfold Model.importProof Model.importLabel
  simp only [bind_assoc, pure_bind]
  refine .bind ((functions.importValues_ends parameters hs).imp_failure fun _ h hp =>
    h fun v hv => hp.values v (List.mem_append_left _ (List.mem_append_left _ hv))) ?_
  rintro ps s₁ ⟨hps, hbooks₁⟩
  refine .bind ((functions.importValues_ends result hbooks₁.moves.sound).imp_failure fun _ h hp =>
    h fun v hv => hp.values v (List.mem_append_left _ (List.mem_append_right _ hv))) ?_
  rintro rs s₂ ⟨hrs, hbooks₂⟩
  refine .bind ((Store.ends_mapM (fun m _ hs => functions.importMapping_ends m hs) mappings
    hbooks₂.moves.sound).imp_failure fun _ h hp => h fun m hm e he => hp.values e.2
      (List.mem_append_right _ (List.mem_flatMap.2 ⟨m, hm, List.mem_map.2 ⟨e, he, rfl⟩⟩))) ?_
  rintro ms s₃ ⟨hms, hbooks₃⟩
  have hplaces : List.Forall₂ Value.Admitted
      (PortableProof.values ⟨⟨f, parameters, result⟩, mappings⟩)
      (Proof.values ⟨⟨⟨f, ps⟩, rs⟩, ms⟩) := forall₂_values hps hrs hms
  have hvalues : ∀ v ∈ Proof.values ⟨⟨⟨f, ps⟩, rs⟩, ms⟩, Proof.checkValue v = .ok () := by
    intro v hv
    obtain ⟨_, -, h⟩ := exists_of_forall₂_mem hplaces hv
    exact h.2
  have hkeys : List.Forall₂ (fun m m' => m.keys = m'.keys) mappings ms :=
    hms.imp fun _ _ h => h.keys
  refine .liftM (fun p hp => ?_) fun e he hp => ?_
  · obtain ⟨hcheck, rfl⟩ := Proof.make_eq_ok_iff.1 hp
    refine ⟨⟨fun v hv => ?_, fun m hm m' hm' => ?_⟩, ?_⟩
    · obtain ⟨_, -, h⟩ := exists_of_forall₂_mem hplaces.flip hv
      exact h.1
    · obtain ⟨n, hn, heq⟩ := exists_of_forall₂_mem hkeys.flip hm
      obtain ⟨n', hn', heq'⟩ := exists_of_forall₂_mem hkeys.flip hm'
      rw [heq, heq']
      exact (check_ok_iff_names hvalues).1 hcheck n hn n' hn'
    · rw [Proof.values, Label.values, List.filterMap_append, List.filterMap_append,
        List.filterMap_flatMap]
      exact (hbooks₁.append hbooks₂).append hbooks₃
  · have hcheck : Proof.check ⟨⟨f, ps⟩, rs⟩ ms = .ok () := by
      refine (check_ok_iff_names hvalues).2 fun n hn n' hn' => ?_
      obtain ⟨m, hm, heq⟩ := exists_of_forall₂_mem hkeys hn
      obtain ⟨m', hm', heq'⟩ := exists_of_forall₂_mem hkeys hn'
      rw [← heq, ← heq']
      exact hp.names m hm m' hm'
    cases he.symm.trans (Proof.make_eq_ok_iff.2 ⟨hcheck, rfl⟩)

/-- A file is imported just when its proofs are, and nothing happens to the store but that it gives
objects for their values. -/
theorem importProofs_ends (file : List PortableProof) (hs : s.Sound) :
    (functions.model.importProofs file).Ends
      (fun ps s' => (∀ pp ∈ file, pp.Importable) ∧ s.Books s' (handlesOf ps) fun _ => 0)
      (fun _ => ¬ ∀ pp ∈ file, pp.Importable) s := by
  refine (Store.ends_mapM (R := fun pp _ => pp.Importable)
    (fun pp _ hs => functions.importProof_ends pp hs) file hs).imp ?_
  rintro ps s' ⟨hps, hbooks⟩
  rw [handlesOf, List.filterMap_flatMap]
  refine ⟨fun pp hpp => ?_, hbooks⟩
  obtain ⟨_, -, h⟩ := exists_of_forall₂_mem hps.flip hpp
  exact h

/-! ## Reading the objects back -/

theorem run_exportValue {u : Value} {v : Json} (h : u.Imports (functions.model.form? s) v) :
    (functions.model.exportValue u).run s = (.ok v, s) := by
  cases h with
  | unknown marked =>
      rw [Json.marked?_eq_some_iff.1 marked]
      rfl
  | literal _ form =>
      rw [form?_model] at form
      obtain ⟨o, ho, rfl⟩ := Option.map_eq_some_iff.1 form
      exact functions.run_toExternal_of_get? ho

theorem run_exportValues {us : List Value} {vs : List Json}
    (h : List.Forall₂ (fun v u => u.Imports (functions.model.form? s) v) vs us) :
    (us.mapM functions.model.exportValue).run s = (.ok vs, s) := by
  induction h with
  | nil => rfl
  | cons hv _ ih =>
      exact Action.run_mapM_cons_ok.2 ⟨_, s, _, functions.run_exportValue hv, ih, rfl⟩

theorem exports_of_imports {p : Proof} {pp : PortableProof}
    (h : p.Imports (functions.model.form? s) pp) : functions.Exports s p pp where
  label := by
    unfold Model.exportLabel
    rw [Action.run_bind_of_ok (functions.run_exportValues h.parameters),
      Action.run_bind_of_ok (functions.run_exportValues h.result), ← h.function]
    rfl
  mappings := h.mappings.flip.imp fun _ _ hm => List.Forall₂.flip <|
    List.Forall₂.imp (fun _ _ he => ⟨he.1.symm, functions.run_exportValue he.2⟩) hm

/-! ## The whole file -/

theorem interned_of_imports {s' : Store} {given : List Handle}
    (hbooks : s.Books s' given fun _ => 0) (hs : s.Sound) {v : Json} {u : Value}
    (hu : ∀ h, u = .literal h → h ∈ given) (himports : u.Imports (functions.model.form? s') v) :
    Value.Interned s s' v u := by
  cases himports with
  | unknown marked =>
      rw [Json.marked?_eq_some_iff.1 marked]
      exact .unknown _
  | @literal h unmarked form =>
      have hmem := hu h rfl
      have habsent := hbooks.mints.get?_eq_none hs hmem
      rw [form?_model] at form
      obtain ⟨o, ho, rfl⟩ := Option.map_eq_some_iff.1 form
      have hcount : o.count = 1 := by
        rw [← Store.counts_of_get? ho, hbooks.moves.counts, (hs.counts_eq_zero_iff h).2 habsent,
          List.count_eq_one_of_mem hbooks.mints.nodup hmem]
        rfl
      refine .object (fun x hx => ?_) habsent (ho.trans (congrArg some ?_))
      · cases unmarked.symm.trans (Json.marked?_eq_some_iff.2 hx)
      · rw [← hcount]

/-- A file is imported just when its markers are well formed and the mappings of each proof have the
same names. Then exporting the proofs gives back the file; every value that is no marker has become
an object of its own, with one count; and what was in the store is there unchanged. -/
theorem importProofs_exact (hs : s.Sound) (file : List PortableProof) :
    ((∃ ps s', (functions.model.importProofs file).run s = (.ok ps, s')) ↔
      ∀ pp ∈ file, pp.Importable) ∧
    ∀ ps s', (functions.model.importProofs file).run s = (.ok ps, s') →
      functions.Imported s file ps s' := by
  have hends := functions.importProofs_ends file hs
  refine ⟨⟨fun ⟨ps, s', hr⟩ => (hends.of_run_ok hr).1, fun hfile => ?_⟩, fun ps s' hr => ?_⟩
  · rcases hends.cases with ⟨ps, s', hr, -⟩ | ⟨f, s', -, hnot⟩
    · exact ⟨ps, s', hr⟩
    · exact absurd hfile hnot
  obtain ⟨-, hbooks⟩ := hends.of_run_ok hr
  have hholds : Holds (fun _ => True) s := ⟨hs, fun _ _ _ => trivial⟩
  obtain ⟨-, himports, -⟩ := Model.importProofs_ok functions.interns hholds hr
  have hplaces : List.Forall₂ (fun v u => Value.Imports (functions.model.form? s') v u)
      (file.flatMap PortableProof.values) (ps.flatMap Proof.values) :=
    List.rel_flatMap himports fun _ _ h => forall₂_values h.parameters h.result h.mappings
  refine {
    exports := himports.flip.imp fun _ _ h => functions.exports_of_imports h
    interned := ?_
    distinct := hbooks.mints.nodup
    kept := (hbooks.extends hs).kept
    added := ?_ }
  · refine (forall₂_imp_mem hplaces.flip fun u hu v himport =>
      interned_of_imports functions hbooks hs (fun h heq => ?_) himport).flip
    exact List.mem_filterMap.2 ⟨u, hu, by rw [heq]; rfl⟩
  · intro h o ho
    by_cases hmem : h ∈ handlesOf ps
    · exact .inr hmem
    · rw [hbooks.moves.get?_eq hs (by rw [List.count_eq_zero_of_not_mem hmem]; rfl)] at ho
      exact .inl ho

/-- A marker inside another value is left alone, and one value in two places is two objects. -/
def nestedMarker : PortableProof where
  label := ⟨"pair", [.object [("inside", .ofUnknown "x")]], [.ofUnknown "x", .int 1]⟩
  mappings := [.ofList [("k", .int 1)], .ofList [("k", .ofUnknown "y")]]

theorem nestedMarker_imported : truths.Sound ∧ nestedMarker.Importable ∧
    ∃ ps s', (untilTails.model.importProofs [nestedMarker]).run truths = (.ok ps, s') ∧
      untilTails.Imported truths [nestedMarker] ps s' ∧
      handlesOf ps = [⟨2⟩, ⟨3⟩, ⟨4⟩] := by
  have hs : truths.Sound := truths_holds.1
  have hexact := untilTails.importProofs_exact hs [nestedMarker]
  have hgiven : ((untilTails.model.importProofs [nestedMarker]).run truths).1.map handlesOf
      = .ok [⟨2⟩, ⟨3⟩, ⟨4⟩] := by decide +kernel
  rcases hr : (untilTails.model.importProofs [nestedMarker]).run truths with ⟨f | ps, s'⟩ <;>
    rw [hr] at hgiven
  · cases hgiven
  · exact ⟨hs, hexact.1.1 ⟨ps, s', hr⟩ _ List.mem_cons_self, ps, s', rfl, hexact.2 ps s' hr,
      Except.ok.inj hgiven⟩

end Library

end ChanceProof
