import ChanceProof.Proof.Portable
import ChanceProof.Proofs.Evaluation.Account
import ChanceProof.Proofs.Model.Library

/-!
# Importing proofs

Every value of a proof file that is no marker is interned as an object of its own, which has the
value for its form; a marker becomes the unknown that it names. So an import that succeeds yields
for each proof of the file a proof with the same names in its mappings and with these values at the
same places: `Model.importProofs_ok`.
-/

namespace ChanceProof

/-! ## Markers -/

namespace Json

/-- The unknown that a value marks, if it is a marker. -/
def marked? : Json → Option String
  | .object [(k, .string name)] => if k = unknownKey then some name else none
  | _ => none

theorem marked?_eq_some_iff {v : Json} {x : String} : v.marked? = some x ↔ v = .ofUnknown x := by
  constructor
  · intro h
    unfold marked? at h
    split at h
    · split at h
      · next hk =>
          cases h
          rw [hk]
          rfl
      · cases h
    · cases h
  · rintro rfl
    rfl

/-- Where importing accepts a value, it takes just the markers for unknowns. -/
theorem marked?_of_unknown? {v : Json} {x : Option String} (h : v.unknown? = .ok x) :
    v.marked? = x := by
  unfold unknown? at h
  split at h
  · next hnone =>
      cases h
      cases hx : v.marked? with
      | none => rfl
      | some x =>
          rw [marked?_eq_some_iff.1 hx] at hnone
          cases hnone
  · next name hname =>
      split at h
      · next f s =>
          cases h
          obtain ⟨k, v⟩ := f
          rw [field?, List.lookup_cons] at hname
          split at hname
          · next hk =>
              cases hname
              exact if_pos (beq_iff_eq.1 hk).symm
          · cases hname
      · cases h

end Json

/-! ## What is imported -/

/-- The value is the unknown that is marked, or stands for an object with the value in the file. -/
inductive Value.Imports (φ : Handle → Option Json) : Json → Value → Prop
  | unknown {v : Json} {x : String} (marked : v.marked? = some x) : Imports φ v (.unknown x)
  | literal {v : Json} {h : Handle} (unmarked : v.marked? = none) (form : φ h = some v) :
    Imports φ v (.literal h)

/-- The proof in the file, with its values imported. -/
structure Proof.Imports (φ : Handle → Option Json) (pp : PortableProof) (p : Proof) : Prop where
  function : pp.label.function = p.label.call.function
  parameters : List.Forall₂ (Value.Imports φ) pp.label.parameters p.label.call.parameters
  result : List.Forall₂ (Value.Imports φ) pp.label.result p.label.result
  mappings : List.Forall₂ (Dictionary.Related (Value.Imports φ)) pp.mappings p.mappings

theorem Value.Imports.mono {φ ψ : Handle → Option Json} (hle : ∀ h v, φ h = some v → ψ h = some v)
    {v : Json} {u : Value} (h : u.Imports φ v) : u.Imports ψ v := by
  cases h with
  | unknown hx => exact .unknown hx
  | literal hv hform => exact .literal hv (hle _ _ hform)

theorem Proof.Imports.mono {φ ψ : Handle → Option Json} (hle : ∀ h v, φ h = some v → ψ h = some v)
    {pp : PortableProof} {p : Proof} (h : p.Imports φ pp) : p.Imports ψ pp :=
  ⟨h.function, h.parameters.imp fun _ _ => .mono hle, h.result.imp fun _ _ => .mono hle,
    h.mappings.imp fun _ _ hm => hm.imp fun _ _ he => ⟨he.1, he.2.mono hle⟩⟩

/-- Entries with the keys of a dictionary are in order. -/
theorem Dictionary.entries_ofList {α β : Type} {m : Dictionary α} {es : List (String × β)}
    (h : List.Forall₂ (fun e e' => e.1 = e'.1) m.entries es) : (ofList es).entries = es := by
  have hkeys : m.entries.map Prod.fst = es.map Prod.fst :=
    List.forall₂_eq_eq_eq ▸ List.forall₂_map_left_iff.2 (List.forall₂_map_right_iff.2 h)
  exact Keyed.ofList_of_sorted (List.pairwise_map.1 (hkeys ▸ m.keys_ascend))

theorem Dictionary.related_ofList {α β : Type} {R : α → β → Prop} {m : Dictionary α}
    {es : List (String × β)} (h : List.Forall₂ (fun e e' => e.1 = e'.1 ∧ R e.2 e'.2) m.entries es) :
    m.Related R (.ofList es) := by
  unfold Related
  rw [entries_ofList (h.imp fun _ _ he => he.1)]
  exact h

/-! ## Importing -/

namespace Model

variable {σ : Type} {M : Model σ} {I : σ → Prop}

/-- An interned object has the form that was given, and those before keep theirs. -/
def Interns (M : Model σ) (I : σ → Prop) : Prop :=
  ∀ {v h w w'}, I w → (M.fromExternal v).run w = (.ok h, w') →
    M.Later I w w' ∧ M.form? w' h = some v

variable (hM : M.Interns I)

include hM

theorem importValue_ok {v : Json} {u : Value} {w w' : σ} (hw : I w)
    (hr : (M.importValue v).run w = (.ok u, w')) :
    M.Later I w w' ∧ u.Imports (M.form? w') v := by
  obtain ⟨x, w₁, hx, hr⟩ := Action.run_bind_ok.1 hr
  obtain ⟨hmarked, rfl⟩ := Action.run_liftM_ok.1 hx
  cases x with
  | some x =>
      obtain ⟨rfl, rfl⟩ := Action.run_pure_ok.1 hr
      exact ⟨.refl w, .unknown (Json.marked?_of_unknown? hmarked)⟩
  | none =>
      obtain ⟨h, w₂, hh, hr⟩ := Action.run_bind_ok.1 hr
      obtain ⟨rfl, rfl⟩ := Action.run_pure_ok.1 hr
      obtain ⟨hlater, hform⟩ := hM hw hh
      exact ⟨hlater, .literal (Json.marked?_of_unknown? hmarked) hform⟩

theorem importValues_ok {vs : List Json} {us : List Value} {w w' : σ} (hw : I w)
    (hr : (vs.mapM M.importValue).run w = (.ok us, w')) :
    M.Later I w w' ∧ List.Forall₂ (fun v u => u.Imports (M.form? w') v) vs us :=
  mapM_ok (I := I) (P := fun _ _ => True) (Q := fun v u w => u.Imports (M.form? w) v)
    (fun _ _ _ _ _ => trivial) (fun _ _ _ _ hle h => h.mono hle)
    (fun _ _ _ _ hw _ => importValue_ok hM hw) hw (fun _ _ => trivial) hr

theorem importMapping_ok {d : Dictionary Json} {m : Mapping} {w w' : σ} (hw : I w)
    (hr : (M.importMapping d).run w = (.ok m, w')) :
    M.Later I w w' ∧ d.Related (fun v u => u.Imports (M.form? w') v) m := by
  obtain ⟨es, w₁, hes, hr⟩ := Action.run_bind_ok.1 hr
  obtain ⟨rfl, rfl⟩ := Action.run_pure_ok.1 hr
  have hentries := mapM_ok (I := I) (P := fun _ _ => True)
    (Q := fun (e : String × Json) (e' : String × Value) w =>
      e.1 = e'.1 ∧ e'.2.Imports (M.form? w) e.2)
    (fun _ _ _ _ _ => trivial) (fun _ _ _ _ hle h => ⟨h.1, h.2.mono hle⟩)
    (fun e e' w w' hw _ he => ?_) hw (fun _ _ => trivial) hes
  · exact ⟨hentries.1, Dictionary.related_ofList hentries.2⟩
  · obtain ⟨u, w₁, hu, he⟩ := Action.run_bind_ok.1 he
    obtain ⟨rfl, rfl⟩ := Action.run_pure_ok.1 he
    obtain ⟨hlater, himports⟩ := importValue_ok hM hw hu
    exact ⟨hlater, rfl, himports⟩

theorem importProof_ok {pp : PortableProof} {p : Proof} {w w' : σ} (hw : I w)
    (hr : (M.importProof pp).run w = (.ok p, w')) :
    M.Later I w w' ∧ p.Imports (M.form? w') pp ∧ Proof.check p.label p.mappings = .ok () := by
  obtain ⟨l, w₁, hl, hr⟩ := Action.run_bind_ok.1 hr
  obtain ⟨ms, w₂, hms, hr⟩ := Action.run_bind_ok.1 hr
  obtain ⟨hmake, rfl⟩ := Action.run_liftM_ok.1 hr
  obtain ⟨hcheck, rfl⟩ := Proof.make_eq_ok_iff.1 hmake
  obtain ⟨us, w₃, hus, hl⟩ := Action.run_bind_ok.1 hl
  obtain ⟨rs, w₄, hrs, hl⟩ := Action.run_bind_ok.1 hl
  obtain ⟨rfl, rfl⟩ := Action.run_pure_ok.1 hl
  obtain ⟨hlater₁, hparameters⟩ := importValues_ok hM hw hus
  obtain ⟨hw₃, -⟩ := hlater₁ hw
  obtain ⟨hlater₂, hresult⟩ := importValues_ok hM hw₃ hrs
  obtain ⟨hw₄, hle₂⟩ := hlater₂ hw₃
  obtain ⟨hlater₃, hmappings⟩ := mapM_ok (I := I) (P := fun _ _ => True)
    (Q := fun (d : Dictionary Json) m w => d.Related (fun v u => u.Imports (M.form? w) v) m)
    (fun _ _ _ _ _ => trivial)
    (fun _ _ _ _ hle h => List.Forall₂.imp (fun _ _ he => ⟨he.1, he.2.mono hle⟩) h)
    (fun _ _ _ _ hw _ => importMapping_ok hM hw) hw₄ (fun _ _ => trivial) hms
  obtain ⟨-, hle₃⟩ := hlater₃ hw₄
  refine ⟨(hlater₁.trans hlater₂).trans hlater₃, ⟨rfl, ?_, ?_, hmappings⟩, hcheck⟩
  · exact hparameters.imp fun _ _ h => (h.mono hle₂).mono hle₃
  · exact hresult.imp fun _ _ h => h.mono hle₃

/-- The proofs of a file are imported one by one, and each is a proof. -/
theorem importProofs_ok {file : List PortableProof} {ps : List Proof} {w w' : σ} (hw : I w)
    (hr : (M.importProofs file).run w = (.ok ps, w')) :
    M.Later I w w' ∧ List.Forall₂ (fun pp p => p.Imports (M.form? w') pp) file ps ∧
      ∀ p ∈ ps, Proof.check p.label p.mappings = .ok () := by
  obtain ⟨hlater, hproofs⟩ := mapM_ok (I := I) (P := fun _ _ => True)
    (Q := fun (pp : PortableProof) (p : Proof) w =>
      p.Imports (M.form? w) pp ∧ Proof.check p.label p.mappings = .ok ())
    (fun _ _ _ _ _ => trivial) (fun _ _ _ _ hle h => ⟨h.1.mono hle, h.2⟩)
    (fun _ _ _ _ hw _ => importProof_ok hM hw) hw (fun _ _ => trivial) hr
  refine ⟨hlater, hproofs.imp fun _ _ h => h.1, fun p hp => ?_⟩
  obtain ⟨pp, -, -, hcheck⟩ := exists_of_forall₂_mem hproofs hp
  exact hcheck

end Model

/-- A library interns any value. -/
theorem Library.interns (functions : Library) :
    functions.model.Interns (Library.Holds fun _ => True) := by
  intro v h w w' hw hr
  obtain ⟨h', s', hr', hs', hform, hkept⟩ :=
    Library.Holds.of_fromExternal functions hw (v := v) trivial
  cases hr.symm.trans hr'
  refine ⟨fun _ => ⟨hs', fun a u ha => ?_⟩, ?_⟩
  · rw [Library.form?_model] at ha ⊢
    exact hkept a u ha
  · rwa [Library.form?_model]

end ChanceProof
