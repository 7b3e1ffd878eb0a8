import ChanceProof.Proofs.Distribution.Sketch
import ChanceProof.Proofs.Model.Lockstep
import ChanceProof.Proofs.Wire.RoundTrip
import ChanceProof.Wire.Proofs

/-!
# The codecs of the wire

Every type of the wire has an encoder and a decoder, and the two belong together: what is encoded
decodes to itself, and whatever a text decodes to can be encoded again. The second of these needs to
know what a decoder can find at all. `Decoder.Yields` says that, and it is carried through lists,
records and tagged values just as `Decoder.Finds` is.

A distribution and a proof are checked when they are decoded. Neither check refuses what was made
before, and whatever they let pass can be made.
-/

namespace ChanceProof

namespace Decoder

variable {α β σ : Type} {decode : Decoder α} {P : α → Prop} {Q : β → Prop}

/-! ## What a decoder finds -/

/-- Whatever the decoder finds, it has this property. -/
def Yields (decode : Decoder α) (P : α → Prop) : Prop := ∀ d x, decode d = .ok x → P x

theorem inside_ok_iff {d : Document} {x : α} : inside decode d = .ok x ↔ decode d = .ok x :=
  mapError_ok

theorem ending_ok {closed : Bool} {x y : α} (h : ending closed x = .ok y) : x = y := by
  unfold ending at h
  split at h
  · exact Except.ok.inj h
  · cases h

theorem mismatch_ne_ok (expected : String) (d : Document) (x : α) :
    mismatch expected d ≠ .ok x := by
  intro h
  unfold mismatch at h
  split at h
  all_goals cases h

theorem yields_natural : natural.Yields (· < unsignedLimit) := by
  intro d n h
  unfold natural at h
  split at h
  · next i =>
      split at h
      · next hrange =>
          cases h
          show i.toNat < unsignedLimit
          omega
      · cases h
  · exact absurd h (mismatch_ne_ok _ _ _)

theorem yields_integer : integer.Yields fun i => -(signedLimit : Int) ≤ i ∧ i < signedLimit := by
  intro d i h
  unfold integer at h
  split at h
  · split at h
    · next hrange =>
        cases h
        exact hrange
    · cases h
  · exact absurd h (mismatch_ne_ok _ _ _)

theorem yields_true : decode.Yields fun _ => True := fun _ _ _ => trivial

/-- What is done with the finding may rely on what the decoder yields. -/
theorem Yields.bind {f : α → Except Fault β} (h : decode.Yields P)
    (hf : ∀ x y, P x → f x = .ok y → Q y) : Decoder.Yields (fun d => decode d >>= f) Q := by
  intro d y hy
  obtain ⟨x, hx, hy⟩ := bind_eq_ok_iff.1 hy
  exact hf x y (h d x hx) hy

theorem Yields.map {f : α → β} (h : decode.Yields fun x => Q (f x)) :
    Decoder.Yields (fun d => do return f (← decode d)) Q := by
  refine h.bind fun x y hx hy => ?_
  cases pure_eq_ok_iff.1 hy
  exact hx

/-- What was made by a check is known to be checked. -/
theorem Yields.checkedBy {make : α → Except Failure β} (h : decode.Yields P)
    (hmake : ∀ x y, P x → make x = .ok y → Q y) :
    Decoder.Yields (fun d => decode d >>= fun x => Decoder.checkedBy (make x)) Q :=
  h.bind fun x y hx hy => hmake x y hx (mapError_ok.1 hy)

theorem Yields.list (h : decode.Yields P) : (list decode).Yields fun xs => ∀ x ∈ xs, P x := by
  intro d xs hxs
  unfold Decoder.list at hxs
  split at hxs
  · obtain ⟨ys, hys, hend⟩ := bind_eq_ok_iff.1 hxs
    obtain rfl := ending_ok hend
    intro x hx
    obtain ⟨d, -, hd⟩ := exists_of_forall₂_mem (mapM_ok_iff.1 hys) hx
    exact h d x (inside_ok_iff.1 hd)
  · cases hxs
  · exact absurd hxs (mismatch_ne_ok _ _ _)

theorem Yields.fields (h : decode.Yields P) :
    (fields decode).Yields fun entries => ∀ e ∈ entries, P e.2 := by
  have hlist : ∀ (fs : List (Option String × Document)) (entries : List (String × α)),
      fieldList decode fs = .ok entries → ∀ e ∈ entries, P e.2 := by
    intro fs
    induction fs with
    | nil =>
        intro entries hentries
        cases hentries
        exact fun e he => (nomatch he)
    | cons f fs ih =>
        obtain ⟨key, d⟩ := f
        intro entries hentries
        cases key with
        | none => cases hentries
        | some key =>
            obtain ⟨x, hx, hentries⟩ := bind_eq_ok_iff.1 hentries
            obtain ⟨rest, hrest, hentries⟩ := bind_eq_ok_iff.1 hentries
            cases pure_eq_ok_iff.1 hentries
            intro e he
            cases List.mem_cons.1 he with
            | inl heq =>
                rw [heq]
                exact h d x (inside_ok_iff.1 hx)
            | inr he => exact ih rest hrest e he
  intro d entries hentries
  unfold Decoder.fields at hentries
  split at hentries
  · obtain ⟨found, hfound, hend⟩ := bind_eq_ok_iff.1 hentries
    obtain rfl := ending_ok hend
    exact hlist _ found hfound
  · cases hentries
  · exact absurd hentries (mismatch_ne_ok _ _ _)

/-! ## Records -/

section

variable {I : σ → Prop} {slots : List (Slot σ)}
  (hslots : ∀ slot ∈ slots, ∀ s, I s → (slot.read s).Yields I)

include hslots

/-- A field is read by its slot, and unknown fields change nothing. -/
theorem recordFields_keeps {fs : List (Option String × Document)} {seen : List String} {s t : σ}
    (hs : I s) (h : recordFields slots seen s fs = .ok t) : I t := by
  induction fs generalizing seen s with
  | nil =>
      cases h
      exact hs
  | cons f fs ih =>
      obtain ⟨key, d⟩ := f
      cases key with
      | none => cases h
      | some key =>
          rw [recordFields] at h
          cases hslot : slots.find? (·.name == key) with
          | none =>
              simp only [hslot] at h
              split at h
              · exact ih hs h
              · cases h
          | some slot =>
              simp only [hslot] at h
              split at h
              · cases h
              · obtain ⟨s', hread, h⟩ := bind_eq_ok_iff.1 h
                exact ih (hslots slot (List.mem_of_find?_eq_some hslot) s hs d s'
                  (inside_ok_iff.1 hread)) h

/-- The items of an array are read by the slots in their order. -/
theorem recordItems_keeps {items : List Document} {closed : Bool} {s t : σ} (hs : I s)
    (h : recordItems closed slots s items = .ok t) : I t := by
  induction items generalizing slots s with
  | nil =>
      rw [recordItems] at h
      rw [← ending_ok h]
      exact hs
  | cons d items ih =>
      cases slots with
      | nil => cases h
      | cons slot slots =>
          obtain ⟨s', hread, h⟩ := bind_eq_ok_iff.1 h
          have hs' := hslots slot List.mem_cons_self s hs d s' (inside_ok_iff.1 hread)
          exact ih (fun x hx => hslots x (List.mem_cons_of_mem _ hx)) hs' h

end

/-- What holds at the start of a record and is kept by each of its slots holds at the end, be the
record an object or an array. -/
theorem Yields.record {I : σ → Prop} {slots : List (Slot σ)} {start : σ} (hstart : I start)
    (hslots : ∀ slot ∈ slots, ∀ s, I s → (slot.read s).Yields I) :
    (record slots start).Yields I := by
  intro d t h
  unfold Decoder.record at h
  split at h
  · obtain ⟨s, hs, hend⟩ := bind_eq_ok_iff.1 h
    obtain rfl := ending_ok hend
    exact recordFields_keeps hslots hstart hs
  · exact recordItems_keeps hslots hstart h
  · cases h
  · exact absurd h (mismatch_ne_ok _ _ _)

/-- A slot may change the state only by what its decoder yields. -/
theorem yields_slot {I : σ → Prop} {name : String} {keep : σ → α → σ} (h : decode.Yields P) {s : σ}
    (hkeep : ∀ x, P x → I (keep s x)) : ((slot name decode keep).read s).Yields I := by
  intro d t ht
  cases hd : decode d with
  | error fault =>
      simp only [slot, hd] at ht
      cases ht
  | ok x =>
      simp only [slot, hd] at ht
      cases ht
      exact hkeep x (h d x hd)

theorem required_ok {name : String} {found : Option α} {x : α} (h : required name found = .ok x) :
    found = some x := by
  cases found with
  | none => cases h
  | some y => rw [Except.ok.inj h]

theorem Yields.oneField {name : String} (h : decode.Yields P) :
    (oneField name decode).Yields P := by
  have hrecord : (Decoder.record [slot name decode fun _ v => some v] none).Yields
      fun found => ∀ x, found = some x → P x := by
    refine .record (fun x hx => nomatch hx) fun slot hslot s _ => ?_
    obtain rfl := List.mem_singleton.1 hslot
    refine yields_slot h fun x hx y hy => ?_
    cases hy
    exact hx
  exact hrecord.bind fun found x hfound hx => hfound x (required_ok hx)

theorem Yields.twoFields {decode₂ : Decoder β} {a b : String} (h : decode.Yields P)
    (h₂ : decode₂.Yields Q) : (twoFields a decode b decode₂).Yields fun p => P p.1 ∧ Q p.2 := by
  have hrecord : (Decoder.record [slot a decode fun (s : Option α × Option β) v => (some v, s.2),
      slot b decode₂ fun s v => (s.1, some v)] (none, none)).Yields
      fun s => (∀ x, s.1 = some x → P x) ∧ ∀ y, s.2 = some y → Q y := by
    refine .record ⟨(fun x hx => nomatch hx), fun y hy => nomatch hy⟩ fun slot hslot s hs => ?_
    simp only [List.mem_cons, List.not_mem_nil, or_false] at hslot
    cases hslot with
    | inl heq =>
        rw [heq]
        exact yields_slot h fun x hx => ⟨fun y hy => Option.some.inj hy ▸ hx, hs.2⟩
    | inr heq =>
        rw [heq]
        exact yields_slot h₂ fun x hx => ⟨hs.1, fun y hy => Option.some.inj hy ▸ hx⟩
  refine hrecord.bind fun s p hs hp => ?_
  obtain ⟨x, hx, hp⟩ := bind_eq_ok_iff.1 hp
  obtain ⟨y, hy, hp⟩ := bind_eq_ok_iff.1 hp
  cases pure_eq_ok_iff.1 hp
  exact ⟨hs.1 x (required_ok hx), hs.2 y (required_ok hy)⟩

theorem Yields.labelled {label : Decoder α} {mapping : Decoder β} (h : label.Yields P)
    (hmapping : mapping.Yields Q) :
    (labelAndMappings label mapping).Yields fun p => P p.1 ∧ ∀ m ∈ p.2, Q m := by
  have hrecord : (Decoder.record [slot "label" label fun (s : Option α × List β) v => (some v, s.2),
      slot "mappings" (Decoder.list mapping) fun s v => (s.1, v)] (none, [])).Yields
      fun s => (∀ x, s.1 = some x → P x) ∧ ∀ m ∈ s.2, Q m := by
    refine .record ⟨(fun x hx => nomatch hx), fun m hm => nomatch hm⟩ fun slot hslot s hs => ?_
    simp only [List.mem_cons, List.not_mem_nil, or_false] at hslot
    cases hslot with
    | inl heq =>
        rw [heq]
        exact yields_slot h fun x hx => ⟨fun y hy => Option.some.inj hy ▸ hx, hs.2⟩
    | inr heq =>
        rw [heq]
        exact yields_slot hmapping.list fun ms hms => ⟨hs.1, hms⟩
  refine hrecord.bind fun s p hs hp => ?_
  obtain ⟨x, hx, hp⟩ := bind_eq_ok_iff.1 hp
  cases pure_eq_ok_iff.1 hp
  exact ⟨hs.1 x (required_ok hx), hs.2⟩

/-! ## Tagged values -/

theorem variantOf_ok {variant : String → Option (Decoder α)} {d : Document}
    (h : variantOf variant d = .ok decode) : ∃ name, variant name = some decode := by
  obtain ⟨name, _, h⟩ := bind_eq_ok_iff.1 h
  cases hname : variant name with
  | none =>
      rw [hname] at h
      cases h
  | some found =>
      rw [hname] at h
      cases h
      exact ⟨name, hname⟩

theorem buffered_ok {d : Document} {x : α} (h : buffered decode d = .ok x) : decode d = .ok x := by
  unfold buffered at h
  split at h
  · cases h
  · exact h

/-- The decoder that the fields of a tagged value go to is one that a tag chooses. -/
theorem taggedFields_chosen {tag : String} {variant : String → Option (Decoder α)}
    {fs others : List (Option String × Document)} {chosen chosen' : Option (Decoder α)}
    (h : taggedFields tag variant chosen fs = .ok (chosen', others)) :
    chosen' = chosen ∨ ∃ name, variant name = chosen' := by
  induction fs generalizing chosen others with
  | nil =>
      cases h
      exact .inl rfl
  | cons f fs ih =>
      obtain ⟨key, d⟩ := f
      cases key with
      | none => cases h
      | some key =>
          rw [taggedFields] at h
          split at h
          · split at h
            · cases h
            · obtain ⟨decode, hdecode, h⟩ := bind_eq_ok_iff.1 h
              cases ih h with
              | inr hname => exact .inr hname
              | inl heq =>
                  rw [heq]
                  exact .inr (variantOf_ok (inside_ok_iff.1 hdecode))
          · obtain ⟨_, _, h⟩ := bind_eq_ok_iff.1 h
            obtain ⟨⟨chosen'', others'⟩, hrest, h⟩ := bind_eq_ok_iff.1 h
            cases pure_eq_ok_iff.1 h
            exact ih hrest

theorem Yields.tagged {tag : String} {variant : String → Option (Decoder α)}
    (h : ∀ name decode, variant name = some decode → decode.Yields P) :
    (tagged tag variant).Yields P := by
  intro d x hx
  unfold Decoder.tagged at hx
  split at hx
  · obtain ⟨⟨chosen, others⟩, hfields, hx⟩ := bind_eq_ok_iff.1 hx
    obtain ⟨chosen', hend, hx⟩ := bind_eq_ok_iff.1 hx
    obtain rfl := ending_ok hend
    obtain ⟨decode, hdecode, hx⟩ := bind_eq_ok_iff.1 hx
    obtain rfl := required_ok hdecode
    cases taggedFields_chosen hfields with
    | inl heq => cases heq
    | inr hname =>
        obtain ⟨name, hname⟩ := hname
        exact h name decode hname _ x (buffered_ok (inside_ok_iff.1 hx))
  · obtain ⟨decode, hdecode, hx⟩ := bind_eq_ok_iff.1 hx
    obtain ⟨_, _, hx⟩ := bind_eq_ok_iff.1 hx
    obtain ⟨rest, _, hx⟩ := bind_eq_ok_iff.1 hx
    obtain ⟨name, hname⟩ := variantOf_ok (inside_ok_iff.1 hdecode)
    exact h name decode hname _ x (buffered_ok (inside_ok_iff.1 hx))
  · split at hx
    all_goals cases hx
  · cases hx
  · exact absurd hx (mismatch_ne_ok _ _ _)

/-! ## Dictionaries, and records that may leave out a list -/

theorem fieldList_ok {g : α → Json} {entries : List (String × α)}
    (h : ∀ e ∈ entries, decode (Document.ofJson (g e.2)) = .ok e.2) :
    fieldList decode (Document.ofFields (entries.map fun e => (e.1, g e.2))) = .ok entries := by
  induction entries with
  | nil => rfl
  | cons e entries ih =>
      have hhead := inside_ok (h e List.mem_cons_self)
      rw [List.map_cons, Document.ofFields, fieldList, hhead,
        ih fun f hf => h f (List.mem_cons_of_mem _ hf)]
      rfl

/-- The keys of a dictionary are in order, so writing it in key order changes its values only. -/
theorem Finds.dictionary {encode : α → Json} {entries : Dictionary α}
    (h : ∀ e ∈ entries.entries, decode.Finds (encode e.2) e.2) :
    Decoder.Finds (fun d => do return Dictionary.ofList (← Decoder.fields decode d))
      (.object (entries.entries.map fun e => (e.1, encode e.2))) entries := by
  have hsame : Dictionary.ofList entries.entries = entries :=
    Dictionary.ext (Keyed.ofList_of_sorted entries.sorted)
  have hfound : ∀ g : α → Json,
      (∀ e ∈ entries.entries, decode (Document.ofJson (g e.2)) = .ok e.2) →
      (do return Dictionary.ofList (← Decoder.fields decode
        (Document.ofJson (.object (entries.entries.map fun e => (e.1, g e.2)))))
          : Except Fault (Dictionary α)) = .ok entries := by
    intro g hg
    rw [Document.ofJson, Decoder.fields, fieldList_ok hg]
    exact congrArg Except.ok hsame
  refine ⟨hfound encode fun e he => (h e he).1, ?_⟩
  have hsorted : (Json.object (entries.entries.map fun e => (e.1, encode e.2))).sorted
      = .object (entries.entries.map fun e => (e.1, (encode e.2).sorted)) := by
    rw [Json.sorted, Document.sortedFields_eq_map, List.map_map]
    exact congrArg Json.object (Keyed.ofList_of_sorted (List.pairwise_map.2 entries.sorted))
  rw [hsorted]
  exact hfound (fun x => (encode x).sorted) fun e he => (h e he).2

theorem Finds.labelled {label : Decoder α} {mapping : Decoder β} {v w : Json} {x : α}
    {ys : List β} (hx : label.Finds v x) (hys : (Decoder.list mapping).Finds w ys) :
    (labelAndMappings label mapping).Finds (.object [("label", v), ("mappings", w)]) (x, ys) := by
  have hread : ∀ {v w : Json}, label (Document.ofJson v) = .ok x →
      Decoder.list mapping (Document.ofJson w) = .ok ys →
      labelAndMappings label mapping
        (Document.ofJson (.object [("label", v), ("mappings", w)])) = .ok (x, ys) ∧
      labelAndMappings label mapping
        (Document.ofJson (.object [("mappings", w), ("label", v)])) = .ok (x, ys) := by
    intro v w hv hw
    have hlabel : (slot "label" label fun (s : Option α × List β) v => (some v, s.2)).name
        = "label" := rfl
    have hmappings : (slot "mappings" (Decoder.list mapping)
        fun (s : Option α × List β) v => (s.1, v)).name = "mappings" := rfl
    obtain ⟨hplain, hswapped⟩ := record_two hlabel hmappings (by decide)
      (read_slot hv (none, [])) (read_slot hw _) (read_slot hw _) (read_slot hv _)
    constructor
    · rw [labelAndMappings, Document.ofJson, Document.ofFields, Document.ofFields,
        Document.ofFields, hplain]
      rfl
    · rw [labelAndMappings, Document.ofJson, Document.ofFields, Document.ofFields,
        Document.ofFields, hswapped]
      rfl
  refine ⟨(hread hx.1 hys.1).1, ?_⟩
  cases Json.sorted_twoFields (by decide : "label" ≠ "mappings") v w with
  | inl heq =>
      rw [heq]
      exact (hread hx.2 hys.2).1
  | inr heq =>
      rw [heq]
      exact (hread hx.2 hys.2).2

end Decoder

/-! ## Labels and proofs -/

def Label.InRange (l : Label) : Prop := l.call.InRange ∧ ∀ v ∈ l.result, v.InRange

instance (l : Label) : Decidable l.InRange := inferInstanceAs (Decidable (_ ∧ _))

def Mapping.InRange (m : Mapping) : Prop := ∀ e ∈ m.entries, e.2.InRange

instance (m : Mapping) : Decidable (Mapping.InRange m) := inferInstanceAs (Decidable (∀ e ∈ _, _))

/-- A proof that can be made, with numbers that fit the words that carry them. -/
def Proof.InRange (p : Proof) : Prop :=
  p.label.InRange ∧ (∀ m ∈ p.mappings, Mapping.InRange m) ∧
  Proof.make p.label p.mappings = .ok p

instance (p : Proof) : Decidable p.InRange := inferInstanceAs (Decidable (_ ∧ _ ∧ _))

theorem Label.finds {l : Label} (h : l.InRange) : Label.decode.Finds l.toJson l :=
  ((Call.finds h.1).twoFields (by decide)
    (Decoder.Finds.items fun v hv => Value.finds (h.2 v hv))).map

theorem Label.readable {l : Label} (h : l.InRange) {level : Nat} (hlevel : level + 3 < maxNesting) :
    l.toJson.Readable level :=
  .field (Call.readable h.1 (by omega)) (.field
    (.ofList (by omega) fun v hv => Value.readable (h.2 v hv) (by omega)) (.noFields (by omega)))

theorem Mapping.finds {m : Mapping} (h : Mapping.InRange m) :
    Mapping.decode.Finds (Mapping.toJson m) m :=
  Decoder.Finds.dictionary fun e he => Value.finds (h e he)

theorem Mapping.readable {m : Mapping} (h : Mapping.InRange m) {level : Nat}
    (hlevel : level + 1 < maxNesting) : (Mapping.toJson m).Readable level := by
  refine .object (by omega) fun f hf => ?_
  obtain ⟨e, he, rfl⟩ := List.mem_map.1 hf
  exact Value.readable (h e he) hlevel

/-- A proof passes its check again when it is decoded. -/
theorem Proof.finds {p : Proof} (h : p.InRange) : Proof.decode.Finds p.toJson p := by
  obtain ⟨hlabel, hmappings, hmake⟩ := h
  have hchecked : Decoder.checkedBy (Proof.make p.label p.mappings) = .ok p := by
    rw [hmake]
    rfl
  have hfields := (Label.finds hlabel).labelled
    (Decoder.Finds.items fun m hm => Mapping.finds (hmappings m hm))
  constructor
  · rw [Proof.decode, Proof.toJson]
    simp only [hfields.1]
    exact hchecked
  · rw [Proof.decode, Proof.toJson]
    simp only [hfields.2]
    exact hchecked

theorem Proof.readable {p : Proof} (h : p.InRange) {level : Nat} (hlevel : level + 4 < maxNesting) :
    p.toJson.Readable level :=
  .field (Label.readable h.1 (by omega)) (.field
    (.ofList (by omega) fun m hm => Mapping.readable (h.2.1 m hm) (by omega))
    (.noFields (by omega)))

/-! ## What the decoders of the wire find -/

theorem Value.yields : Value.decode.Yields Value.InRange := by
  refine .tagged fun name decode h => ?_
  unfold Value.variant at h
  split at h
  · cases h
    exact Decoder.yields_natural.oneField.map
  · cases h
    exact (Decoder.yields_natural.twoFields Decoder.yields_natural).map
  · cases h
    exact Decoder.yields_true.map
  · cases h
    exact Decoder.yields_true.map
  · cases h

theorem Handle.yields : Handle.decode.Yields Handle.InRange := by
  refine Value.yields.bind fun v h hv hh => ?_
  split at hh
  · cases pure_eq_ok_iff.1 hh
    exact hv
  · cases hh

theorem Call.yields : Call.decode.Yields Call.InRange :=
  (Decoder.yields_true.twoFields Value.yields.list).bind fun p c hp hc => by
    cases pure_eq_ok_iff.1 hc
    exact hp.2

theorem Assignment.yields : Assignment.decode.Yields Assignment.InRange :=
  (Call.yields.twoFields Decoder.yields_true).bind fun p a hp ha => by
    cases pure_eq_ok_iff.1 ha
    exact hp.1

theorem Distribution.yields : Distribution.decode.Yields Distribution.InRange :=
  (Assignment.yields.list.twoFields Value.yields.list).bind fun p d hp hd => by
    obtain ⟨hassignments, hresult⟩ := Distribution.make_eq_ok_iff.1 (mapError_ok.1 hd)
    rw [Distribution.InRange, hassignments, hresult]
    exact hp

theorem Label.yields : Label.decode.Yields Label.InRange :=
  (Call.yields.twoFields Value.yields.list).bind fun p l hp hl => by
    cases pure_eq_ok_iff.1 hl
    exact hp

theorem Mapping.yields : Mapping.decode.Yields Mapping.InRange :=
  Value.yields.fields.bind fun entries m hentries hm => by
    cases pure_eq_ok_iff.1 hm
    exact fun e he => hentries e (Keyed.mem_of_mem_ofList he)

theorem Proof.yields : Proof.decode.Yields Proof.InRange :=
  (Label.yields.labelled Mapping.yields).bind fun q p hq hp => by
    have hmake := mapError_ok.1 hp
    obtain ⟨_, rfl⟩ := Proof.make_eq_ok_iff.1 hmake
    exact ⟨hq.1, hq.2, hmake⟩

theorem Failure.yields : Failure.decode.Yields Failure.InRange := by
  refine .tagged fun name decode h => ?_
  unfold Failure.variant at h
  split at h
  case h_8 =>
    cases h
    exact Decoder.yields_natural.oneField.map
  case h_9 =>
    cases h
    exact (Decoder.yields_natural.twoFields Decoder.yields_integer).map
  case h_10 =>
    cases h
    exact (Decoder.yields_true.twoFields Decoder.yields_natural).bind fun p f hp hf => by
      cases pure_eq_ok_iff.1 hf
      exact hp.2
  case h_13 => cases h
  all_goals
    cases h
    exact Decoder.yields_true.map

/-! ## Round trips -/

/-- An encoder and a decoder of the values in a range belong together. -/
structure RoundTrips {α : Type} (encode : α → Json) (decode : Decoder α) (InRange : α → Prop) :
    Prop where
  /-- The text of a value decodes to the value. -/
  decodes : ∀ x, InRange x → Decoder.ofText decode (encode x).print = .ok x
  /-- What any text decodes to is encoded to a text of its own that decodes to it again. -/
  again : ∀ text x, Decoder.ofText decode text = .ok x →
    Decoder.ofText decode (encode x).print = .ok x
  /-- Different values have different texts. -/
  injective : ∀ x y, InRange x → InRange y → (encode x).print = (encode y).print → x = y

theorem RoundTrips.of_finds {α : Type} {encode : α → Json} {decode : Decoder α}
    {InRange : α → Prop} (hyields : decode.Yields InRange)
    (hfinds : ∀ x, InRange x → decode.Finds (encode x) x)
    (hreadable : ∀ x, InRange x → (encode x).Readable 0) : RoundTrips encode decode InRange := by
  have hdecodes : ∀ x, InRange x → Decoder.ofText decode (encode x).print = .ok x := by
    intro x hx
    exact Decoder.ofText_print (hreadable x hx) (hfinds x hx).1
  refine ⟨hdecodes, fun text x hx => ?_, fun x y hx hy hprint => ?_⟩
  · exact hdecodes x (hyields _ x (Decoder.ofText_ok_iff.1 hx).1)
  · have hback := hdecodes x hx
    rw [hprint, hdecodes y hy] at hback
    exact (Except.ok.inj hback).symm

/-- Every type of the wire round-trips. The numbers of its values fit the words that carry them;
names and texts are any at all. A distribution is one that passes its check, which its type says,
and a proof is one that can be made. -/
theorem wire_roundTrips :
    RoundTrips Value.toJson Value.decode Value.InRange ∧
    RoundTrips Handle.toJson Handle.decode Handle.InRange ∧
    RoundTrips Call.toJson Call.decode Call.InRange ∧
    RoundTrips Assignment.toJson Assignment.decode Assignment.InRange ∧
    RoundTrips Distribution.toJson Distribution.decode Distribution.InRange ∧
    RoundTrips Label.toJson Label.decode Label.InRange ∧
    RoundTrips Mapping.toJson Mapping.decode Mapping.InRange ∧
    RoundTrips Proof.toJson Proof.decode Proof.InRange ∧
    RoundTrips Failure.toJson Failure.decode Failure.InRange := by
  refine ⟨.of_finds Value.yields (fun _ => Value.finds) ?value,
    .of_finds Handle.yields (fun _ => Handle.finds) ?handle,
    .of_finds Call.yields (fun _ => Call.finds) ?call,
    .of_finds Assignment.yields (fun _ => Assignment.finds) ?assignment,
    .of_finds Distribution.yields (fun _ => Distribution.finds) ?distribution,
    .of_finds Label.yields (fun _ => Label.finds) ?label,
    .of_finds Mapping.yields (fun _ => Mapping.finds) ?mapping,
    .of_finds Proof.yields (fun _ => Proof.finds) ?proof,
    .of_finds Failure.yields (fun _ => Failure.finds) ?failure⟩
  case value => exact fun _ h => Value.readable h (by decide)
  case handle => exact fun _ h => Handle.readable h (by decide)
  case call => exact fun _ h => Call.readable h (by decide)
  case assignment => exact fun _ h => Assignment.readable h (by decide)
  case distribution => exact fun _ h => Distribution.readable h (by decide)
  case label => exact fun _ h => Label.readable h (by decide)
  case mapping => exact fun _ h => Mapping.readable h (by decide)
  case proof => exact fun _ h => Proof.readable h (by decide)
  case failure => exact fun _ h => Failure.readable h (by decide)

/-- The largest handle, an empty name and one of a quote and a line break stand in a proof. -/
example : (Proof.mk ⟨⟨"", [.literal ⟨2 ^ 64 - 1⟩]⟩, [.unknown "\"\n"]⟩
    [Dictionary.empty.insert "" (.unknown ""),
      Dictionary.empty.insert "" (.literal ⟨0⟩)]).InRange := by
  decide

end ChanceProof
