import ChanceProof.Proofs.Json.Reading
import ChanceProof.Wire.Failures

/-!
# What is encoded decodes to itself

A structured value crosses a line in one of two forms: as it is encoded, with the fields of its
objects in the order of their declaration, or in key order. `Decoder.Finds` says that a decoder
finds a value in both of them. It is carried by the rules for lists, records and tagged values, so
each type of the wire has a lemma of a few lines.

The numbers of a structured value are words of a machine where it comes from. Here they are
numbers of any size, so `InRange` says which values are meant.
-/

namespace ChanceProof

namespace Json

/-- Two fields stand in either order. -/
theorem sorted_twoFields {a b : String} (hab : a ≠ b) (v w : Json) :
    (object [(a, v), (b, w)]).sorted = .object [(a, v.sorted), (b, w.sorted)] ∨
    (object [(a, v), (b, w)]).sorted = .object [(b, w.sorted), (a, v.sorted)] := by
  rw [sorted, Document.sortedFields_eq_map]
  simp only [ofFields, List.map_cons, List.map_nil, Keyed.ofList, List.foldl_cons, List.foldl_nil,
    Keyed.insert, if_neg hab.symm]
  split
  · exact .inr rfl
  · exact .inl rfl

/-! What is encoded can be read: its numbers are words, and it is not nested too deep. -/

variable {level : Nat}

theorem Readable.integer {i : Int} (hlow : -(signedLimit : Int) ≤ i) (hhigh : i < unsignedLimit) :
    (int i).Readable level :=
  .number level (Number.readsBack_int hlow hhigh)

theorem Readable.natural {n : Nat} (h : n < unsignedLimit) : (int n).Readable level :=
  .integer (by omega) (by omega)

theorem Readable.noFields (h : level < maxNesting) : (Json.object []).Readable level :=
  .object h fun _ h => absurd h List.not_mem_nil

theorem Readable.field {k : String} {v : Json} {fields : List (String × Json)}
    (hv : v.Readable (level + 1)) (h : (Json.object fields).Readable level) :
    (Json.object ((k, v) :: fields)).Readable level := by
  cases h with
  | object hlevel hfields =>
      refine .object hlevel fun f hf => ?_
      rcases List.mem_cons.1 hf with rfl | hf
      · exact hv
      · exact hfields f hf

theorem Readable.ofList {α : Type} {encode : α → Json} {xs : List α} (hlevel : level < maxNesting)
    (h : ∀ x ∈ xs, (encode x).Readable (level + 1)) : (ofList encode xs).Readable level := by
  refine .array hlevel fun v hv => ?_
  obtain ⟨x, hx, rfl⟩ := List.mem_map.1 hv
  exact h x hx

end Json

namespace Decoder

variable {α β : Type} {decode : Decoder α} {v : Json} {x : α}

/-- The decoder finds a value in this JSON value, as it stands and in key order. -/
def Finds (decode : Decoder α) (v : Json) (x : α) : Prop :=
  decode (Document.ofJson v) = .ok x ∧ decode (Document.ofJson v.sorted) = .ok x

/-! ## Leaves -/

theorem finds_string (s : String) : string.Finds (.string s) s := ⟨rfl, rfl⟩

theorem finds_natural {n : Nat} (h : n < unsignedLimit) : natural.Finds (.int n) n := by
  have hfound : natural (Document.ofJson (.int n)) = .ok n := by
    have hrange : 0 ≤ (n : Int) ∧ (n : Int) < unsignedLimit := by omega
    rw [Json.int, Document.ofJson, natural, if_pos hrange, Int.toNat_natCast]
  exact ⟨hfound, hfound⟩

theorem finds_integer {i : Int} (hlow : -(signedLimit : Int) ≤ i) (hhigh : i < signedLimit) :
    integer.Finds (.int i) i := by
  have hfound : integer (Document.ofJson (.int i)) = .ok i := by
    rw [Json.int, Document.ofJson, integer, if_pos ⟨hlow, hhigh⟩]
  exact ⟨hfound, hfound⟩

theorem finds_float {x : Float} (h : x.isFinite = true) : float.Finds (.ofFloat x) x := by
  rw [Json.ofFloat, if_pos h]
  exact ⟨rfl, rfl⟩

/-! ## Containers -/

theorem ofItems_eq_map (items : List Json) :
    Document.ofItems items = items.map Document.ofJson := by
  induction items with
  | nil => rw [Document.ofItems, List.map_nil]
  | cons v items ih => rw [Document.ofItems, ih, List.map_cons]

theorem ofFields_append (fields fields' : List (String × Json)) :
    Document.ofFields (fields ++ fields') =
      Document.ofFields fields ++ Document.ofFields fields' := by
  induction fields with
  | nil => rfl
  | cons f fields ih => rw [List.cons_append, Document.ofFields, ih, Document.ofFields,
      List.cons_append]

theorem inside_ok {d : Document} (h : decode d = .ok x) : inside decode d = .ok x := by
  rw [inside, h]
  rfl

theorem mapM_ok {f : β → Except Fault α} {g : α → β} {xs : List α}
    (h : ∀ x ∈ xs, f (g x) = .ok x) : (xs.map g).mapM f = .ok xs := by
  induction xs with
  | nil => rfl
  | cons x xs ih =>
      rw [List.map_cons, List.mapM_cons, h x List.mem_cons_self,
        ih fun y hy => h y (List.mem_cons_of_mem _ hy)]
      rfl

/-- What is found in each item is found in the list of them. -/
theorem Finds.items {encode : α → Json} {xs : List α} (h : ∀ x ∈ xs, decode.Finds (encode x) x) :
    (list decode).Finds (.ofList encode xs) xs := by
  have hlist : ∀ g : α → Json, (∀ x ∈ xs, decode (Document.ofJson (g x)) = .ok x) →
      list decode (Document.ofJson (.array (xs.map g))) = .ok xs := by
    intro g hg
    have hmap : (xs.map (Document.ofJson ∘ g)).mapM (inside decode) = .ok xs :=
      mapM_ok fun x hx => inside_ok (hg x hx)
    rw [Document.ofJson, ofItems_eq_map, List.map_map, list, hmap]
    rfl
  refine ⟨hlist encode fun x hx => (h x hx).1, ?_⟩
  rw [Json.ofList, Json.sorted, Document.sortedItems_eq_map, List.map_map]
  exact hlist _ fun x hx => (h x hx).2

theorem Finds.pair {w : Json} {y : α} (hx : decode.Finds v x) (hy : decode.Finds w y) :
    (Decoder.pair decode).Finds (.array [v, w]) (x, y) := by
  have hpair : ∀ {v w : Json}, decode (Document.ofJson v) = .ok x →
      decode (Document.ofJson w) = .ok y →
      Decoder.pair decode (Document.ofJson (.array [v, w])) = .ok (x, y) := by
    intro v w hv hw
    simp only [Document.ofJson, Document.ofItems, Decoder.pair, List.take, List.mapM_cons,
      List.mapM_nil, inside_ok hv, inside_ok hw]
    rfl
  exact ⟨hpair hx.1 hy.1, hpair hx.2 hy.2⟩

theorem Finds.map {f : α → β} (h : decode.Finds v x) :
    Decoder.Finds (fun d => do return f (← decode d)) v (f x) := by
  constructor
  · simp only [h.1]
    rfl
  · simp only [h.2]
    rfl

/-! ## Records -/

theorem recordFields_cons {σ : Type} {slots : List (Slot σ)} {seen : List String} {s s' : σ}
    {key : String} {d : Document} {field : Slot σ}
    (hslot : slots.find? (·.name == key) = some field) (hseen : key ∉ seen)
    (hread : field.read s d = .ok s') (rest : List (Option String × Document)) :
    recordFields slots seen s ((some key, d) :: rest)
      = recordFields slots (key :: seen) s' rest := by
  rw [recordFields, hslot]
  simp only [List.contains_eq_mem, hseen, decide_false, Bool.false_eq_true, if_false,
    inside_ok hread]
  rfl

section

variable {a b : String} {decode₁ : Decoder α} {decode₂ : Decoder β} {v w : Json} {x : α} {y : β}

theorem read_slot {σ : Type} {keep : σ → α → σ} {d : Document} (h : decode d = .ok x) (s : σ) :
    (slot a decode keep).read s d = .ok (keep s x) := by
  rw [slot]
  simp only [h]
  rfl

theorem oneField_ok {d : Document} (h : decode₁ d = .ok x) :
    oneField a decode₁ (.object [(some a, d)] true) = .ok x := by
  have hslot : [slot a decode₁ fun (_ : Option α) v => some v].find? (·.name == a)
      = some (slot a decode₁ fun _ v => some v) := by simp [slot]
  have hread := recordFields_cons hslot List.not_mem_nil (read_slot h none) []
  rw [oneField, record, hread]
  rfl

/-- A record of two fields is read in either order of them. -/
theorem record_two {σ : Type} {first second : Slot σ} (hfirst : first.name = a)
    (hsecond : second.name = b) (hab : a ≠ b) {d e : Document} {s s₁ s₂ t : σ}
    (hd : first.read s d = .ok s₁) (he : second.read s₁ e = .ok t)
    (he' : second.read s e = .ok s₂) (hd' : first.read s₂ d = .ok t) :
    record [first, second] s (.object [(some a, d), (some b, e)] true) = .ok t ∧
    record [first, second] s (.object [(some b, e), (some a, d)] true) = .ok t := by
  have hfindFirst : [first, second].find? (·.name == a) = some first := by simp [hfirst]
  have hfindSecond : [first, second].find? (·.name == b) = some second := by
    simp [hfirst, hsecond, hab]
  constructor
  · have hread : recordFields [first, second] [] s [(some a, d), (some b, e)] = .ok t := by
      rw [recordFields_cons hfindFirst List.not_mem_nil hd,
        recordFields_cons hfindSecond (by simpa using hab.symm) he]
      rfl
    rw [record, hread]
    rfl
  · have hread : recordFields [first, second] [] s [(some b, e), (some a, d)] = .ok t := by
      rw [recordFields_cons hfindSecond List.not_mem_nil he',
        recordFields_cons hfindFirst (by simpa using hab) hd']
      rfl
    rw [record, hread]
    rfl

theorem twoFields_ok (hab : a ≠ b) {d e : Document} (hd : decode₁ d = .ok x)
    (he : decode₂ e = .ok y) :
    twoFields a decode₁ b decode₂ (.object [(some a, d), (some b, e)] true) = .ok (x, y) ∧
    twoFields a decode₁ b decode₂ (.object [(some b, e), (some a, d)] true) = .ok (x, y) := by
  have hfirst : (slot a decode₁ fun (s : Option α × Option β) v => (some v, s.2)).name = a := rfl
  have hsecond : (slot b decode₂ fun (s : Option α × Option β) v => (s.1, some v)).name = b := rfl
  obtain ⟨hplain, hswapped⟩ := record_two hfirst hsecond hab (read_slot hd (none, none))
    (read_slot he _) (read_slot he _) (read_slot hd _)
  constructor
  · rw [twoFields, hplain]
    rfl
  · rw [twoFields, hswapped]
    rfl

theorem Finds.oneField (h : decode₁.Finds v x) :
    (Decoder.oneField a decode₁).Finds (.object [(a, v)]) x :=
  ⟨oneField_ok h.1, oneField_ok h.2⟩

theorem Finds.twoFields (hab : a ≠ b) (hx : decode₁.Finds v x) (hy : decode₂.Finds w y) :
    (Decoder.twoFields a decode₁ b decode₂).Finds (.object [(a, v), (b, w)]) (x, y) := by
  refine ⟨(twoFields_ok hab hx.1 hy.1).1, ?_⟩
  have hfound := twoFields_ok hab hx.2 hy.2
  rcases Json.sorted_twoFields hab v w with h | h
  · rw [h]
    exact hfound.1
  · rw [h]
    exact hfound.2

end

/-! ## Tagged values -/

section

variable {tag name : String} {variant : String → Option (Decoder α)}

/-- Fields of other names are left for the decoder that the tag chooses. -/
theorem taggedFields_skip {chosen chosen' : Option (Decoder α)} {fields : List (String × Json)}
    (hfields : ∀ f ∈ fields, f.1 ≠ tag) {rest others : List (Option String × Document)}
    (h : taggedFields tag variant chosen rest = .ok (chosen', others)) :
    taggedFields tag variant chosen (Document.ofFields fields ++ rest)
      = .ok (chosen', Document.ofFields fields ++ others) := by
  induction fields with
  | nil => exact h
  | cons f fields ih =>
      have hjson : json (Document.ofJson f.2) = .ok f.2.sorted := by
        rw [json, Document.value?_ofJson]
      rw [Document.ofFields, List.cons_append, taggedFields, if_neg (hfields f List.mem_cons_self),
        hjson, ih fun g hg => hfields g (List.mem_cons_of_mem _ hg)]
      rfl

theorem tagged_ok (hvariant : variant name = some decode) {before after : List (String × Json)}
    (hbefore : ∀ f ∈ before, f.1 ≠ tag) (hafter : ∀ f ∈ after, f.1 ≠ tag)
    (h : decode (Document.ofJson (.object (before ++ after))) = .ok x) :
    tagged tag variant (Document.ofJson (.object (before ++ (tag, .string name) :: after)))
      = .ok x := by
  have hchosen : inside (variantOf variant) (.string (some name)) = .ok decode := by
    have hvariantOf : variantOf variant (.string (some name)) = .ok decode := by
      simp only [variantOf, string, bind, Except.bind, hvariant]
    exact inside_ok hvariantOf
  have hend : taggedFields tag variant (some decode) [] = .ok (some decode, []) := rfl
  have htag : taggedFields tag variant none
      ((some tag, .string (some name)) :: Document.ofFields after)
        = .ok (some decode, Document.ofFields after) := by
    have hafter' := taggedFields_skip hafter hend
    rw [List.append_nil] at hafter'
    rw [taggedFields, if_pos rfl, if_neg (by simp), hchosen]
    exact hafter'
  rw [Document.ofJson, ofFields_append] at h
  rw [Document.ofJson, ofFields_append, Document.ofFields, Document.ofJson, tagged,
    taggedFields_skip hbefore htag]
  have hbuffered : buffered decode
      (.object (Document.ofFields before ++ Document.ofFields after) true) = .ok x := by
    rw [buffered, h]
  exact inside_ok hbuffered

theorem Finds.tagged (hvariant : variant name = some decode) {fields : List (String × Json)}
    (hfields : ∀ f ∈ fields, f.1 ≠ tag) (h : decode.Finds (.object fields) x) :
    (Decoder.tagged tag variant).Finds (.object ((tag, .string name) :: fields)) x := by
  have hother : ∀ f ∈ Json.sortedFields fields, f.1 ≠ tag := by
    intro f hf
    rw [Document.sortedFields_eq_map] at hf
    obtain ⟨g, hg, rfl⟩ := List.mem_map.1 hf
    exact hfields g hg
  constructor
  · have hnone : ∀ f ∈ ([] : List (String × Json)), f.1 ≠ tag :=
      fun _ h => absurd h List.not_mem_nil
    exact tagged_ok hvariant hnone hfields h.1
  · obtain ⟨before, after, hwith, hwithout⟩ :=
      Keyed.ofList_cons_of_fresh (.string name) hother
    have hmem : ∀ f ∈ before ++ after, f.1 ≠ tag := fun f hf =>
      hother f (Keyed.mem_of_mem_ofList (hwithout ▸ hf))
    have hfound := h.2
    rw [Json.sorted, Json.ofFields, hwithout] at hfound
    rw [Json.sorted, Json.ofFields, Json.sortedFields, Json.sorted, hwith]
    · exact tagged_ok hvariant (fun f hf => hmem f (List.mem_append_left _ hf))
        (fun f hf => hmem f (List.mem_append_right _ hf)) hfound
    all_goals simp

end

end Decoder

/-! ## Values -/

def Handle.InRange (h : Handle) : Prop := h.number < unsignedLimit

instance (h : Handle) : Decidable h.InRange := inferInstanceAs (Decidable (_ < _))

namespace Value

def InRange : Value → Prop
  | .literal h => h.InRange
  | .output call index => call < unsignedLimit ∧ index < unsignedLimit
  | .named _ | .unknown _ => True

instance : (v : Value) → Decidable v.InRange
  | .literal h => inferInstanceAs (Decidable h.InRange)
  | .output _ _ => inferInstanceAs (Decidable (_ ∧ _))
  | .named _ | .unknown _ => inferInstanceAs (Decidable True)

theorem finds {v : Value} (h : v.InRange) : Value.decode.Finds v.toJson v := by
  cases v with
  | literal a => exact (Decoder.finds_natural h).oneField.map.tagged rfl (by simp)
  | output call index =>
      exact ((Decoder.finds_natural h.1).twoFields (by decide)
        (Decoder.finds_natural h.2)).map.tagged rfl (by simp)
  | named name => exact (Decoder.finds_string name).oneField.map.tagged rfl (by simp)
  | unknown name => exact (Decoder.finds_string name).oneField.map.tagged rfl (by simp)

theorem readable {v : Value} (h : v.InRange) {level : Nat} (hlevel : level < maxNesting) :
    v.toJson.Readable level := by
  cases v with
  | literal a => exact .field (.string _ _) (.field (.natural h) (.noFields hlevel))
  | output call index =>
      exact .field (.string _ _) (.field (.natural h.1) (.field (.natural h.2) (.noFields hlevel)))
  | named name => exact .field (.string _ _) (.field (.string _ _) (.noFields hlevel))
  | unknown name => exact .field (.string _ _) (.field (.string _ _) (.noFields hlevel))

end Value

theorem Handle.finds {h : Handle} (hrange : h.InRange) : Handle.decode.Finds h.toJson h := by
  obtain ⟨hplain, hsorted⟩ := Value.finds (v := .literal h) hrange
  constructor
  · rw [Handle.decode, Handle.toJson]
    simp only [hplain]
    rfl
  · rw [Handle.decode, Handle.toJson]
    simp only [hsorted]
    rfl

theorem Handle.readable {h : Handle} (hrange : h.InRange) {level : Nat}
    (hlevel : level < maxNesting) : h.toJson.Readable level :=
  Value.readable (v := .literal h) hrange hlevel

/-! ## Calls and distributions -/

def Call.InRange (c : Call) : Prop := ∀ v ∈ c.parameters, v.InRange

instance (c : Call) : Decidable c.InRange := inferInstanceAs (Decidable (∀ v ∈ _, _))

def Assignment.InRange (a : Assignment) : Prop := a.call.InRange

instance (a : Assignment) : Decidable a.InRange := inferInstanceAs (Decidable a.call.InRange)

def Distribution.InRange (d : Distribution) : Prop :=
  (∀ a ∈ d.assignments, a.InRange) ∧ ∀ v ∈ d.result, v.InRange

instance (d : Distribution) : Decidable d.InRange := inferInstanceAs (Decidable (_ ∧ _))

theorem Call.finds {c : Call} (h : c.InRange) : Call.decode.Finds c.toJson c :=
  ((Decoder.finds_string c.function).twoFields (by decide)
    (Decoder.Finds.items fun v hv => Value.finds (h v hv))).map

theorem Call.readable {c : Call} (h : c.InRange) {level : Nat} (hlevel : level + 2 < maxNesting) :
    c.toJson.Readable level :=
  .field (.string _ _) (.field
    (.ofList (by omega) fun v hv => Value.readable (h v hv) hlevel) (.noFields (by omega)))

theorem Assignment.finds {a : Assignment} (h : a.InRange) :
    Assignment.decode.Finds a.toJson a :=
  ((Call.finds h).twoFields (by decide)
    (Decoder.Finds.items fun name _ => Decoder.finds_string name)).map

theorem Assignment.readable {a : Assignment} (h : a.InRange) {level : Nat}
    (hlevel : level + 3 < maxNesting) : a.toJson.Readable level :=
  .field (Call.readable h (by omega)) (.field
    (.ofList (by omega) fun name _ => .string _ name) (.noFields (by omega)))

/-- A distribution passes its check again when it is decoded. -/
theorem Distribution.finds {d : Distribution} (h : d.InRange) :
    Distribution.decode.Finds d.toJson d := by
  have hmake : Decoder.checkedBy (Distribution.make d.assignments d.result) = .ok d := by
    rw [Distribution.make_eq_ok_iff.2 ⟨rfl, rfl⟩]
    rfl
  have hfields := (Decoder.Finds.items fun a ha => Assignment.finds (h.1 a ha)).twoFields
    (a := "assignments") (b := "result") (by decide)
    (Decoder.Finds.items fun v hv => Value.finds (h.2 v hv))
  constructor
  · rw [Distribution.decode, Distribution.toJson]
    simp only [hfields.1]
    exact hmake
  · rw [Distribution.decode, Distribution.toJson]
    simp only [hfields.2]
    exact hmake

theorem Distribution.readable {d : Distribution} (h : d.InRange) {level : Nat}
    (hlevel : level + 5 < maxNesting) : d.toJson.Readable level :=
  .field (.ofList (by omega) fun a ha => Assignment.readable (h.1 a ha) (by omega)) (.field
    (.ofList (by omega) fun v hv => Value.readable (h.2 v hv) (by omega)) (.noFields (by omega)))

/-- The seconds of an expansion are only there when they are a number. -/
theorem Expansion.finds {e : Expansion} (h : e.distribution.InRange)
    (hfinite : e.seconds.isFinite = true) : Expansion.decode.Finds e.toJson e :=
  ((Distribution.finds h).twoFields (by decide) (Decoder.finds_float hfinite)).map

theorem Expansion.readable {e : Expansion} (h : e.distribution.InRange)
    (hseconds : (Json.ofFloat e.seconds).ParsesBack) {level : Nat}
    (hlevel : level + 6 < maxNesting) : e.toJson.Readable level := by
  have htime : (Json.ofFloat e.seconds).Readable (level + 1) := by
    by_cases hfinite : e.seconds.isFinite = true
    · rw [Json.ofFloat, if_pos hfinite] at hseconds ⊢
      exact .number _ hseconds.readsBack
    · rw [Json.ofFloat, if_neg hfinite]
      exact .null _
  exact .field (Distribution.readable h (by omega)) (.field htime (.noFields (by omega)))

/-! ## Failures -/

namespace Failure

def InRange : Failure → Prop
  | .unknownReference reference => reference < unsignedLimit
  | .invalidReferenceCount reference count =>
    reference < unsignedLimit ∧ -(signedLimit : Int) ≤ count ∧ count < signedLimit
  | .didNotConverge _ passes => passes < unsignedLimit
  | _ => True

instance : (f : Failure) → Decidable f.InRange
  | .unknownReference _ => inferInstanceAs (Decidable (_ < _))
  | .invalidReferenceCount _ _ => inferInstanceAs (Decidable (_ ∧ _ ∧ _))
  | .didNotConverge _ _ => inferInstanceAs (Decidable (_ < _))
  | .malformedDistribution _ | .unificationConflict _ _ | .ambiguousProof _ _
  | .unknownFunction _ | .invalidParameter _ _ | .malformedProof _ _ | .ungroundedCall _
  | .protocol _ | .codec _ => inferInstanceAs (Decidable True)

theorem finds {f : Failure} (h : f.InRange) : Failure.decode.Finds f.toJson f := by
  have hkind : ∀ g ∈ f.details, g.1 ≠ "kind" := by cases f <;> simp [details]
  have htwo : ∀ {a b : String}, a ≠ b → ∀ s t : String,
      (Decoder.twoFields a Decoder.string b Decoder.string).Finds
        (.object [(a, .string s), (b, .string t)]) (s, t) := fun hab s t =>
    (Decoder.finds_string s).twoFields hab (Decoder.finds_string t)
  cases f with
  | malformedDistribution reason =>
      exact (Decoder.finds_string reason).oneField.map.tagged rfl hkind
  | unificationConflict label reason =>
      exact (htwo (by decide) label reason).map.tagged rfl hkind
  | ambiguousProof label reason =>
      exact (htwo (by decide) label reason).map.tagged rfl hkind
  | unknownFunction function =>
      exact (Decoder.finds_string function).oneField.map.tagged rfl hkind
  | invalidParameter call reason =>
      exact (htwo (by decide) call reason).map.tagged rfl hkind
  | malformedProof label reason =>
      exact (htwo (by decide) label reason).map.tagged rfl hkind
  | ungroundedCall call =>
      exact (Decoder.finds_string call).oneField.map.tagged rfl hkind
  | unknownReference reference =>
      exact (Decoder.finds_natural h).oneField.map.tagged rfl hkind
  | invalidReferenceCount reference count =>
      exact ((Decoder.finds_natural h.1).twoFields (by decide)
        (Decoder.finds_integer h.2.1 h.2.2)).map.tagged rfl hkind
  | didNotConverge label passes =>
      exact ((Decoder.finds_string label).twoFields (by decide)
        (Decoder.finds_natural h)).map.tagged rfl hkind
  | protocol message =>
      exact (Decoder.finds_string message).oneField.map.tagged rfl hkind
  | codec message =>
      exact (Decoder.finds_string message).oneField.map.tagged rfl hkind

theorem readable {f : Failure} (h : f.InRange) {level : Nat} (hlevel : level < maxNesting) :
    f.toJson.Readable level := by
  have hlimit : signedLimit < unsignedLimit := by decide
  have hdetails : (Json.object f.details).Readable level := by
    cases f with
    | unknownReference reference => exact .field (.natural h) (.noFields hlevel)
    | invalidReferenceCount reference count =>
        obtain ⟨hreference, hlow, hhigh⟩ := h
        exact .field (.natural hreference) (.field (.integer hlow (by omega)) (.noFields hlevel))
    | didNotConverge label passes =>
        exact .field (.string _ _) (.field (.natural h) (.noFields hlevel))
    | unificationConflict | ambiguousProof | invalidParameter | malformedProof =>
        exact .field (.string _ _) (.field (.string _ _) (.noFields hlevel))
    | malformedDistribution | unknownFunction | ungroundedCall | protocol | codec =>
        exact .field (.string _ _) (.noFields hlevel)
  exact .field (.string _ _) hdetails

end Failure

end ChanceProof
