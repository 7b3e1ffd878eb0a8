import ChanceProof.Proofs.Json.Numbers
import ChanceProof.Proofs.Model.Action
import ChanceProof.Wire.Values

/-!
# Printed text read back

Reading the text of a value gives its document and leaves what follows the text. It does so for
every value whose numbers are read back and whose containers are not nested too deep:
`reads_of_readable`.

A document that comes from a value has the value in key order (`value?_ofJson`), and every value
that comes from a document is in key order. So of the values that are not nested too deep and whose
numbers are read back, just those in key order parse back from their own texts.
-/

namespace ChanceProof

open Json (Closes)

/-! ## Blanks -/

/-- A blank of JSON text is a blank of any text. -/
theorem Text.isBlank_of_blank {c : Char} (h : Document.isBlank c = true) : isBlank c = true := by
  have hmem : c = ' ' ∨ c = '\n' ∨ c = '\t' ∨ c = '\r' := by
    simpa [Document.isBlank, or_assoc] using h
  obtain rfl | rfl | rfl | rfl := hmem <;> rfl

theorem Number.not_isBlank {n : Number} {c : Char} (h : c ∈ n.chars) : Text.isBlank c = false := by
  rcases mem_chars h with hdigit | hmark
  · have hrange : 48 ≤ c.toNat ∧ c.toNat ≤ 57 := by
      simpa [Char.isDigit, Char.le_def, UInt32.le_iff_toNat_le] using hdigit
    simp only [Text.isBlank, Text.blankRanges, List.any_cons, List.any_nil, Bool.or_false,
      Bool.or_eq_false_iff, Bool.and_eq_false_iff, decide_eq_false_iff_not]
    omega
  · simp only [Decimal.textMarks, List.mem_cons, List.not_mem_nil, or_false] at hmark
    obtain rfl | rfl | rfl | rfl | rfl | rfl | rfl | rfl | rfl := hmark <;> rfl

/-- No text of a value ends in a blank. -/
theorem Json.last_not_blank (v : Json) : ∃ cs c, v.chars = cs ++ [c] ∧ Text.isBlank c = false := by
  have hitems : ∀ items, ∃ cs, itemsChars items = cs ++ [']'] := by
    intro items
    induction items with
    | nil => exact ⟨[], by rw [itemsChars, List.nil_append]⟩
    | cons v items ih =>
        obtain ⟨cs, hcs⟩ := ih
        exact ⟨',' :: v.chars ++ cs, by rw [itemsChars, hcs, List.append_assoc]⟩
  have hfields : ∀ fields, ∃ cs, fieldsChars fields = cs ++ ['\x7d'] := by
    intro fields
    induction fields with
    | nil => exact ⟨[], by rw [fieldsChars, List.nil_append]⟩
    | cons f fields ih =>
        obtain ⟨cs, hcs⟩ := ih
        exact ⟨',' :: quoted f.1 ++ ':' :: f.2.chars ++ cs, by simp [fieldsChars, hcs]⟩
  match v with
  | .null => exact ⟨['n', 'u', 'l'], 'l', by rw [chars]; rfl, rfl⟩
  | .bool true => exact ⟨['t', 'r', 'u'], 'e', by rw [chars]; rfl, rfl⟩
  | .bool false => exact ⟨['f', 'a', 'l', 's'], 'e', by rw [chars]; rfl, rfl⟩
  | .number n =>
      have hne : n.chars ≠ [] := by
        obtain ⟨c, cs, hcs, -⟩ := n.head_chars
        exact hcs ▸ List.cons_ne_nil c cs
      exact ⟨_, _, by rw [chars, List.dropLast_append_getLast hne],
        n.not_isBlank (List.getLast_mem hne)⟩
  | .string s => exact ⟨_, '"', by rw [chars, quoted], rfl⟩
  | .array [] => exact ⟨['['], ']', by rw [chars]; rfl, rfl⟩
  | .array (v :: items) =>
      obtain ⟨cs, hcs⟩ := hitems items
      exact ⟨'[' :: v.chars ++ cs, ']', by rw [chars, hcs, List.append_assoc], rfl⟩
  | .object [] => exact ⟨['\x7b'], '\x7d', by rw [chars]; rfl, rfl⟩
  | .object ((k, v) :: fields) =>
      obtain ⟨cs, hcs⟩ := hfields fields
      exact ⟨'\x7b' :: quoted k ++ ':' :: v.chars ++ cs, '\x7d', by simp [chars, hcs], rfl⟩

/-! ## Strings -/

namespace Document

theorem assemble?_pieceOf (cs : List Char) : assemble? (cs.map pieceOf) = some cs := by
  induction cs with
  | nil => rfl
  | cons c cs ih =>
      rw [List.map_cons]
      by_cases hcontrol : c.toNat < 0x20 ∧ c ∉ ['\n', '\r', '\t', '\x08', '\x0c']
      · have hpiece : pieceOf c = .unit c.toNat := if_pos hcontrol
        rw [hpiece, assemble?.eq_def]
        simp only
        rw [if_neg (by omega), if_neg (by omega), ih, Char.ofNat_toNat]
        rfl
      · have hpiece : pieceOf c = .plain c := if_neg hcontrol
        rw [hpiece, assemble?, ih]
        rfl

theorem readLeaf_quoted (s : String) (rest : List Char) :
    readLeaf (quoted s ++ rest) = (.string (some s), rest) := by
  have hread : pieces? (s.toList.flatMap escaped ++ ['"'] ++ rest)
      = some (s.toList.map pieceOf, rest) := by
    rw [List.append_assoc]
    exact pieces?_flatMap_escaped s.toList rest
  rw [quoted, List.cons_append, List.cons_append, readLeaf, hread]
  simp [assemble?_pieceOf]

/-- What starts with the text of a number is read as a numeral. -/
theorem readLeaf_number (n : Number) (rest : List Char) :
    readLeaf (n.chars ++ rest) = match Numeral.scan? (n.chars ++ rest) with
      | some (numeral, rest') => (.number numeral.value?, rest')
      | none => (.broken, n.chars ++ rest) := by
  obtain ⟨c, cs, hcs, hc⟩ := n.head_chars
  have hshape := Json.shapeOf_number hc
  have hstart : ∀ d ∈ ['n', 't', 'f', '"'], c ≠ d := by
    rintro d hd rfl
    simp only [List.mem_cons, List.not_mem_nil, or_false] at hd
    obtain rfl | rfl | rfl | rfl := hd <;> exact absurd hshape (by decide)
  rw [hcs, List.cons_append]
  generalize cs ++ rest = ds
  unfold readLeaf
  split
  · next heq => exact absurd (List.cons.inj heq).1 (hstart _ (by decide))
  · next heq => exact absurd (List.cons.inj heq).1 (hstart _ (by decide))
  · next heq => exact absurd (List.cons.inj heq).1 (hstart _ (by decide))
  · next heq => exact absurd (List.cons.inj heq).1 (hstart _ (by decide))
  · rfl

/-! ## Values -/

@[simp] theorem whole_ofJson (v : Json) : (ofJson v).whole = true := by
  cases v <;> rfl

theorem skipBlanks_cons {c : Char} (h : isBlank c = false) (cs : List Char) :
    skipBlanks (c :: cs) = c :: cs := by
  rw [skipBlanks, List.dropWhile_cons, if_neg (by simp [h])]

/-- No value starts with a blank or with the end of a container. -/
theorem head_not_blank (v : Json) : ∃ c cs, v.chars = c :: cs ∧ isBlank c = false ∧ c ≠ ']' := by
  obtain ⟨c, cs, hcs, hshape⟩ := v.head_chars
  refine ⟨c, cs, hcs, Bool.eq_false_iff.2 fun hblank => ?_, ?_⟩
  · have hmem : c = ' ' ∨ c = '\n' ∨ c = '\t' ∨ c = '\r' := by
      simpa [isBlank, or_assoc] using hblank
    cases v with
    | number n =>
        obtain ⟨d, ds, hds, hd⟩ := n.head_chars
        rw [Json.chars, hds] at hcs
        obtain ⟨rfl, -⟩ := List.cons.inj hcs
        obtain rfl | rfl | rfl | rfl := hmem <;> exact absurd hd (by decide)
    | _ => obtain rfl | rfl | rfl | rfl := hmem <;> cases hshape
  · rintro rfl
    cases v <;> cases hshape

/-- The value is read from its text at this depth, when enough steps are allowed. -/
def Reads (level : Nat) (v : Json) : Prop :=
  ∀ (fuel : Nat) (rest : List Char), Closes rest → 2 * v.chars.length ≤ fuel + 1 →
    read fuel level (v.chars ++ rest) = (ofJson v, rest)

theorem skipBlanks_chars (v : Json) (rest : List Char) :
    skipBlanks (v.chars ++ rest) = v.chars ++ rest := by
  obtain ⟨c, cs, hcs, hblank, -⟩ := head_not_blank v
  rw [hcs, List.cons_append, skipBlanks_cons hblank]

theorem readItems_chars {level fuel : Nat} {v : Json} {items : List Json} (rest : List Char)
    (hreads : ∀ w ∈ v :: items, Reads level w)
    (hfuel : 2 * (v.chars ++ Json.itemsChars items).length ≤ fuel) :
    readItems fuel level (v.chars ++ Json.itemsChars items ++ rest)
      = (ofItems (v :: items), true, rest) := by
  induction items generalizing v fuel with
  | nil =>
      cases fuel with
      | zero => simp [Json.itemsChars] at hfuel
      | succ fuel =>
          have hv := hreads v List.mem_cons_self fuel (Json.itemsChars [] ++ rest)
            (Json.closes_itemsChars _ _) (by rw [List.length_append] at hfuel; omega)
          rw [readItems, List.append_assoc, hv]
          simp [Json.itemsChars, skipBlanks_cons, isBlank, ofItems]
  | cons w items ih =>
      cases fuel with
      | zero => simp [Json.itemsChars] at hfuel
      | succ fuel =>
          rw [List.length_append] at hfuel
          have hv := hreads v List.mem_cons_self fuel (Json.itemsChars (w :: items) ++ rest)
            (Json.closes_itemsChars _ _) (by omega)
          have hlength : 2 * (w.chars ++ Json.itemsChars items).length ≤ fuel := by
            simp only [Json.itemsChars, List.length_cons, List.cons_append] at hfuel
            omega
          have hrest := ih (fun u hu => hreads u (List.mem_cons_of_mem _ hu)) hlength
          rw [List.append_assoc] at hrest
          rw [readItems, List.append_assoc, hv]
          simp [Json.itemsChars, skipBlanks_cons, isBlank, ofItems, hrest]

theorem pieces?_key (k : String) (rest : List Char) :
    pieces? (k.toList.flatMap escaped ++ '"' :: rest) = some (k.toList.map pieceOf, rest) :=
  pieces?_flatMap_escaped k.toList rest

theorem readFields_chars {level fuel : Nat} {k : String} {v : Json} {fields : List (String × Json)}
    (rest : List Char) (hreads : ∀ f ∈ (k, v) :: fields, Reads level f.2)
    (hfuel : 2 * (quoted k ++ ':' :: v.chars ++ Json.fieldsChars fields).length ≤ fuel) :
    readFields fuel level (quoted k ++ ':' :: v.chars ++ Json.fieldsChars fields ++ rest)
      = (ofFields ((k, v) :: fields), true, rest) := by
  induction fields generalizing k v fuel with
  | nil =>
      cases fuel with
      | zero => simp [Json.fieldsChars] at hfuel
      | succ fuel =>
          have hhead : Reads level v := hreads (k, v) List.mem_cons_self
          simp only [List.length_append, List.length_cons] at hfuel
          have hv := hhead fuel (Json.fieldsChars [] ++ rest) (Json.closes_fieldsChars _ _)
            (by omega)
          simp only [quoted, List.cons_append, List.append_assoc, List.nil_append]
          rw [readFields, skipBlanks_cons rfl]
          simp only [pieces?_key, assemble?_pieceOf, skipBlanks_cons (c := ':') rfl, hv]
          simp [Json.fieldsChars, skipBlanks_cons, isBlank, ofFields]
  | cons f fields ih =>
      cases fuel with
      | zero => simp [Json.fieldsChars] at hfuel
      | succ fuel =>
          obtain ⟨l, w⟩ := f
          have hhead : Reads level v := hreads (k, v) List.mem_cons_self
          have hlength :
              2 * (quoted l ++ ':' :: w.chars ++ Json.fieldsChars fields).length ≤ fuel := by
            simp only [Json.fieldsChars, List.length_append, List.length_cons] at hfuel ⊢
            omega
          simp only [List.length_append, List.length_cons] at hfuel
          have hv := hhead fuel (Json.fieldsChars ((l, w) :: fields) ++ rest)
            (Json.closes_fieldsChars _ _) (by omega)
          have hrest := ih (fun u hu => hreads u (List.mem_cons_of_mem _ hu)) hlength
          simp only [quoted, List.cons_append, List.append_assoc, List.nil_append] at hrest ⊢
          rw [readFields, skipBlanks_cons rfl]
          simp only [pieces?_key, assemble?_pieceOf, skipBlanks_cons (c := ':') rfl, hv]
          simp [Json.fieldsChars, skipBlanks_cons, isBlank, ofFields, hrest, quoted]

end Document

/-- The numbers of a value are read back, and with `level` containers around it none in it is nested
too deep. -/
inductive Json.Readable : Nat → Json → Prop
  | null (level : Nat) : Readable level .null
  | bool (level : Nat) (b : Bool) : Readable level (.bool b)
  | number (level : Nat) {n : Number} (h : n.ReadsBack) : Readable level (.number n)
  | string (level : Nat) (s : String) : Readable level (.string s)
  | array {level : Nat} {items : List Json} (hlevel : level < maxNesting)
    (hitems : ∀ v ∈ items, Readable (level + 1) v) : Readable level (.array items)
  | object {level : Nat} {fields : List (String × Json)} (hlevel : level < maxNesting)
    (hfields : ∀ f ∈ fields, Readable (level + 1) f.2) : Readable level (.object fields)

namespace Document

theorem read_leaf {fuel level : Nat} {c : Char} {cs : List Char} (hblank : isBlank c = false)
    (harray : c ≠ '[') (hobject : c ≠ '\x7b') :
    read (fuel + 1) level (c :: cs) = readLeaf (c :: cs) := by
  rw [read, skipBlanks_cons hblank]
  split
  · next heq => exact absurd (List.cons.inj heq).1 harray
  · next heq => exact absurd (List.cons.inj heq).1 hobject
  · rfl

theorem nested_of_lt {level : Nat} (h : level < maxNesting) (d : Document) : nested level d = d :=
  if_pos h

/-- No text is empty, so there is always a step to read it. -/
theorem Reads.of_succ {level : Nat} {v : Json}
    (h : ∀ (fuel : Nat) (rest : List Char), Closes rest → 2 * v.chars.length ≤ fuel + 2 →
      read (fuel + 1) level (v.chars ++ rest) = (ofJson v, rest)) : Reads level v := by
  intro fuel rest hrest hfuel
  cases fuel with
  | zero =>
      obtain ⟨c, cs, hcs, -⟩ := head_not_blank v
      rw [hcs, List.length_cons] at hfuel
      omega
  | succ fuel => exact h fuel rest hrest hfuel

theorem read_number (fuel level : Nat) (n : Number) (rest : List Char) :
    read (fuel + 1) level (n.chars ++ rest) = readLeaf (n.chars ++ rest) := by
  obtain ⟨c, cs, hcs, hblank, -⟩ := head_not_blank (.number n)
  obtain ⟨d, ds, hds, hd⟩ := n.head_chars
  have hshape := Json.shapeOf_number hd
  rw [Json.chars] at hcs
  obtain ⟨rfl, rfl⟩ := List.cons.inj (hcs.symm.trans hds)
  rw [hcs, List.cons_append, read_leaf hblank]
  · rintro rfl
    exact absurd hshape (by decide)
  · rintro rfl
    exact absurd hshape (by decide)

theorem reads_number {level : Nat} {n : Number} (h : n.ReadsBack) : Reads level (.number n) := by
  refine .of_succ fun fuel rest hrest _ => ?_
  obtain ⟨numeral, hscan, hvalue⟩ := h
  rw [Json.chars, read_number, readLeaf_number, Numeral.scan?_append hrest hscan, ofJson, ← hvalue,
    List.nil_append]

theorem reads_array {level : Nat} {items : List Json} (hlevel : level < maxNesting)
    (hitems : ∀ v ∈ items, Reads (level + 1) v) : Reads level (.array items) := by
  refine .of_succ fun fuel rest _ hfuel => ?_
  cases items with
  | nil => simp [Json.chars, read, skipBlanks_cons, isBlank, nested_of_lt hlevel, ofJson, ofItems]
  | cons v items =>
      have hlength : 2 * (v.chars ++ Json.itemsChars items).length ≤ fuel := by
        simp only [Json.chars, List.length_cons, List.cons_append] at hfuel
        omega
      have hread := readItems_chars rest hitems hlength
      have hstart := skipBlanks_chars v (Json.itemsChars items ++ rest)
      obtain ⟨c, cs, hcs, -, hend⟩ := head_not_blank v
      rw [Json.chars, List.cons_append, List.cons_append, read, skipBlanks_cons rfl]
      rw [List.append_assoc] at hread ⊢
      simp only [hstart]
      split
      · next heq =>
          rw [hcs, List.cons_append] at heq
          exact absurd (List.cons.inj heq).1 hend
      · rw [hread]
        simp only [nested_of_lt hlevel, ofJson]

theorem reads_object {level : Nat} {fields : List (String × Json)} (hlevel : level < maxNesting)
    (hfields : ∀ f ∈ fields, Reads (level + 1) f.2) : Reads level (.object fields) := by
  refine .of_succ fun fuel rest _ hfuel => ?_
  cases fields with
  | nil => simp [Json.chars, read, skipBlanks_cons, isBlank, nested_of_lt hlevel, ofJson, ofFields]
  | cons f fields =>
      obtain ⟨k, v⟩ := f
      have hlength : 2 * (quoted k ++ ':' :: v.chars ++ Json.fieldsChars fields).length ≤ fuel := by
        simp only [Json.chars, List.length_cons, List.cons_append] at hfuel
        omega
      have hread := readFields_chars rest hfields hlength
      simp only [Json.chars, quoted, List.cons_append, List.append_assoc, List.nil_append]
        at hread ⊢
      rw [read, skipBlanks_cons rfl]
      simp only [skipBlanks_cons (c := '"') rfl]
      split
      · next heq => exact absurd (List.cons.inj heq).1 (by decide)
      · simp only [hread, nested_of_lt hlevel, ofJson]

/-- A readable value is read from its text. -/
theorem reads_of_readable {level : Nat} {v : Json} (h : v.Readable level) : Reads level v := by
  induction h with
  | null level => exact .of_succ fun _ _ _ _ => rfl
  | bool level b => exact .of_succ fun _ _ _ _ => by cases b <;> rfl
  | number level h => exact reads_number h
  | string level s =>
      refine .of_succ fun fuel rest _ _ => ?_
      have hread := readLeaf_quoted s rest
      rw [quoted, List.cons_append, List.cons_append] at hread
      rw [Json.chars, quoted, List.cons_append, List.cons_append,
        read_leaf rfl (by decide) (by decide), hread, ofJson]
  | array hlevel _ ih => exact reads_array hlevel ih
  | object hlevel _ ih => exact reads_object hlevel ih

/-- The text of a readable value holds just its document. -/
theorem ofChars_chars {v : Json} (h : v.Readable 0) : ofChars v.chars = (ofJson v, []) := by
  have hread := reads_of_readable h (2 * v.chars.length + 2) [] Json.closes_nil (by omega)
  rwa [List.append_nil] at hread

end Document

/-! ## Values in key order -/

namespace Document

open Decoder (value? values? fieldValues? json)

mutual

/-- The value of a document that comes from a value is that value in key order. -/
theorem value?_ofJson : (v : Json) → value? (ofJson v) = some v.sorted
  | .null | .bool _ | .number _ | .string _ => by simp [ofJson, value?, Json.sorted]
  | .array items => by
    rw [ofJson, value?, if_pos rfl, values?_ofItems items, Json.sorted]
    rfl
  | .object fields => by
    rw [ofJson, value?, if_pos rfl, fieldValues?_ofFields fields, Json.sorted]
    rfl

theorem values?_ofItems : (items : List Json) →
    values? (ofItems items) = some (Json.sortedItems items)
  | [] => by rw [ofItems, values?, Json.sortedItems]
  | v :: rest => by
    rw [ofItems, values?, value?_ofJson v, values?_ofItems rest, Json.sortedItems]
    rfl

theorem fieldValues?_ofFields : (fields : List (String × Json)) →
    fieldValues? (ofFields fields) = some (Json.sortedFields fields)
  | [] => by rw [ofFields, fieldValues?, Json.sortedFields]
  | (k, v) :: rest => by
    rw [ofFields, fieldValues?, value?_ofJson v, fieldValues?_ofFields rest, Json.sortedFields]
    rfl

end

theorem sortedItems_eq_map (items : List Json) :
    Json.sortedItems items = items.map Json.sorted := by
  induction items with
  | nil => rw [Json.sortedItems, List.map_nil]
  | cons v items ih => rw [Json.sortedItems, ih, List.map_cons]

theorem sortedFields_eq_map (fields : List (String × Json)) :
    Json.sortedFields fields = fields.map fun f => (f.1, f.2.sorted) := by
  induction fields with
  | nil => rw [Json.sortedFields, List.map_nil]
  | cons f fields ih => rw [Json.sortedFields, ih, List.map_cons]

theorem sortedItems_eq_self {items : List Json} (h : ∀ v ∈ items, v.sorted = v) :
    Json.sortedItems items = items := by
  rw [sortedItems_eq_map, List.map_congr_left h, List.map_id']

theorem sortedFields_eq_self {fields : List (String × Json)} (h : ∀ f ∈ fields, f.2.sorted = f.2) :
    Json.sortedFields fields = fields := by
  rw [sortedFields_eq_map, List.map_congr_left fun f hf => by rw [h f hf], List.map_id']

/-- The fields of a value are brought into order once. -/
theorem sorted_ofFields {fields : List (String × Json)} (h : ∀ f ∈ fields, f.2.sorted = f.2) :
    (Json.ofFields fields).sorted = Json.ofFields fields := by
  have hkept := sortedFields_eq_self fun f hf => h f (Keyed.mem_of_mem_ofList hf)
  rw [Json.ofFields, Json.sorted, hkept, Json.ofFields,
    Keyed.ofList_of_sorted (Keyed.sorted_ofList fields)]

mutual

/-- A value that comes from a document is in key order. -/
theorem sorted_of_value? : (d : Document) → {v : Json} → value? d = some v → v.sorted = v
  | .null, _, h | .bool _, _, h => by cases h; rfl
  | .number n, _, h => by
    obtain ⟨m, -, rfl⟩ := Option.map_eq_some_iff.1 h
    rfl
  | .string s, _, h => by
    obtain ⟨t, -, rfl⟩ := Option.map_eq_some_iff.1 h
    rfl
  | .array items closed, _, h => by
    rw [value?] at h
    split at h
    · obtain ⟨vs, hvs, rfl⟩ := Option.map_eq_some_iff.1 h
      rw [Json.sorted, sortedItems_eq_self (sorted_of_values? items hvs)]
    · cases h
  | .object fields closed, _, h => by
    rw [value?] at h
    split at h
    · obtain ⟨fs, hfs, rfl⟩ := Option.map_eq_some_iff.1 h
      exact sorted_ofFields (sorted_of_fieldValues? fields hfs)
    · cases h
  | .tooDeep _, _, h | .broken, _, h => by cases h

theorem sorted_of_values? : (ds : List Document) → {vs : List Json} → values? ds = some vs →
    ∀ v ∈ vs, v.sorted = v
  | [], _, h => by cases h; exact fun _ h => (nomatch h)
  | d :: rest, _, h => by
    simp only [values?, Option.bind_eq_bind, Option.pure_def, Option.bind_eq_some_iff] at h
    obtain ⟨v, hv, vs, hvs, heq⟩ := h
    cases heq
    intro w hw
    rcases List.mem_cons.1 hw with rfl | hw
    · exact sorted_of_value? d hv
    · exact sorted_of_values? rest hvs w hw

theorem sorted_of_fieldValues? : (ds : List (Option String × Document)) →
    {fields : List (String × Json)} → fieldValues? ds = some fields → ∀ f ∈ fields, f.2.sorted = f.2
  | [], _, h => by cases h; exact fun _ h => (nomatch h)
  | (key, d) :: rest, _, h => by
    simp only [fieldValues?, Option.bind_eq_bind, Option.pure_def, Option.bind_eq_some_iff] at h
    obtain ⟨k, -, v, hv, fs, hfs, heq⟩ := h
    cases heq
    intro g hg
    rcases List.mem_cons.1 hg with rfl | hg
    · exact sorted_of_value? d hv
    · exact sorted_of_fieldValues? rest hfs g hg

end

theorem json_ofJson {v : Json} (h : v.sorted = v) : json (ofJson v) = .ok v := by
  rw [json, value?_ofJson, h]

end Document

namespace Decoder

variable {α : Type} {decode : Decoder α}

/-- A text decodes just when its document does and only blanks are left of it. -/
theorem ofText_ok_iff {text : String} {x : α} : ofText decode text = .ok x ↔
    decode (Document.ofChars text.toList).1 = .ok x ∧
    Document.skipBlanks (Document.ofChars text.toList).2 = [] := by
  rw [ofText, mapError_ok, run]
  rcases hd : decode (Document.ofChars text.toList).1 with f | y
  · simp [hd]
  · simp only [hd, List.isEmpty_iff]
    split
    · next h => simp [h]
    · next h => simp [h]

/-- What a readable value's document holds is what its text holds. -/
theorem ofText_print {v : Json} {x : α} (h : v.Readable 0)
    (hx : decode (Document.ofJson v) = .ok x) : ofText decode v.print = .ok x := by
  rw [ofText_ok_iff, Json.print, String.toList_ofList, Document.ofChars_chars h]
  exact ⟨hx, rfl⟩

end Decoder

namespace Json

/-- Parsing what is printed gives the value back. -/
def ParsesBack (v : Json) : Prop := Decoder.ofText Decoder.json v.print = .ok v

instance (v : Json) : Decidable v.ParsesBack := inferInstanceAs (Decidable (_ = _))

/-- Every value in key order parses back when its numbers do and it is not nested too deep. -/
theorem parsesBack_of_readable {v : Json} (h : v.Readable 0) (hsorted : v.sorted = v) :
    v.ParsesBack :=
  Decoder.ofText_print h (Document.json_ofJson hsorted)

theorem sorted_sorted (v : Json) : v.sorted.sorted = v.sorted :=
  Document.sorted_of_value? _ (Document.value?_ofJson v)

theorem Readable.sorted {level : Nat} {v : Json} (h : v.Readable level) :
    v.sorted.Readable level := by
  induction h with
  | null level => exact .null level
  | bool level b => exact .bool level b
  | number level h => exact .number level h
  | string level s => exact .string level s
  | @array level items hlevel _ ih =>
      refine .array hlevel fun w hw => ?_
      rw [Document.sortedItems_eq_map] at hw
      obtain ⟨v, hv, rfl⟩ := List.mem_map.1 hw
      exact ih v hv
  | @object level fields hlevel _ ih =>
      refine .object hlevel fun g hg => ?_
      have hmem := Keyed.mem_of_mem_ofList hg
      rw [Document.sortedFields_eq_map] at hmem
      obtain ⟨f, hf, rfl⟩ := List.mem_map.1 hmem
      exact ih f hf

theorem ParsesBack.document {v : Json} (h : v.ParsesBack) :
    Decoder.value? (Document.ofChars v.chars).1 = some v ∧
    Document.skipBlanks (Document.ofChars v.chars).2 = [] := by
  obtain ⟨hvalue, hrest⟩ := Decoder.ofText_ok_iff.1 h
  rw [print, String.toList_ofList] at hvalue hrest
  refine ⟨?_, hrest⟩
  unfold Decoder.json at hvalue
  split at hvalue
  · next heq => rw [heq, Except.ok.inj hvalue]
  · cases hvalue

theorem ParsesBack.sorted {v : Json} (h : v.ParsesBack) : v.sorted = v :=
  Document.sorted_of_value? _ h.document.1

/-- A number that parses back is read back inside any other value, too. -/
theorem ParsesBack.readsBack {n : Number} (h : (number n).ParsesBack) : n.ReadsBack := by
  obtain ⟨hvalue, hrest⟩ := h.document
  have hread := Document.read_number (2 * n.chars.length + 1) 0 n []
  rw [Document.readLeaf_number, List.append_nil] at hread
  rw [chars, Document.ofChars, hread] at hvalue hrest
  cases hscan : Numeral.scan? n.chars with
  | none =>
      rw [hscan] at hvalue
      cases hvalue
  | some p =>
      obtain ⟨numeral, rest⟩ := p
      rw [hscan] at hvalue hrest
      have hnil : rest = [] := by
        cases rest with
        | nil => rfl
        | cons c rest =>
            -- no character of a number is blank, so none can be left and skipped
            have hmem := (Numeral.scan?_suffix hscan).mem List.mem_cons_self
            have hblank : Document.isBlank c = true := by
              by_contra hblank
              rw [Document.skipBlanks_cons (Bool.eq_false_iff.2 hblank)] at hrest
              cases hrest
            have hnone := Number.not_isBlank hmem
            rw [Text.isBlank_of_blank hblank] at hnone
            cases hnone
      subst hnil
      obtain ⟨m, hm, heq⟩ := Option.map_eq_some_iff.1 hvalue
      cases heq
      exact ⟨numeral, hscan, hm⟩

end Json

end ChanceProof
