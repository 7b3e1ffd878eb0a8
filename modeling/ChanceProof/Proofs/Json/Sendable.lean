import ChanceProof.Proofs.Json.Reading

/-!
# Values that a line can carry

The text of a value is one line, whatever the value holds: control characters are escaped inside
strings and stand nowhere else (`printing_chars`). And what is read from that text is the
value itself, if no more than `maxNesting` containers stand within one another and its floats are
read back from their texts: `Sendable.parsesBack`. Nothing is asked of names and strings.
-/

namespace ChanceProof

/-! ## Control characters -/

/-- A character that may stand in the text of a value as it is: no control character. -/
def Text.Printing (c : Char) : Prop := 0x20 ≤ c.toNat

instance : DecidablePred Text.Printing := fun c => inferInstanceAs (Decidable (0x20 ≤ c.toNat))

open Text (Printing)

theorem Text.printing_of_all {cs : List Char} (h : cs.all (fun c => decide (Printing c)) = true) :
    ∀ c ∈ cs, Printing c := fun c hc => of_decide_eq_true (List.all_eq_true.1 h c hc)

theorem printing_hexDigit (n : Nat) : Printing (hexDigit n) := by
  have hall : ∀ m < 16, Printing ((Nat.toDigits 16 m).headD '0') := by decide
  exact hall (n % 16) (Nat.mod_lt n (by decide))

theorem printing_escaped {c d : Char} (h : d ∈ escaped c) : Printing d := by
  unfold escaped at h
  repeat' split at h
  case isFalse.isFalse.isFalse.isFalse.isFalse.isFalse.isFalse.isTrue =>
    rcases List.mem_append.1 (show d ∈ ['\\', 'u', '0', '0'] ++ [_, _] from h) with h | h
    · exact Text.printing_of_all rfl d h
    · rcases List.mem_cons.1 h with rfl | h
      · exact printing_hexDigit _
      · exact List.mem_singleton.1 h ▸ printing_hexDigit _
  case isFalse.isFalse.isFalse.isFalse.isFalse.isFalse.isFalse.isFalse hge =>
    exact List.mem_singleton.1 h ▸ Nat.not_lt.1 hge
  all_goals exact Text.printing_of_all rfl d h

theorem printing_quoted {s : String} {c : Char} (h : c ∈ quoted s) : Printing c := by
  unfold quoted at h
  rcases List.mem_append.1 h with h | h
  · rcases List.mem_cons.1 h with rfl | h
    · decide
    · obtain ⟨d, -, hc⟩ := List.mem_flatMap.1 h
      exact printing_escaped hc
  · exact List.mem_singleton.1 h ▸ (by decide)

theorem Number.printing {n : Number} {c : Char} (h : c ∈ n.chars) : Printing c := by
  rcases mem_chars h with hdigit | hmark
  · have hrange : 48 ≤ c.toNat := by
      have hbounds : 48 ≤ c.toNat ∧ c.toNat ≤ 57 := by
        simpa [Char.isDigit, Char.le_def, UInt32.le_iff_toNat_le] using hdigit
      exact hbounds.1
    unfold Printing
    omega
  · exact Text.printing_of_all (by decide) c hmark

namespace Json

mutual

/-- No control character stands in the text of a value. -/
theorem printing_chars : (v : Json) → ∀ c ∈ v.chars, Printing c
  | .null => by rw [chars]; exact Text.printing_of_all (by decide)
  | .bool true => by rw [chars]; exact Text.printing_of_all (by decide)
  | .bool false => by rw [chars]; exact Text.printing_of_all (by decide)
  | .number n => by rw [chars]; exact fun c => n.printing
  | .string s => by rw [chars]; exact fun c => printing_quoted
  | .array [] => by rw [chars]; exact Text.printing_of_all (by decide)
  | .array (v :: rest) => by
    rw [chars]
    exact List.forall_mem_append.2 ⟨List.forall_mem_cons.2 ⟨by decide, printing_chars v⟩,
      printing_itemsChars rest⟩
  | .object [] => by rw [chars]; exact Text.printing_of_all (by decide)
  | .object ((k, v) :: rest) => by
    rw [chars]
    exact List.forall_mem_append.2 ⟨List.forall_mem_append.2
      ⟨List.forall_mem_cons.2 ⟨by decide, fun c => printing_quoted⟩,
        List.forall_mem_cons.2 ⟨by decide, printing_chars v⟩⟩, printing_fieldsChars rest⟩

theorem printing_itemsChars : (vs : List Json) → ∀ c ∈ itemsChars vs, Printing c
  | [] => by rw [itemsChars]; exact Text.printing_of_all (by decide)
  | v :: rest => by
    rw [itemsChars]
    exact List.forall_mem_append.2 ⟨List.forall_mem_cons.2 ⟨by decide, printing_chars v⟩,
      printing_itemsChars rest⟩

theorem printing_fieldsChars : (fs : List (String × Json)) → ∀ c ∈ fieldsChars fs, Printing c
  | [] => by rw [fieldsChars]; exact Text.printing_of_all (by decide)
  | (k, v) :: rest => by
    rw [fieldsChars]
    exact List.forall_mem_append.2 ⟨List.forall_mem_append.2
      ⟨List.forall_mem_cons.2 ⟨by decide, fun c => printing_quoted⟩,
        List.forall_mem_cons.2 ⟨by decide, printing_chars v⟩⟩, printing_fieldsChars rest⟩

end

/-! ## Depth and numbers -/

mutual

/-- How many containers stand within one another in a value. -/
def depth : Json → Nat
  | .array items => depthOfItems items + 1
  | .object fields => depthOfFields fields + 1
  | _ => 0

def depthOfItems : List Json → Nat
  | [] => 0
  | v :: rest => max v.depth (depthOfItems rest)

def depthOfFields : List (String × Json) → Nat
  | [] => 0
  | (_, v) :: rest => max v.depth (depthOfFields rest)

end

mutual

/-- The numbers anywhere in a value. -/
def numbers : Json → List Number
  | .number n => [n]
  | .array items => numbersOfItems items
  | .object fields => numbersOfFields fields
  | _ => []

def numbersOfItems : List Json → List Number
  | [] => []
  | v :: rest => v.numbers ++ numbersOfItems rest

def numbersOfFields : List (String × Json) → List Number
  | [] => []
  | (_, v) :: rest => v.numbers ++ numbersOfFields rest

end

mutual

/-- Depth and numbers decide whether a value can be read. -/
theorem readable_of_depth {level : Nat} : (v : Json) → v.depth + level ≤ maxNesting →
    (∀ n ∈ v.numbers, n.ReadsBack) → v.Readable level
  | .null, _, _ => .null level
  | .bool b, _, _ => .bool level b
  | .number n, _, hn => .number level (hn n (by rw [numbers]; exact List.mem_singleton_self n))
  | .string s, _, _ => .string level s
  | .array items, hdepth, hn => by
    rw [depth] at hdepth
    rw [numbers] at hn
    exact .array (by omega) (readable_of_depthOfItems items (by omega) hn)
  | .object fields, hdepth, hn => by
    rw [depth] at hdepth
    rw [numbers] at hn
    exact .object (by omega) (readable_of_depthOfFields fields (by omega) hn)

theorem readable_of_depthOfItems {level : Nat} : (vs : List Json) →
    depthOfItems vs + level ≤ maxNesting → (∀ n ∈ numbersOfItems vs, n.ReadsBack) →
      ∀ v ∈ vs, v.Readable level
  | [], _, _ => fun _ h => absurd h List.not_mem_nil
  | v :: rest, hdepth, hn => by
    rw [depthOfItems] at hdepth
    rw [numbersOfItems, List.forall_mem_append] at hn
    exact List.forall_mem_cons.2 ⟨readable_of_depth v (by omega) hn.1,
      readable_of_depthOfItems rest (by omega) hn.2⟩

theorem readable_of_depthOfFields {level : Nat} : (fs : List (String × Json)) →
    depthOfFields fs + level ≤ maxNesting → (∀ n ∈ numbersOfFields fs, n.ReadsBack) →
      ∀ f ∈ fs, f.2.Readable level
  | [], _, _ => fun _ h => absurd h List.not_mem_nil
  | (k, v) :: rest, hdepth, hn => by
    rw [depthOfFields] at hdepth
    rw [numbersOfFields, List.forall_mem_append] at hn
    exact List.forall_mem_cons.2 ⟨readable_of_depth v (by omega) hn.1,
      readable_of_depthOfFields rest (by omega) hn.2⟩

end

/-- A value that a line can carry. Of the values that were ever read, all have their fields in key
order and whole numbers of 64 bits. -/
structure Sendable (v : Json) : Prop where
  ordered : v.sorted = v
  whole : ∀ i, .int i ∈ v.numbers → -(signedLimit : Int) ≤ i ∧ i < unsignedLimit
  depth : v.depth ≤ maxNesting
  /-- Reading may round a float to a neighbour. It does not do so with these. -/
  float : ∀ x, .float x ∈ v.numbers → (Number.float x).ReadsBack

/-- What a line carries is read back from its text. -/
theorem Sendable.parsesBack {v : Json} (h : v.Sendable) : v.ParsesBack := by
  refine parsesBack_of_readable (readable_of_depth v h.depth fun n hn => ?_) h.ordered
  cases n with
  | int i =>
      obtain ⟨hlow, hhigh⟩ := h.whole i hn
      exact Number.readsBack_int hlow hhigh
  | float x => exact h.float x hn

end Json

end ChanceProof
