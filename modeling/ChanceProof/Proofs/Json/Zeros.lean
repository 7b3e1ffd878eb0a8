import ChanceProof.Json.Basic
import ChanceProof.Proofs.Decimal.Comparison

/-!
# The two zeros

Values are compared as numbers are, and there are two floats that are both zero. So `Json.same` is
equality of values once every negative zero in them is replaced: `same_iff`. Values without a
negative zero are the same only when they are equal.

No JSON value holds a float that is not finite. Of those, a NaN would not even be the same as
itself.
-/

namespace ChanceProof

open Decimal (Binary)

namespace Number

/-- The number, with the positive zero for the negative one. -/
def unsigned : Number → Number
  | .int i => .int i
  | .float x => .float (if x == 0 then 0 else x)

/-- The number is no infinity and no NaN. -/
def Finite : Number → Prop
  | .int _ => True
  | .float x => (Binary.ofFloat? x).isSome = true

instance : (n : Number) → Decidable n.Finite
  | .int _ => isTrue trivial
  | .float x => inferInstanceAs (Decidable ((Binary.ofFloat? x).isSome = true))

theorem ofFloat?_zero : Binary.ofFloat? 0 = some ⟨false, 0, -1074, false⟩ := rfl

theorem same_iff {m n : Number} (hm : m.Finite) (hn : n.Finite) :
    m.same n = true ↔ m.unsigned = n.unsigned := by
  cases m with
  | int i =>
      cases n with
      | int j => simp [same, unsigned]
      | float y => simp [same, unsigned]
  | float x =>
      cases n with
      | int j => simp [same, unsigned]
      | float y =>
          obtain ⟨b, hb⟩ := Option.isSome_iff_exists.1 hm
          obtain ⟨c, hc⟩ := Option.isSome_iff_exists.1 hn
          have hzero : ∀ {z : Float} {d : Binary}, Binary.ofFloat? z = some d →
              ((z == 0) = true ↔ d.mantissa = 0) := by
            intro z d hd
            rw [Binary.beq_iff hd ofFloat?_zero]
            constructor
            · rintro (rfl | ⟨h, -⟩)
              · rw [Option.some.inj (hd.symm.trans ofFloat?_zero)]
              · exact h
            · exact fun h => .inr ⟨h, rfl⟩
          rw [same, Binary.beq_iff hb hc, ← hzero hb, ← hzero hc, unsigned, unsigned,
            Number.float.injEq]
          by_cases hx : (x == 0) = true
          · by_cases hy : (y == 0) = true
            · simp [hx, hy]
            · simp only [hx, hy, if_true]
              constructor
              · rintro (rfl | ⟨-, h⟩)
                · exact absurd hx hy
                · exact absurd h (by decide)
              · rintro rfl
                exact absurd rfl hy
          · by_cases hy : (y == 0) = true
            · simp only [hx, hy, if_true]
              constructor
              · rintro (rfl | ⟨h, -⟩)
                · exact absurd hy hx
                · exact absurd h (by decide)
              · rintro rfl
                exact absurd rfl hx
            · simp [hx, hy]

end Number

namespace Json

mutual

/-- The value, with the positive zero for every negative one. -/
def unsigned : Json → Json
  | .number n => .number n.unsigned
  | .array items => .array (unsignedItems items)
  | .object fields => .object (unsignedFields fields)
  | v => v

def unsignedItems : List Json → List Json
  | [] => []
  | v :: rest => v.unsigned :: unsignedItems rest

def unsignedFields : List (String × Json) → List (String × Json)
  | [] => []
  | (k, v) :: rest => (k, v.unsigned) :: unsignedFields rest

end

mutual

/-- Every number in the value is finite. -/
def Finite : Json → Prop
  | .number n => n.Finite
  | .array items => FiniteItems items
  | .object fields => FiniteFields fields
  | _ => True

def FiniteItems : List Json → Prop
  | [] => True
  | v :: rest => v.Finite ∧ FiniteItems rest

def FiniteFields : List (String × Json) → Prop
  | [] => True
  | (_, v) :: rest => v.Finite ∧ FiniteFields rest

end

mutual

/-- Values are the same when they are equal up to the signs of zeros. -/
theorem same_iff : (v w : Json) → v.Finite → w.Finite →
    (v.same w = true ↔ v.unsigned = w.unsigned)
  | .number m, .number n, hv, hw => by
      rw [same, unsigned, unsigned, Json.number.injEq]
      exact Number.same_iff hv hw
  | .array vs, .array ws, hv, hw => by
      rw [same, unsigned, unsigned, Json.array.injEq]
      exact sameItems_iff vs ws hv hw
  | .object fs, .object gs, hv, hw => by
      rw [same, unsigned, unsigned, Json.object.injEq]
      exact sameFields_iff fs gs hv hw
  | .null, w, _, _ => by cases w <;> simp [same, unsigned]
  | .bool a, w, _, _ => by cases w <;> simp [same, unsigned]
  | .string s, w, _, _ => by cases w <;> simp [same, unsigned]
  | .number _, .null, _, _ | .number _, .bool _, _, _ | .number _, .string _, _, _
  | .number _, .array _, _, _ | .number _, .object _, _, _ | .array _, .null, _, _
  | .array _, .bool _, _, _ | .array _, .number _, _, _ | .array _, .string _, _, _
  | .array _, .object _, _, _ | .object _, .null, _, _ | .object _, .bool _, _, _
  | .object _, .number _, _, _ | .object _, .string _, _, _ | .object _, .array _, _, _ => by
      simp [same, unsigned]

theorem sameItems_iff : (vs ws : List Json) → FiniteItems vs → FiniteItems ws →
    (sameItems vs ws = true ↔ unsignedItems vs = unsignedItems ws)
  | [], [], _, _ => by simp [sameItems]
  | [], _ :: _, _, _ | _ :: _, [], _, _ => by simp [sameItems, unsignedItems]
  | v :: vs, w :: ws, hv, hw => by
      rw [sameItems, unsignedItems, unsignedItems, Bool.and_eq_true, List.cons.injEq,
        same_iff v w hv.1 hw.1, sameItems_iff vs ws hv.2 hw.2]

theorem sameFields_iff : (fs gs : List (String × Json)) → FiniteFields fs → FiniteFields gs →
    (sameFields fs gs = true ↔ unsignedFields fs = unsignedFields gs)
  | [], [], _, _ => by simp [sameFields]
  | [], _ :: _, _, _ | _ :: _, [], _, _ => by simp [sameFields, unsignedFields]
  | (k, v) :: fs, (l, w) :: gs, hv, hw => by
      rw [sameFields, unsignedFields, unsignedFields, Bool.and_eq_true, Bool.and_eq_true,
        List.cons.injEq, Prod.mk.injEq, same_iff v w hv.1 hw.1, sameFields_iff fs gs hv.2 hw.2,
        beq_iff_eq]

end

/-- The value is finite and holds no negative zero. -/
structure Plain (v : Json) : Prop where
  finite : v.Finite
  unsigned : v.unsigned = v

theorem Plain.same_iff {v w : Json} (hv : v.Plain) (hw : w.Plain) : v.same w = true ↔ v = w := by
  rw [Json.same_iff v w hv.finite hw.finite, hv.unsigned, hw.unsigned]

end Json

end ChanceProof
