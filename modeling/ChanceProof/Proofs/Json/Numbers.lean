import ChanceProof.Proofs.Json.PrintInjective
import Mathlib.Data.List.TakeDrop

/-!
# Numbers read back

A numeral is scanned from the front of a text, and where it ends nothing but the end of a value may
follow: what is scanned from a text is scanned from it, too, when a comma or a closing bracket
follows (`Numeral.scan?_append`).

Whole numbers of 64 bits are read back from their texts (`Number.readsBack_int`). Of floats this is
not proved: reading rounds a power of ten before it multiplies, so whether a float comes back is a
question about that float, and `Number.ReadsBack` is the answer yes.
-/

namespace ChanceProof

open Json (Closes)

namespace Numeral

theorem not_isDigit_of_closes {rest : List Char} (h : Closes rest) :
    ∀ c ∈ rest.head?, c.isDigit = false := by
  intro c hc
  have hmem := h c hc
  simp only [List.mem_cons, List.not_mem_nil, or_false] at hmem
  obtain rfl | rfl | rfl := hmem <;> rfl

theorem span_append {p : Char → Bool} {rest : List Char} (h : ∀ c ∈ rest.head?, p c = false)
    (cs : List Char) : (cs ++ rest).span p = ((cs.span p).1, (cs.span p).2 ++ rest) := by
  simp only [List.span_eq_takeWhile_dropWhile]
  induction cs with
  | nil =>
      cases rest with
      | nil => rfl
      | cons c rest => simp [h c rfl]
  | cons c cs ih =>
      rw [Prod.mk.injEq] at ih
      rw [List.cons_append, List.takeWhile_cons, List.dropWhile_cons, List.takeWhile_cons,
        List.dropWhile_cons]
      split
      · rw [ih.1, ih.2]
      · rfl

theorem digits?_eq_some_iff {cs ds r : List Char} :
    digits? cs = some (ds, r) ↔ cs.span Char.isDigit = (ds, r) ∧ ds ≠ [] := by
  unfold digits?
  rcases cs.span Char.isDigit with ⟨_ | ⟨d, ds'⟩, r'⟩
  · simp only [reduceCtorEq, Prod.mk.injEq, false_iff, not_and, not_not]
    rintro ⟨rfl, -⟩
    rfl
  · simp only [Option.some.injEq, Prod.mk.injEq, iff_self_and]
    rintro ⟨rfl, -⟩
    exact List.cons_ne_nil d ds'

/-- What follows the sign of a numeral. -/
def unsigned? (negative : Bool) (cs : List Char) : Option (Numeral × List Char) := do
  let (whole, cs) ← whole? cs
  let (fraction, cs) ← fraction? cs
  let (exponent, cs) ← exponent? cs
  return ({ negative, whole, fraction, exponent }, cs)

theorem scan?_negative (cs : List Char) : scan? ('-' :: cs) = unsigned? true cs := rfl

theorem scan?_unsigned {c : Char} (h : c ≠ '-') (cs : List Char) :
    scan? (c :: cs) = unsigned? false (c :: cs) := by
  unfold scan?
  split
  next hsign =>
  split at hsign
  · next heq => exact absurd (List.cons.inj heq).1 h
  · cases hsign
    rfl

/-! What is read from a text is read from it when something follows that ends a value. -/

section

variable {cs r rest : List Char} (hrest : Closes rest)

include hrest

theorem digits?_append {ds : List Char} (h : digits? cs = some (ds, r)) :
    digits? (cs ++ rest) = some (ds, r ++ rest) := by
  obtain ⟨hspan, hne⟩ := digits?_eq_some_iff.1 h
  refine digits?_eq_some_iff.2 ⟨?_, hne⟩
  rw [span_append (not_isDigit_of_closes hrest), hspan]

theorem whole?_append {ds : List Char} (h : whole? cs = some (ds, r)) :
    whole? (cs ++ rest) = some (ds, r ++ rest) := by
  unfold whole? at h
  split at h
  · next cs =>
      split at h
      · cases h
      · next hdigit =>
          cases h
          have hnext : ((r ++ rest).headD ' ').isDigit = false := by
            cases r with
            | nil =>
                cases rest with
                | nil => rfl
                | cons c rest => exact not_isDigit_of_closes hrest c rfl
            | cons c r => simpa using hdigit
          rw [List.cons_append, whole?, hnext]
          rfl
  · next hzero =>
      have hdigits := digits?_append hrest h
      cases cs with
      | nil => cases h
      | cons c cs =>
          unfold whole?
          split
          · next heq => exact absurd (by rw [(List.cons.inj heq).1]) (hzero cs)
          · exact hdigits

theorem fraction?_append {ds : List Char} (h : fraction? cs = some (ds, r)) :
    fraction? (cs ++ rest) = some (ds, r ++ rest) := by
  cases cs with
  | nil =>
      cases h
      cases rest with
      | nil => rfl
      | cons c rest =>
          have hmem := hrest c rfl
          simp only [List.mem_cons, List.not_mem_nil, or_false] at hmem
          obtain rfl | rfl | rfl := hmem <;> rfl
  | cons c cs =>
      unfold fraction? at h
      split at h
      · next heq =>
          obtain ⟨rfl, rfl⟩ := List.cons.inj heq
          exact digits?_append hrest h
      · next hpoint =>
          cases h
          unfold fraction?
          split
          · next heq => exact absurd (by rw [(List.cons.inj heq).1]) (hpoint cs)
          · rfl

theorem exponent?_append {e : Option (Bool × List Char)} (h : exponent? cs = some (e, r)) :
    exponent? (cs ++ rest) = some (e, r ++ rest) := by
  cases cs with
  | nil =>
      cases h
      cases rest with
      | nil => rfl
      | cons c rest =>
          have hmem := hrest c rfl
          simp only [List.mem_cons, List.not_mem_nil, or_false] at hmem
          obtain rfl | rfl | rfl := hmem <;> rfl
  | cons c cs =>
      simp only [exponent?, List.cons_append] at h ⊢
      split at h
      · next hletter =>
          rw [if_pos hletter]
          have hsign : ∀ ds r', digits? (exponentSign cs).2 = some (ds, r') →
              (exponentSign (cs ++ rest)).1 = (exponentSign cs).1 ∧
              digits? (exponentSign (cs ++ rest)).2 = some (ds, r' ++ rest) := by
            intro ds r' hds
            cases cs with
            | nil => cases hds
            | cons d cs =>
                have hsame : exponentSign (d :: cs ++ rest)
                    = ((exponentSign (d :: cs)).1, (exponentSign (d :: cs)).2 ++ rest) := by
                  simp only [List.cons_append]
                  unfold exponentSign
                  split <;> simp_all
                rw [hsame]
                exact ⟨rfl, digits?_append hrest hds⟩
          obtain ⟨⟨ds, r'⟩, hds, heq⟩ := Option.map_eq_some_iff.1 h
          obtain ⟨rfl, rfl⟩ := Prod.mk.inj heq
          obtain ⟨hfst, hsnd⟩ := hsign ds r' hds
          rw [hsnd, hfst]
          rfl
      · next hletter =>
          cases h
          rw [if_neg hletter]
          rfl

theorem unsigned?_append {negative : Bool} {n : Numeral} (h : unsigned? negative cs = some (n, r)) :
    unsigned? negative (cs ++ rest) = some (n, r ++ rest) := by
  simp only [unsigned?, Option.bind_eq_bind, Option.pure_def, Option.bind_eq_some_iff] at h ⊢
  obtain ⟨whole, hwhole, fraction, hfraction, exponent, hexponent, heq⟩ := h
  obtain ⟨rfl, rfl⟩ := Prod.mk.inj (Option.some.inj heq)
  exact ⟨_, whole?_append hrest hwhole, _, fraction?_append hrest hfraction, _,
    exponent?_append hrest hexponent, rfl⟩

theorem scan?_append {n : Numeral} (h : scan? cs = some (n, r)) :
    scan? (cs ++ rest) = some (n, r ++ rest) := by
  cases cs with
  | nil => cases h
  | cons c cs =>
      by_cases hc : c = '-'
      · subst hc
        exact unsigned?_append hrest h
      · rw [scan?_unsigned hc] at h
        rw [List.cons_append, scan?_unsigned hc]
        exact unsigned?_append hrest h

end

/-! What is left of a text stands at its end. -/

section

variable {cs r : List Char}

theorem digits?_suffix {ds : List Char} (h : digits? cs = some (ds, r)) : r <:+ cs := by
  obtain ⟨hspan, -⟩ := digits?_eq_some_iff.1 h
  rw [List.span_eq_takeWhile_dropWhile, Prod.mk.injEq] at hspan
  exact hspan.2 ▸ List.dropWhile_suffix _

theorem whole?_suffix {ds : List Char} (h : whole? cs = some (ds, r)) : r <:+ cs := by
  unfold whole? at h
  split at h
  · split at h
    · cases h
    · cases h
      exact List.suffix_cons _ _
  · exact digits?_suffix h

theorem fraction?_suffix {ds : List Char} (h : fraction? cs = some (ds, r)) : r <:+ cs := by
  unfold fraction? at h
  split at h
  · exact (digits?_suffix h).trans (List.suffix_cons _ _)
  · cases h
    exact List.suffix_rfl

theorem exponent?_suffix {e : Option (Bool × List Char)} (h : exponent? cs = some (e, r)) :
    r <:+ cs := by
  have hsign : ∀ cs, (exponentSign cs).2 <:+ cs := by
    intro cs
    unfold exponentSign
    split
    · exact List.suffix_cons _ _
    · exact List.suffix_cons _ _
    · exact List.suffix_rfl
  unfold exponent? at h
  split at h
  · split at h
    · obtain ⟨⟨ds, r'⟩, hds, heq⟩ := Option.map_eq_some_iff.1 h
      obtain ⟨-, rfl⟩ := Prod.mk.inj heq
      exact ((digits?_suffix hds).trans (hsign _)).trans (List.suffix_cons _ _)
    · cases h
      exact List.suffix_rfl
  · cases h
    exact List.suffix_rfl

theorem scan?_suffix {n : Numeral} (h : scan? cs = some (n, r)) : r <:+ cs := by
  have hunsigned : ∀ {negative : Bool} {cs : List Char}, unsigned? negative cs = some (n, r) →
      r <:+ cs := by
    intro negative cs h
    simp only [unsigned?, Option.bind_eq_bind, Option.pure_def, Option.bind_eq_some_iff] at h
    obtain ⟨whole, hwhole, fraction, hfraction, exponent, hexponent, heq⟩ := h
    obtain ⟨-, rfl⟩ := Prod.mk.inj (Option.some.inj heq)
    exact ((exponent?_suffix hexponent).trans (fraction?_suffix hfraction)).trans
      (whole?_suffix hwhole)
  cases cs with
  | nil => cases h
  | cons c cs =>
      by_cases hc : c = '-'
      · subst hc
        exact (hunsigned h).trans (List.suffix_cons _ _)
      · rw [scan?_unsigned hc] at h
        exact hunsigned h

end

/-! ### Whole numbers -/

theorem absorb_eq {cs : List Char} {n : Nat} (h : Nat.ofDigitChars 10 cs n < unsignedLimit) :
    absorb n cs = (Nat.ofDigitChars 10 cs n, []) := by
  induction cs generalizing n with
  | nil => rfl
  | cons c cs ih =>
      rw [Nat.ofDigitChars_cons] at h ⊢
      have hlt : 10 * n + (c.toNat - '0'.toNat) < unsignedLimit := by
        rw [Nat.ofDigitChars_eq_ofDigitChars_zero] at h
        have hpos : 0 < 10 ^ cs.length := Nat.pos_of_ne_zero (by positivity)
        exact lt_of_le_of_lt (Nat.le_mul_of_pos_left _ hpos) (by omega)
      unfold absorb
      rw [if_pos hlt]
      exact ih h

/-- A zero in front is the only digit. -/
theorem toDigits_eq_zero_cons {n : Nat} {rest : List Char}
    (h : Nat.toDigits 10 n = '0' :: rest) : rest = [] := by
  induction n using Nat.strongRecOn generalizing rest with
  | _ n ih =>
      by_cases hn : n < 10
      · rw [Nat.toDigits_of_lt_base hn] at h
        exact (List.cons.inj h).2.symm
      · rw [Nat.toDigits_of_base_le (by decide) (by omega)] at h
        obtain ⟨c, cs, hcs⟩ := List.exists_cons_of_ne_nil (Nat.toDigits_ne_nil (b := 10)
          (n := n / 10))
        rw [hcs, List.cons_append] at h
        obtain ⟨rfl, -⟩ := List.cons.inj h
        have hnil := ih (n / 10) (by omega) hcs
        have hzero := Nat.ofDigitChars_ten_toDigits (n := n / 10)
        rw [hcs, hnil] at hzero
        have : Nat.ofDigitChars 10 ['0'] 0 = 0 := by decide
        omega

theorem whole?_toDigits (n : Nat) : whole? (Nat.toDigits 10 n) = some (Nat.toDigits 10 n, []) := by
  have hspan : (Nat.toDigits 10 n).span Char.isDigit = (Nat.toDigits 10 n, []) := by
    rw [List.span_eq_takeWhile_dropWhile, List.takeWhile_eq_self_iff.2, List.dropWhile_eq_nil_iff.2]
    · exact fun c hc => Number.isDigit_of_mem_toDigits hc
    · exact fun c hc => Number.isDigit_of_mem_toDigits hc
  have hdigits := digits?_eq_some_iff.2 ⟨hspan, Nat.toDigits_ne_nil⟩
  unfold whole?
  split
  · next rest heq =>
      have hrest := toDigits_eq_zero_cons heq
      subst hrest
      rw [heq]
      rfl
  · exact hdigits

theorem unsigned?_toDigits (negative : Bool) (n : Nat) :
    unsigned? negative (Nat.toDigits 10 n) =
      some (⟨negative, Nat.toDigits 10 n, [], none⟩, []) := by
  rw [unsigned?, whole?_toDigits]
  rfl

theorem value?_toDigits {n : Nat} (negative : Bool) (h : n < unsignedLimit) :
    value? ⟨negative, Nat.toDigits 10 n, [], none⟩ = some (wholeValue negative n) := by
  have hn := Nat.ofDigitChars_ten_toDigits (n := n)
  have habsorb : absorb 0 (Nat.toDigits 10 n) = (n, []) := by
    rw [absorb_eq (by rw [hn]; exact h), hn]
  rw [value?, habsorb]
  rfl

end Numeral

/-- The number is read back from its own text. -/
def Number.ReadsBack (n : Number) : Prop :=
  ∃ numeral : Numeral, Numeral.scan? n.chars = some (numeral, []) ∧ numeral.value? = some n

/-- A whole number of 64 bits is read back. -/
theorem Number.readsBack_int {i : Int} (hlow : -(signedLimit : Int) ≤ i)
    (hhigh : i < unsignedLimit) : (Number.int i).ReadsBack := by
  have hlimit : signedLimit < unsignedLimit := by decide
  obtain ⟨c, cs, hcs⟩ := List.exists_cons_of_ne_nil (Nat.toDigits_ne_nil (b := 10)
    (n := i.natAbs))
  by_cases hneg : i < 0
  · have hvalue : Numeral.wholeValue true i.natAbs = .int i := by
      have hrange : 0 < i.natAbs ∧ i.natAbs ≤ signedLimit := by omega
      have habs : -(i.natAbs : Int) = i := by omega
      rw [Numeral.wholeValue, if_neg (by simp), if_pos hrange, habs]
    refine ⟨⟨true, Nat.toDigits 10 i.natAbs, [], none⟩, ?_, ?_⟩
    · rw [chars, if_pos hneg, Numeral.scan?_negative, Numeral.unsigned?_toDigits]
    · rw [Numeral.value?_toDigits true (by omega), hvalue]
  · have hvalue : Numeral.wholeValue false i.natAbs = .int i := by
      have habs : (i.natAbs : Int) = i := by omega
      rw [Numeral.wholeValue, if_pos (by simp), habs]
    have hc : c ≠ '-' := by
      rintro rfl
      have := isDigit_of_mem_toDigits (n := i.natAbs) (hcs ▸ List.mem_cons_self)
      exact absurd this (by decide)
    refine ⟨⟨false, Nat.toDigits 10 i.natAbs, [], none⟩, ?_, ?_⟩
    · rw [chars, if_neg hneg, hcs, Numeral.scan?_unsigned hc, ← hcs, Numeral.unsigned?_toDigits]
    · rw [Numeral.value?_toDigits false (by omega), hvalue]

end ChanceProof
