import ChanceProof.Decimal.Text
import ChanceProof.Proofs.Decimal.Comparison
import ChanceProof.Proofs.Decimal.Shortest
import Mathlib.Data.List.TakeWhile

/-!
# No two doubles have the same text

A text with a point and an exponent stands for a number, `textValue`. However digits are laid out,
positionally or with an exponent, the text stands for the number that the digits stand for. Since
the shortest digits tell doubles apart, their texts do, too: `write_injective`.
-/

namespace ChanceProof.Decimal

/-! ## Reading a text -/

/-- The number that digits with a point stand for. -/
def mantissaValue (cs : List Char) : ℚ :=
  let fraction := (cs.dropWhile (· ≠ '.')).drop 1
  Nat.ofDigitChars 10 (cs.takeWhile (· ≠ '.') ++ fraction) 0 / 10 ^ fraction.length

/-- The whole number that digits after a sign stand for. -/
def exponentValue : List Char → ℤ
  | '-' :: ds => -(Nat.ofDigitChars 10 ds 0 : ℕ)
  | _ :: ds => (Nat.ofDigitChars 10 ds 0 : ℕ)
  | [] => 0

/-- The number that a text without a sign stands for. -/
def textValue (cs : List Char) : ℚ :=
  mantissaValue (cs.takeWhile (· ≠ 'e')) * 10 ^ exponentValue ((cs.dropWhile (· ≠ 'e')).drop 1)

section Reading

variable {cs ds : List Char} {c : Char}

theorem takeWhile_ne_append (h : c ∉ cs) : (cs ++ c :: ds).takeWhile (· ≠ c) = cs := by
  rw [List.takeWhile_append_of_pos fun d hd => by simpa using fun e : d = c => h (e ▸ hd)]
  simp

theorem dropWhile_ne_append (h : c ∉ cs) : (cs ++ c :: ds).dropWhile (· ≠ c) = c :: ds := by
  rw [List.dropWhile_append_of_pos fun d hd => by simpa using fun e : d = c => h (e ▸ hd)]
  simp

theorem takeWhile_ne_self (h : c ∉ cs) : cs.takeWhile (· ≠ c) = cs :=
  List.takeWhile_eq_self_iff.2 fun d hd => decide_eq_true fun e : d = c => h (e ▸ hd)

theorem dropWhile_ne_self (h : c ∉ cs) : cs.dropWhile (· ≠ c) = [] :=
  List.dropWhile_eq_nil_iff.2 fun d hd => decide_eq_true fun e : d = c => h (e ▸ hd)

theorem mantissaValue_point (h : '.' ∉ cs) :
    mantissaValue (cs ++ '.' :: ds) = Nat.ofDigitChars 10 (cs ++ ds) 0 / 10 ^ ds.length := by
  rw [mantissaValue, takeWhile_ne_append h, dropWhile_ne_append h, List.drop_one, List.tail_cons]

theorem mantissaValue_whole (h : '.' ∉ cs) : mantissaValue cs = Nat.ofDigitChars 10 cs 0 := by
  rw [mantissaValue, takeWhile_ne_self h, dropWhile_ne_self h]
  simp

theorem textValue_positional (h : 'e' ∉ cs) : textValue cs = mantissaValue cs := by
  rw [textValue, takeWhile_ne_self h, dropWhile_ne_self h]
  simp [exponentValue]

theorem textValue_scientific (h : 'e' ∉ cs) :
    textValue (cs ++ 'e' :: ds) = mantissaValue cs * 10 ^ exponentValue ds := by
  rw [textValue, takeWhile_ne_append h, dropWhile_ne_append h, List.drop_one, List.tail_cons]

end Reading

/-! ## The characters of a text -/

theorem mem_zeros {n : ℕ} {c : Char} (h : c ∈ zeros n) : c = '0' := List.eq_of_mem_replicate h

namespace Digits

variable {d : Digits}

theorem isDigit_of_mem_chars {c : Char} (h : c ∈ d.chars) : c.isDigit = true :=
  Nat.isDigit_of_mem_toDigits (by norm_num) (by norm_num) h

theorem not_mem_chars {c : Char} (h : c.isDigit = false) : c ∉ d.chars := fun hc => by
  rw [isDigit_of_mem_chars hc] at h
  cases h

theorem chars_ne_nil : d.chars ≠ [] := Nat.toDigits_ne_nil

theorem ofDigitChars_chars : Nat.ofDigitChars 10 d.chars 0 = d.coefficient :=
  Nat.ofDigitChars_ten_toDigits

end Digits

theorem not_mem_append_zeros {cs : List Char} {n : ℕ} {c : Char} (h : c ∉ cs) (h0 : c ≠ '0') :
    c ∉ cs ++ zeros n := fun hc =>
  (List.mem_append.1 hc).elim h fun hz => h0 (mem_zeros hz)

theorem not_mem_zeros_append {cs : List Char} {n : ℕ} {c : Char} (h : c ∉ cs) (h0 : c ≠ '0') :
    c ∉ zeros n ++ cs := fun hc =>
  (List.mem_append.1 hc).elim (fun hz => h0 (mem_zeros hz)) h

theorem exponentValue_signedExponent (e : ℤ) : exponentValue (signedExponent e) = e := by
  unfold signedExponent
  split
  · rw [exponentValue, Nat.ofDigitChars_ten_toDigits]
    omega
  · rw [exponentValue, Nat.ofDigitChars_ten_toDigits]
    · omega
    · exact fun h => absurd h (by decide)

/-! ## A text stands for its digits -/

namespace Digits

variable {d : Digits}

/-- Positional notation stands for the digits. The mark of a whole number is a point and a zero. -/
theorem textValue_positional : textValue (d.positional ['.', '0']) = d.value := by
  have hpoint : '.' ∉ d.chars := not_mem_chars rfl
  have he : 'e' ∉ d.chars := not_mem_chars rfl
  unfold positional
  simp only
  split
  · next hexp =>
      have he' : 'e' ∉ d.chars ++ zeros d.exponent.toNat ++ ['.', '0'] := by
        simpa using ⟨he, fun h => absurd (mem_zeros h) (by decide)⟩
      rw [Decimal.textValue_positional he',
        mantissaValue_point (not_mem_append_zeros hpoint (by decide)), value]
      obtain ⟨n, hn⟩ := Int.eq_ofNat_of_zero_le hexp
      have hzero : zeros n ++ ['0'] = zeros (n + 1) := (List.replicate_succ' ..).symm
      rw [hn, Int.toNat_natCast, List.append_assoc, hzero, Nat.ofDigitChars_append,
        ofDigitChars_chars, zeros, Nat.ofDigitChars_replicate_zero, zpow_natCast]
      simp only [List.length_cons, List.length_nil]
      push_cast
      rw [pow_succ]
      ring
  · next hexp =>
      obtain ⟨after, hafter⟩ : ∃ n : ℕ, d.exponent = -n := ⟨(-d.exponent).toNat, by omega⟩
      have htoNat : (-d.exponent).toNat = after := by omega
      have hvalue : d.value = d.coefficient / 10 ^ after := by
        rw [value, hafter, zpow_neg, zpow_natCast, div_eq_mul_inv]
      rw [htoNat, hvalue]
      split
      · next hlt =>
          have hmem : ∀ {c : Char}, c ∉ d.chars → c ∉ d.chars.take (d.chars.length - after) :=
            fun h hc => h (List.mem_of_mem_take hc)
          have he' : 'e' ∉ d.chars.take (d.chars.length - after)
              ++ '.' :: d.chars.drop (d.chars.length - after) := by
            simpa using ⟨hmem he, fun h => he (List.mem_of_mem_drop h)⟩
          rw [Decimal.textValue_positional he', mantissaValue_point (hmem hpoint),
            List.take_append_drop, ofDigitChars_chars, List.length_drop]
          congr 2
          omega
      · next hge =>
          have he' : 'e' ∉ '0' :: '.' :: zeros (after - d.chars.length) ++ d.chars := by
            simpa using not_mem_zeros_append he (by decide)
          have hshape : '0' :: '.' :: zeros (after - d.chars.length) ++ d.chars
              = ['0'] ++ '.' :: (zeros (after - d.chars.length) ++ d.chars) := rfl
          rw [Decimal.textValue_positional he', hshape, mantissaValue_point (by decide)]
          rw [Nat.ofDigitChars_append, Nat.ofDigitChars_append, zeros,
            Nat.ofDigitChars_replicate_zero, List.length_append, List.length_replicate]
          have hzero : Nat.ofDigitChars 10 ['0'] 0 = 0 := rfl
          rw [hzero, Nat.mul_zero, ofDigitChars_chars]
          congr 2
          omega

/-- Scientific notation stands for the digits. -/
theorem textValue_scientific : textValue d.scientific = d.value := by
  have hpoint : '.' ∉ d.chars := not_mem_chars rfl
  have he : 'e' ∉ d.chars := not_mem_chars rfl
  have hcoefficient := d.ofDigitChars_chars
  unfold scientific
  simp only
  split
  · next c c' cs hcs =>
      rw [hcs] at hpoint he hcoefficient
      have he' : 'e' ∉ [c] ++ '.' :: c' :: cs := by
        simpa using he
      have hshape : c :: '.' :: c' :: cs = [c] ++ '.' :: c' :: cs := rfl
      rw [hshape, Decimal.textValue_scientific he', exponentValue_signedExponent,
        mantissaValue_point fun h => hpoint (List.mem_singleton.1 h ▸ List.mem_cons_self), value,
        magnitude, hcs, List.singleton_append, hcoefficient]
      simp only [List.length_cons]
      rw [div_mul_eq_mul_div, mul_div_assoc]
      congr 1
      rw [← zpow_natCast, ← zpow_sub₀ (by norm_num)]
      congr 1
      push_cast
      ring
  · next hshort =>
      have hlen : d.chars.length = 1 := by
        rcases hcs : d.chars with _ | ⟨c, _ | ⟨c', cs⟩⟩
        · exact absurd hcs chars_ne_nil
        · rfl
        · exact absurd hcs (hshort c c' cs)
      rw [Decimal.textValue_scientific he, exponentValue_signedExponent,
        mantissaValue_whole hpoint, hcoefficient, value, magnitude, hlen]
      congr 2
      push_cast
      ring

/-- Zeros at the end of the digits move into the exponent. -/
theorem value_trimmed : d.trimmed.value = d.value := by
  unfold trimmed
  simp only
  split
  · rfl
  · generalize hn : (d.chars.reverse.takeWhile (· == '0')).length = n
    have hrun : d.chars.reverse.takeWhile (· == '0') = zeros n := by
      rw [zeros, List.eq_replicate_iff]
      exact ⟨hn, fun c hc => by simpa using List.mem_takeWhile_imp hc⟩
    have hsplit : d.chars = (d.chars.reverse.dropWhile (· == '0')).reverse ++ zeros n := by
      have h := List.takeWhile_append_dropWhile (p := (· == '0')) (l := d.chars.reverse)
      rw [hrun] at h
      have h' := congrArg List.reverse h
      rw [List.reverse_append, List.reverse_reverse, zeros, List.reverse_replicate] at h'
      exact h'.symm
    have hcoefficient := d.ofDigitChars_chars
    rw [hsplit, Nat.ofDigitChars_append, zeros, Nat.ofDigitChars_replicate_zero] at hcoefficient
    rw [value, value, ← hcoefficient, tenTo_eq, Nat.mul_div_cancel_left _ (by positivity),
      zpow_add₀ (by norm_num), zpow_natCast]
    push_cast
    ring

/-! ## The layout of digits -/

/-- A layout starts with a digit, and one of its characters marks it as a float. -/
theorem positional_shape :
    (∀ c ∈ (d.positional ['.', '0']).head?, c.isDigit = true) ∧
      (∀ c ∈ d.positional ['.', '0'], c.isDigit = true ∨ c = '.') ∧
      '.' ∈ d.positional ['.', '0'] := by
  have hdigit : ∀ c ∈ d.chars, c.isDigit = true := fun c hc => isDigit_of_mem_chars hc
  have hzero : ∀ {n : ℕ}, ∀ c ∈ zeros n, c.isDigit = true := fun c hc => mem_zeros hc ▸ rfl
  obtain ⟨first, rest, hcs⟩ := List.exists_cons_of_ne_nil d.chars_ne_nil
  unfold positional
  simp only
  split
  · refine ⟨fun c hc => ?_, fun c hc => ?_, by simp⟩
    · rw [hcs, List.cons_append, List.cons_append, List.head?_cons, Option.mem_some_iff] at hc
      exact hdigit c (by rw [hcs, ← hc]; exact List.mem_cons_self)
    · simp only [List.mem_append, List.mem_cons, List.not_mem_nil, or_false] at hc
      obtain (hc | hc) | rfl | rfl := hc
      · exact .inl (hdigit c hc)
      · exact .inl (hzero c hc)
      · exact .inr rfl
      · exact .inl rfl
  · split
    · next hlt =>
        refine ⟨fun c hc => ?_, fun c hc => ?_, by simp⟩
        · obtain ⟨n, hn⟩ : ∃ n, d.chars.length - (-d.exponent).toNat = n + 1 :=
            ⟨d.chars.length - (-d.exponent).toNat - 1, by omega⟩
          rw [hn, hcs, List.take_succ_cons, List.cons_append, List.head?_cons,
            Option.mem_some_iff] at hc
          exact hdigit c (by rw [hcs, ← hc]; exact List.mem_cons_self)
        · simp only [List.mem_append, List.mem_cons] at hc
          obtain hc | rfl | hc := hc
          · exact .inl (hdigit c (List.mem_of_mem_take hc))
          · exact .inr rfl
          · exact .inl (hdigit c (List.mem_of_mem_drop hc))
    · refine ⟨fun c hc => ?_, fun c hc => ?_, by simp⟩
      · rw [List.cons_append, List.head?_cons, Option.mem_some_iff] at hc
        exact hc ▸ rfl
      · simp only [List.mem_append, List.mem_cons] at hc
        obtain (rfl | rfl | hc) | hc := hc
        · exact .inl rfl
        · exact .inr rfl
        · exact .inl (hzero c hc)
        · exact .inl (hdigit c hc)

theorem isDigit_of_mem_signedExponent {e : ℤ} {c : Char} (h : c ∈ signedExponent e) :
    c.isDigit = true ∨ c = '-' ∨ c = '+' := by
  rcases List.mem_cons.1 h with h | h
  · split at h <;> simp [h]
  · exact .inl (Nat.isDigit_of_mem_toDigits (by norm_num) (by norm_num) h)

theorem scientific_shape :
    (∀ c ∈ d.scientific.head?, c.isDigit = true) ∧
      (∀ c ∈ d.scientific, c.isDigit = true ∨ c ∈ ['.', 'e', '-', '+']) ∧
      'e' ∈ d.scientific := by
  have hdigit : ∀ c ∈ d.chars, c.isDigit = true := fun c hc => isDigit_of_mem_chars hc
  have hexp : ∀ c ∈ signedExponent d.magnitude, c.isDigit = true ∨ c ∈ ['.', 'e', '-', '+'] := by
    intro c hc
    rcases isDigit_of_mem_signedExponent hc with h | rfl | rfl
    · exact .inl h
    · exact .inr (by decide)
    · exact .inr (by decide)
  obtain ⟨first, rest, hcs⟩ := List.exists_cons_of_ne_nil d.chars_ne_nil
  unfold scientific
  simp only
  split
  · next a a' cs hcs' =>
      refine ⟨fun c hc => ?_, fun c hc => ?_, by simp⟩
      · rw [List.cons_append, List.head?_cons, Option.mem_some_iff] at hc
        exact hdigit c (by rw [hcs', ← hc]; exact List.mem_cons_self)
      · simp only [List.mem_append, List.mem_cons] at hc
        obtain (rfl | rfl | rfl | hc) | rfl | hc := hc
        · exact .inl (hdigit c (by simp [hcs']))
        · exact .inr (by decide)
        · exact .inl (hdigit c (by simp [hcs']))
        · exact .inl (hdigit c (by simp [hcs', hc]))
        · exact .inr (by decide)
        · exact hexp c hc
  · refine ⟨fun c hc => ?_, fun c hc => ?_, by simp⟩
    · rw [hcs, List.cons_append, List.head?_cons, Option.mem_some_iff] at hc
      exact hdigit c (by rw [hcs, ← hc]; exact List.mem_cons_self)
    · simp only [List.mem_append, List.mem_cons] at hc
      obtain hc | rfl | hc := hc
      · exact .inl (hdigit c hc)
      · exact .inr (by decide)
      · exact hexp c hc

end Digits

/-! ## The text of a double in JSON -/

/-- The text of the magnitude of a finite double. -/
def unsignedText (b : Binary) : List Char :=
  if b.mantissa = 0 then ['0', '.', '0']
  else
    let d := (b.shortest .toEven).trimmed
    if jsonStyle.positional d.magnitude then d.positional ['.', '0'] else d.scientific

theorem write_of_ofFloat? {x : Float} {b : Binary} (h : Binary.ofFloat? x = some b) :
    jsonStyle.write x = (if b.negative then ['-'] else []) ++ unsignedText b := by
  unfold Style.write unsignedText
  rw [h]
  simp only
  split <;> rfl

theorem write_of_ofFloat?_none {x : Float} (h : Binary.ofFloat? x = none) :
    jsonStyle.write x = if x != x then ['N', 'a', 'N'] else if x < 0 then ['-', 'i', 'n', 'f']
      else ['i', 'n', 'f'] := by
  unfold Style.write
  rw [h]
  rfl

theorem unsignedText_shape (b : Binary) :
    (∀ c ∈ (unsignedText b).head?, c.isDigit = true) ∧
      (∀ c ∈ unsignedText b, c.isDigit = true ∨ c ∈ ['.', 'e', '-', '+']) ∧
      ('.' ∈ unsignedText b ∨ 'e' ∈ unsignedText b) := by
  unfold unsignedText
  split
  · refine ⟨fun c hc => ?_, fun c hc => ?_, .inl (by decide)⟩
    · rw [List.head?_cons, Option.mem_some_iff] at hc
      exact hc ▸ rfl
    · simp only [List.mem_cons, List.not_mem_nil, or_false] at hc
      obtain rfl | rfl | rfl := hc
      · exact .inl rfl
      · exact .inr (by decide)
      · exact .inl rfl
  · simp only
    split
    · obtain ⟨hhead, hall, hmark⟩ := Digits.positional_shape (d := (b.shortest .toEven).trimmed)
      refine ⟨hhead, fun c hc => ?_, .inl hmark⟩
      rcases hall c hc with h | rfl
      · exact .inl h
      · exact .inr (by decide)
    · obtain ⟨hhead, hall, hmark⟩ := Digits.scientific_shape (d := (b.shortest .toEven).trimmed)
      exact ⟨hhead, hall, .inr hmark⟩

theorem textValue_unsignedText {b : Binary} (h : b.mantissa ≠ 0) :
    textValue (unsignedText b) = (b.shortest .toEven).value := by
  rw [unsignedText, if_neg h]
  simp only
  split
  · rw [Digits.textValue_positional, Digits.value_trimmed]
  · rw [Digits.textValue_scientific, Digits.value_trimmed]

theorem Binary.shortest_value_pos {b : Binary} (hn : b.Normal) (h : b.mantissa ≠ 0) :
    0 < (b.shortest .toEven).value := by
  have hpos : (1 : ℚ) ≤ b.mantissa := by exact_mod_cast Nat.pos_of_ne_zero h
  have hreach : (b.reach : ℚ) ≤ 2 := by
    unfold Binary.reach
    split <;> norm_num
  refine lt_of_lt_of_le ?_ (b.covers_shortest .toEven hn (Nat.pos_of_ne_zero h)).low_le
  exact mul_pos (by linarith) (Binary.two_zpow_pos _)

/-- Doubles whose magnitudes have one text have one mantissa and one exponent, unless they are
zero. -/
theorem unsignedText_injective {b c : Binary} (hb : b.Normal) (hc : c.Normal)
    (h : unsignedText b = unsignedText c) :
    b.mantissa = 0 ∧ c.mantissa = 0 ∨ b.mantissa = c.mantissa ∧ b.exponent = c.exponent := by
  have hzero : textValue ['0', '.', '0'] = 0 := by
    have hshape : ['0', '.', '0'] = ['0'] ++ '.' :: ['0'] := rfl
    rw [textValue_positional (by decide), hshape, mantissaValue_point (by decide)]
    norm_num [Nat.ofDigitChars_cons]
  have hpos : ∀ {b : Binary}, b.Normal → b.mantissa ≠ 0 → unsignedText b ≠ ['0', '.', '0'] := by
    intro b hn hm heq
    have hvalue := Binary.shortest_value_pos hn hm
    rw [← textValue_unsignedText hm, heq, hzero] at hvalue
    exact lt_irrefl _ hvalue
  by_cases hb0 : b.mantissa = 0
  · by_cases hc0 : c.mantissa = 0
    · exact .inl ⟨hb0, hc0⟩
    · exact absurd (h.symm.trans (by rw [unsignedText, if_pos hb0])) (hpos hc hc0)
  · by_cases hc0 : c.mantissa = 0
    · exact absurd (h.trans (by rw [unsignedText, if_pos hc0])) (hpos hb hb0)
    · have hvalue : (b.shortest .toEven).value = (c.shortest .toEven).value := by
        rw [← textValue_unsignedText hb0, h, textValue_unsignedText hc0]
      have hcovers := c.covers_shortest .toEven hc (Nat.pos_of_ne_zero hc0)
      rw [← hvalue] at hcovers
      exact .inr (Binary.eq_of_covers (b.covers_shortest .toEven hb (Nat.pos_of_ne_zero hb0))
        hcovers hb hc)

/-- A sign in front can be told from the text behind it. -/
theorem signed_injective {p q : Bool} {cs ds : List Char}
    (hcs : ∀ c ∈ cs.head?, c ≠ '-') (hds : ∀ c ∈ ds.head?, c ≠ '-')
    (h : (if p then ['-'] else []) ++ cs = (if q then ['-'] else []) ++ ds) : p = q ∧ cs = ds := by
  cases p <;> cases q <;> simp only [if_true, Bool.false_eq_true, if_false, List.nil_append,
    List.cons_append] at h
  · exact ⟨rfl, h⟩
  · exact absurd rfl (hcs '-' (by simp [h]))
  · exact absurd rfl (hds '-' (by simp [← h]))
  · exact ⟨rfl, (List.cons.inj h).2⟩

/-- The characters of numbers and of what stands for infinities and NaN. -/
def textMarks : List Char := ['.', 'e', '-', '+', 'N', 'a', 'i', 'n', 'f']

/-- A text starts with a digit, a sign or a letter that no digits start with, and one character
marks it as a float. -/
theorem write_shape (x : Float) :
    (∀ c ∈ (jsonStyle.write x).head?, c.isDigit = true ∨ c ∈ ['-', 'N', 'i']) ∧
      (∀ c ∈ jsonStyle.write x, c.isDigit = true ∨ c ∈ textMarks) ∧
      (∃ c ∈ jsonStyle.write x, c.isDigit = false ∧ c ≠ '-') ∧ jsonStyle.write x ≠ [] := by
  cases hx : Binary.ofFloat? x with
  | none =>
      rw [write_of_ofFloat?_none hx]
      split
      · exact ⟨by simp, by simp [textMarks], ⟨'N', by simp, rfl, by simp⟩, by simp⟩
      · split
        · exact ⟨by simp, by simp [textMarks], ⟨'i', by simp, rfl, by simp⟩, by simp⟩
        · exact ⟨by simp, by simp [textMarks], ⟨'i', by simp, rfl, by simp⟩, by simp⟩
  | some b =>
      obtain ⟨hhead, hall, hmark⟩ := unsignedText_shape b
      have hmarks : ∀ c ∈ ['.', 'e', '-', '+'], c ∈ textMarks := by simp [textMarks]
      rw [write_of_ofFloat? hx]
      refine ⟨fun c hc => ?_, fun c hc => ?_, ?_, ?_⟩
      · split at hc
        · rw [List.cons_append, List.head?_cons, Option.mem_some_iff] at hc
          exact .inr (hc ▸ by decide)
        · exact .inl (hhead c hc)
      · rcases List.mem_append.1 hc with hc | hc
        · split at hc
          · exact .inr (List.mem_singleton.1 hc ▸ by decide)
          · cases hc
        · exact (hall c hc).imp_right (hmarks c)
      · rcases hmark with h | h
        · exact ⟨'.', List.mem_append_right _ h, by decide⟩
        · exact ⟨'e', List.mem_append_right _ h, by decide⟩
      · rcases hmark with h | h <;>
          exact List.append_ne_nil_of_right_ne_nil _ (List.ne_nil_of_mem h)

theorem mem_write_of_ofFloat? {x : Float} {b : Binary} (hx : Binary.ofFloat? x = some b) {c : Char}
    (hc : c ∈ jsonStyle.write x) : c.isDigit = true ∨ c ∈ ['.', 'e', '-', '+'] := by
  rw [write_of_ofFloat? hx] at hc
  rcases List.mem_append.1 hc with hc | hc
  · split at hc
    · rw [List.mem_singleton.1 hc]
      exact .inr (by decide)
    · cases hc
  · exact (unsignedText_shape b).2.1 c hc

/-- No number has the text of an infinity or NaN. -/
theorem write_ne_of_ofFloat?_none {x y : Float} {b : Binary} (hx : Binary.ofFloat? x = none)
    (hy : Binary.ofFloat? y = some b) : jsonStyle.write x ≠ jsonStyle.write y := by
  intro h
  have hletter : ∃ c ∈ jsonStyle.write x, c.isDigit = false ∧ c ∉ ['.', 'e', '-', '+'] := by
    rw [write_of_ofFloat?_none hx]
    split
    · exact ⟨'N', by simp, by decide, by decide⟩
    · split
      · exact ⟨'i', by simp, by decide, by decide⟩
      · exact ⟨'i', by simp, by decide, by decide⟩
  obtain ⟨c, hc, hdigit, hmark⟩ := hletter
  rw [h] at hc
  rcases mem_write_of_ofFloat? hy hc with hc | hc
  · exact absurd (hdigit.symm.trans hc) (by decide)
  · exact hmark hc

theorem write_injective_of_none {x y : Float} (hx : Binary.ofFloat? x = none)
    (hy : Binary.ofFloat? y = none) (h : jsonStyle.write x = jsonStyle.write y) : x = y := by
  rw [write_of_ofFloat?_none hx, write_of_ofFloat?_none hy] at h
  by_cases hxn : (x != x) = true
  · by_cases hyn : (y != y) = true
    · exact Binary.eq_of_isNaN hx hy hxn hyn
    · rw [if_pos hxn, if_neg hyn] at h
      split at h <;> exact absurd h (by decide)
  · by_cases hyn : (y != y) = true
    · rw [if_neg hxn, if_pos hyn] at h
      split at h <;> exact absurd h (by decide)
    · rw [if_neg hxn, if_neg hyn] at h
      refine Binary.eq_of_infinite hx hy hxn hyn ?_
      split at h
      · next hx0 =>
          split at h
          · next hy0 => exact iff_of_true hx0 hy0
          · exact absurd h (by decide)
      · next hx0 =>
          split at h
          · exact absurd h (by decide)
          · next hy0 => exact iff_of_false hx0 hy0

theorem unsignedText_head_ne (b : Binary) : ∀ c ∈ (unsignedText b).head?, c ≠ '-' := by
  intro c hc heq
  have hdigit := (unsignedText_shape b).1 c hc
  rw [heq] at hdigit
  cases hdigit

theorem write_injective_of_some {x y : Float} {b c : Binary} (hx : Binary.ofFloat? x = some b)
    (hy : Binary.ofFloat? y = some c) (h : jsonStyle.write x = jsonStyle.write y) : x = y := by
  rw [write_of_ofFloat? hx, write_of_ofFloat? hy] at h
  obtain ⟨hsign, htext⟩ := signed_injective (unsignedText_head_ne b) (unsignedText_head_ne c) h
  have hb := Binary.normal_of_ofFloat? hx
  have hc := Binary.normal_of_ofFloat? hy
  rcases unsignedText_injective hb hc htext with ⟨hb0, hc0⟩ | ⟨hm, he⟩
  · have hbe := hb.full
    have hce := hc.full
    exact Binary.eq_of_ofFloat? hx hy hsign (hb0.trans hc0.symm) (by omega)
  · exact Binary.eq_of_ofFloat? hx hy hsign hm he

/-- No two doubles have the same text, zeros of different sign included. -/
theorem write_injective {x y : Float} (h : jsonStyle.write x = jsonStyle.write y) : x = y := by
  cases hx : Binary.ofFloat? x with
  | none =>
      cases hy : Binary.ofFloat? y with
      | none => exact write_injective_of_none hx hy h
      | some c => exact absurd h (write_ne_of_ofFloat?_none hx hy)
  | some b =>
      cases hy : Binary.ofFloat? y with
      | none => exact absurd h.symm (write_ne_of_ofFloat?_none hy hx)
      | some c => exact write_injective_of_some hx hy h

end ChanceProof.Decimal
