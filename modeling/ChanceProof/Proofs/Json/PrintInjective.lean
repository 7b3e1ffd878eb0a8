import ChanceProof.Json.Document
import ChanceProof.Json.Printer
import ChanceProof.Proofs.Decimal.Layout

/-!
# The text of a value is its own

No two JSON values have the same text. Whole numbers and floats differ by a point or an exponent,
floats among each other by their digits, strings by their escaped characters, and containers by
where the texts of their items end: a comma or a closing bracket never starts a value and never
stands in a number.
-/

namespace ChanceProof

/-! ## Numbers -/

namespace Number

theorem toDigits_injective {m n : ℕ} (h : Nat.toDigits 10 m = Nat.toDigits 10 n) : m = n := by
  rw [← Nat.ofDigitChars_ten_toDigits (n := m), h, Nat.ofDigitChars_ten_toDigits]

theorem isDigit_of_mem_toDigits {n : ℕ} {c : Char} (h : c ∈ Nat.toDigits 10 n) :
    c.isDigit = true :=
  Nat.isDigit_of_mem_toDigits (by norm_num) (by norm_num) h

theorem mem_chars_int {i : ℤ} {c : Char} (h : c ∈ (Number.int i).chars) :
    c.isDigit = true ∨ c = '-' := by
  unfold chars at h
  simp only at h
  split at h
  · rcases List.mem_cons.1 h with rfl | h
    · exact .inr rfl
    · exact .inl (isDigit_of_mem_toDigits h)
  · exact .inl (isDigit_of_mem_toDigits h)

theorem chars_int_ne_float (i : ℤ) (x : Float) : (Number.int i).chars ≠ (Number.float x).chars := by
  intro h
  obtain ⟨c, hc, hdigit, hsign⟩ := (Decimal.write_shape x).2.2.1
  have hc' : c ∈ (Number.float x).chars := hc
  rw [← h] at hc'
  rcases mem_chars_int hc' with h' | h'
  · rw [hdigit] at h'
    cases h'
  · exact hsign h'

theorem chars_injective {m n : Number} (h : m.chars = n.chars) : m = n := by
  cases m with
  | int i =>
      cases n with
      | int j =>
          have hhead : ∀ n, ∀ c ∈ (Nat.toDigits 10 n).head?, c ≠ '-' := by
            rintro n c hc rfl
            exact absurd (isDigit_of_mem_toDigits (List.mem_of_mem_head? hc)) (by decide)
          have hshape : ∀ k, (Number.int k).chars
              = (if decide (k < 0) then ['-'] else []) ++ Nat.toDigits 10 k.natAbs := by
            intro k
            unfold chars
            simp only
            split <;> simp_all
          rw [hshape, hshape] at h
          obtain ⟨hsign, hdigits⟩ := Decimal.signed_injective (hhead _) (hhead _) h
          have habs := toDigits_injective hdigits
          have hsign' : i < 0 ↔ j < 0 := by simpa using congrArg (· = true) hsign
          congr 1
          omega
      | float y => exact absurd h (chars_int_ne_float i y)
  | float x =>
      cases n with
      | int j => exact absurd h.symm (chars_int_ne_float j x)
      | float y => rw [Decimal.write_injective h]

theorem mem_chars {n : Number} {c : Char} (h : c ∈ n.chars) :
    c.isDigit = true ∨ c ∈ Decimal.textMarks := by
  cases n with
  | int i =>
      rcases mem_chars_int h with h | rfl
      · exact .inl h
      · exact .inr (by decide)
  | float x => exact (Decimal.write_shape x).2.1 c h

/-- A number starts with a digit, a sign, or a letter that starts no other value. -/
theorem head_chars (n : Number) :
    ∃ c rest, n.chars = c :: rest ∧ (c.isDigit = true ∨ c ∈ ['-', 'N', 'i']) := by
  cases n with
  | int i =>
      unfold chars
      simp only
      split
      · exact ⟨'-', _, rfl, .inr (by decide)⟩
      · obtain ⟨c, rest, hcs⟩ := List.exists_cons_of_ne_nil (Nat.toDigits_ne_nil (b := 10)
          (n := i.natAbs))
        exact ⟨c, rest, hcs, .inl (isDigit_of_mem_toDigits (hcs ▸ List.mem_cons_self))⟩
  | float x =>
      obtain ⟨hhead, -, -, hne⟩ := Decimal.write_shape x
      obtain ⟨c, rest, hcs⟩ := List.exists_cons_of_ne_nil hne
      exact ⟨c, rest, hcs, hhead c (by rw [hcs]; rfl)⟩

end Number

/-! ## Strings -/

namespace Document

/-- What a character of a string becomes in its text: itself, or an escaped unit. -/
def pieceOf (c : Char) : Piece :=
  if c.toNat < 0x20 ∧ c ∉ ['\n', '\r', '\t', '\x08', '\x0c'] then .unit c.toNat else .plain c

theorem pieceOf_injective {c d : Char} (h : pieceOf c = pieceOf d) : c = d := by
  unfold pieceOf at h
  split at h <;> split at h
  · injection h with h
    exact Char.ext (UInt32.toNat_inj.1 h)
  · cases h
  · cases h
  · injection h

/-- A control character is read back from its four digits. -/
theorem unit?_hexDigit {n : ℕ} (h : n < 0x20) :
    unit? '0' '0' (hexDigit (n / 16)) (hexDigit n) = some n := by
  have hall : ∀ n < 0x20, unit? '0' '0' (hexDigit (n / 16)) (hexDigit n) = some n := by
    decide
  exact hall n h

/-- The text of a character is read back, whatever follows. -/
theorem pieces?_escaped (c : Char) (rest : List Char) :
    pieces? (escaped c ++ rest) = (pieces? rest).map fun r => (pieceOf c :: r.1, r.2) := by
  have hbind : ∀ (p : Piece) (o : Option (List Piece × List Char)),
      (o >>= fun r => pure (p :: r.1, r.2)) = o.map fun r => (p :: r.1, r.2) := by
    intro p o
    cases o <;> rfl
  unfold escaped
  repeat' split
  case isFalse.isFalse.isFalse.isFalse.isFalse.isFalse.isFalse.isTrue hq hb hn hr ht hbs hff hlt =>
    have hpiece : pieceOf c = .unit c.toNat := by
      rw [pieceOf, if_pos ⟨hlt, by simp [hn, hr, ht, hbs, hff]⟩]
    simp only [List.cons_append, List.nil_append]
    rw [pieces?, unit?_hexDigit hlt, hpiece]
    exact hbind _ _
  case isFalse.isFalse.isFalse.isFalse.isFalse.isFalse.isFalse.isFalse hq hb hn hr ht hbs hff hge =>
    have hpiece : pieceOf c = .plain c := by
      rw [pieceOf, if_neg fun h => hge h.1]
    simp only [List.cons_append, List.nil_append]
    rw [pieces?, if_neg (by simp [hge, hb]), hpiece]
    · exact hbind _ _
    all_goals simp_all
  all_goals
    subst_vars
    exact hbind _ _

theorem pieces?_flatMap_escaped (cs rest : List Char) :
    pieces? (cs.flatMap escaped ++ '"' :: rest) = some (cs.map pieceOf, rest) := by
  induction cs with
  | nil => rfl
  | cons c cs ih =>
      rw [List.flatMap_cons, List.append_assoc, pieces?_escaped, ih]
      rfl

end Document

/-- A string's text ends where the string does. -/
theorem quoted_append_inj {s t : String} {x y : List Char} (h : quoted s ++ x = quoted t ++ y) :
    s = t ∧ x = y := by
  have hread := congrArg (fun cs => Document.pieces? (cs.drop 1)) h
  simp only [quoted, List.cons_append, List.drop_one, List.tail_cons, List.append_assoc,
    List.nil_append, Document.pieces?_flatMap_escaped, Option.some.injEq, Prod.mk.injEq] at hread
  obtain ⟨hpieces, hrest⟩ := hread
  refine ⟨String.toList_inj.1 ?_, hrest⟩
  exact List.map_injective_iff.2 (fun _ _ => Document.pieceOf_injective) hpieces

/-! ## Values -/

namespace Json

def Closes (cs : List Char) : Prop := ∀ c ∈ cs.head?, c ∈ [',', ']', '\x7d']

theorem closes_nil : Closes [] := fun _ h => nomatch h

theorem closes_itemsChars (vs : List Json) (x : List Char) : Closes (itemsChars vs ++ x) := by
  intro c hc
  cases vs <;> simp only [itemsChars, List.cons_append, List.head?_cons, Option.mem_some_iff] at hc
    <;> subst hc <;> decide

theorem closes_fieldsChars (fs : List (String × Json)) (x : List Char) :
    Closes (fieldsChars fs ++ x) := by
  intro c hc
  cases fs <;> simp only [fieldsChars, List.cons_append, List.head?_cons, Option.mem_some_iff] at hc
    <;> subst hc <;> decide

def shape : Json → Nat
  | .null => 0
  | .bool _ => 1
  | .number _ => 2
  | .string _ => 3
  | .array _ => 4
  | .object _ => 5

/-- The kind of value that a character starts. A closing bracket starts none. -/
def shapeOf (c : Char) : Nat :=
  if c = 'n' then 0
  else if c = 't' ∨ c = 'f' then 1
  else if c = '"' then 3
  else if c = '[' then 4
  else if c = '\x7b' then 5
  else if c = ']' then 6
  else 2

theorem shapeOf_number {c : Char} (h : c.isDigit = true ∨ c ∈ ['-', 'N', 'i']) : shapeOf c = 2 := by
  rcases h with h | h
  · have hne : ∀ d : Char, d.isDigit = false → c ≠ d := by
      rintro d hd rfl
      rw [hd] at h
      cases h
    simp only [shapeOf, hne 'n' rfl, hne 't' rfl, hne 'f' rfl, hne '"' rfl, hne '[' rfl,
      hne '\x7b' rfl, hne ']' rfl, if_false, or_self]
  · simp only [List.mem_cons, List.not_mem_nil, or_false] at h
    obtain rfl | rfl | rfl := h <;> rfl

/-- The first character of a text tells the kind of the value. -/
theorem head_chars (v : Json) : ∃ c rest, v.chars = c :: rest ∧ shapeOf c = v.shape := by
  match v with
  | .null => exact ⟨_, _, by rw [chars], rfl⟩
  | .bool true => exact ⟨_, _, by rw [chars], rfl⟩
  | .bool false => exact ⟨_, _, by rw [chars], rfl⟩
  | .number n =>
      obtain ⟨c, rest, hcs, hc⟩ := n.head_chars
      exact ⟨c, rest, by rw [chars, hcs], shapeOf_number hc⟩
  | .string s => exact ⟨_, _, by rw [chars, quoted, List.cons_append], rfl⟩
  | .array [] => exact ⟨_, _, by rw [chars], rfl⟩
  | .array (v :: rest) => exact ⟨_, _, by rw [chars, List.cons_append], rfl⟩
  | .object [] => exact ⟨_, _, by rw [chars], rfl⟩
  | .object ((k, v) :: rest) =>
      exact ⟨_, _, by rw [chars, List.cons_append, List.cons_append], rfl⟩

theorem shape_eq {v w : Json} {x y : List Char} (h : v.chars ++ x = w.chars ++ y) :
    v.shape = w.shape := by
  obtain ⟨c, rest, hc, hv⟩ := v.head_chars
  obtain ⟨d, rest', hd, hw⟩ := w.head_chars
  rw [hc, hd, List.cons_append, List.cons_append] at h
  rw [← hv, ← hw, (List.cons.inj h).1]

/-- A run of characters ends at the first one that does not belong to it. -/
theorem append_inj_of_stop {p : Char → Prop} {cs ds x y : List Char} (hcs : ∀ c ∈ cs, p c)
    (hds : ∀ c ∈ ds, p c) (hx : ∀ c ∈ x.head?, ¬p c) (hy : ∀ c ∈ y.head?, ¬p c)
    (h : cs ++ x = ds ++ y) : cs = ds ∧ x = y := by
  induction cs generalizing ds with
  | nil =>
      cases ds with
      | nil => exact ⟨rfl, h⟩
      | cons d ds =>
          rw [List.nil_append, List.cons_append] at h
          exact absurd (hds d List.mem_cons_self) (hx d (by rw [h]; rfl))
  | cons c cs ih =>
      cases ds with
      | nil =>
          rw [List.nil_append, List.cons_append] at h
          exact absurd (hcs c List.mem_cons_self) (hy c (by rw [← h]; rfl))
      | cons d ds =>
          rw [List.cons_append, List.cons_append] at h
          obtain ⟨rfl, hrest⟩ := List.cons.inj h
          obtain ⟨rfl, rfl⟩ := ih (fun c hc => hcs c (List.mem_cons_of_mem _ hc))
            (fun c hc => hds c (List.mem_cons_of_mem _ hc)) hrest
          exact ⟨rfl, rfl⟩

theorem number_append_inj {m n : Number} {x y : List Char} (h : m.chars ++ x = n.chars ++ y)
    (hx : Closes x) (hy : Closes y) : m = n ∧ x = y := by
  have hstop : ∀ {x : List Char}, Closes x →
      ∀ c ∈ x.head?, ¬(c.isDigit = true ∨ c ∈ Decimal.textMarks) := by
    intro x hx c hc
    have hmem := hx c hc
    simp only [List.mem_cons, List.not_mem_nil, or_false] at hmem
    obtain rfl | rfl | rfl := hmem <;> decide
  obtain ⟨hchars, hrest⟩ := append_inj_of_stop (fun c hc => Number.mem_chars hc)
    (fun c hc => Number.mem_chars hc) (hstop hx) (hstop hy) h
  exact ⟨Number.chars_injective hchars, hrest⟩

mutual

/-- A text that starts with a value starts with no other, and the rest of it is determined. -/
theorem chars_append_inj : (v w : Json) → {x y : List Char} → v.chars ++ x = w.chars ++ y →
    Closes x → Closes y → v = w ∧ x = y
  | v, w, x, y, h, hx, hy => by
    have hshape := shape_eq h
    match v, w, hshape with
    | .null, .null, _ => simpa [chars] using h
    | .bool a, .bool b, _ => cases a <;> cases b <;> simp [chars] at h ⊢ <;> exact h
    | .number m, .number n, _ =>
        rw [chars, chars] at h
        obtain ⟨rfl, hrest⟩ := number_append_inj h hx hy
        exact ⟨rfl, hrest⟩
    | .string s, .string t, _ =>
        rw [chars, chars] at h
        obtain ⟨rfl, hrest⟩ := quoted_append_inj h
        exact ⟨rfl, hrest⟩
    | .array [], .array [], _ => simpa [chars] using h
    | .array [], .array (w :: ws), _ =>
        obtain ⟨c, rest, hc, hw⟩ := w.head_chars
        rw [chars, chars, hc] at h
        simp only [List.cons_append, List.cons.injEq, true_and] at h
        rw [← h.1] at hw
        cases w <;> cases hw
    | .array (v :: vs), .array [], _ =>
        obtain ⟨c, rest, hc, hv⟩ := v.head_chars
        rw [chars, chars, hc] at h
        simp only [List.cons_append, List.cons.injEq, true_and] at h
        rw [h.1] at hv
        cases v <;> cases hv
    | .array (v :: vs), .array (w :: ws), _ =>
        rw [chars, chars] at h
        simp only [List.cons_append, List.append_assoc, List.cons.injEq, true_and] at h
        obtain ⟨rfl, hrest⟩ :=
          chars_append_inj v w h (closes_itemsChars _ _) (closes_itemsChars _ _)
        obtain ⟨rfl, hend⟩ := itemsChars_append_inj vs ws hrest
        exact ⟨rfl, hend⟩
    | .object [], .object [], _ => simpa [chars] using h
    | .object [], .object ((k, w) :: fs), _ =>
        simp [chars, quoted] at h
    | .object ((k, v) :: fs), .object [], _ =>
        simp [chars, quoted] at h
    | .object ((k, v) :: fs), .object ((l, w) :: gs), _ =>
        rw [chars, chars] at h
        simp only [List.cons_append, List.append_assoc, List.cons.injEq, true_and] at h
        obtain ⟨rfl, hvalue⟩ := quoted_append_inj h
        simp only [List.cons.injEq, true_and] at hvalue
        obtain ⟨rfl, hrest⟩ :=
          chars_append_inj v w hvalue (closes_fieldsChars _ _) (closes_fieldsChars _ _)
        obtain ⟨rfl, hend⟩ := fieldsChars_append_inj fs gs hrest
        exact ⟨rfl, hend⟩

theorem itemsChars_append_inj : (vs ws : List Json) → {x y : List Char} →
    itemsChars vs ++ x = itemsChars ws ++ y → vs = ws ∧ x = y
  | [], [], x, y, h => by simpa [itemsChars] using h
  | [], w :: ws, x, y, h => by simp [itemsChars] at h
  | v :: vs, [], x, y, h => by simp [itemsChars] at h
  | v :: vs, w :: ws, x, y, h => by
    rw [itemsChars, itemsChars] at h
    simp only [List.cons_append, List.append_assoc, List.cons.injEq, true_and] at h
    obtain ⟨rfl, hrest⟩ := chars_append_inj v w h (closes_itemsChars _ _) (closes_itemsChars _ _)
    obtain ⟨rfl, hend⟩ := itemsChars_append_inj vs ws hrest
    exact ⟨rfl, hend⟩

theorem fieldsChars_append_inj : (fs gs : List (String × Json)) → {x y : List Char} →
    fieldsChars fs ++ x = fieldsChars gs ++ y → fs = gs ∧ x = y
  | [], [], x, y, h => by simpa [fieldsChars] using h
  | [], (l, w) :: gs, x, y, h => by simp [fieldsChars] at h
  | (k, v) :: fs, [], x, y, h => by simp [fieldsChars] at h
  | (k, v) :: fs, (l, w) :: gs, x, y, h => by
    rw [fieldsChars, fieldsChars] at h
    simp only [List.cons_append, List.append_assoc, List.cons.injEq, true_and] at h
    obtain ⟨rfl, hvalue⟩ := quoted_append_inj h
    simp only [List.cons.injEq, true_and] at hvalue
    obtain ⟨rfl, hrest⟩ :=
      chars_append_inj v w hvalue (closes_fieldsChars _ _) (closes_fieldsChars _ _)
    obtain ⟨rfl, hend⟩ := fieldsChars_append_inj fs gs hrest
    exact ⟨rfl, hend⟩

end

/-- No two values have the same text. -/
theorem print_injective {v w : Json} (h : v.print = w.print) : v = w := by
  have hchars : v.chars ++ [] = w.chars ++ [] := by
    rw [List.append_nil, List.append_nil]
    exact String.ofList_injective h
  exact (chars_append_inj v w hchars closes_nil closes_nil).1

theorem print_inj {v w : Json} : v.print = w.print ↔ v = w :=
  ⟨print_injective, congrArg print⟩

end Json

end ChanceProof
