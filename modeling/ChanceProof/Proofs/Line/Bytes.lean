import ChanceProof.Line.Stream
import Mathlib.Data.List.Basic

/-!
# Texts in a stream of bytes

The byte that ends a line stands for itself only: in UTF-8 no other character has it among its
bytes. So a text can be cut into lines before or after it is encoded, and a stream of texts with a
newline behind each is cut exactly where one text ends.
-/

namespace ChanceProof

/-! ## Cutting at line ends -/

/-- A list is a piece without the separator, or such a piece with a separator and a list behind
it. -/
theorem piece_induction {α : Type} {x : α} {P : List α → Prop} (last : ∀ l, x ∉ l → P l)
    (piece : ∀ l rest, x ∉ l → P rest → P (l ++ x :: rest)) (xs : List α) : P xs := by
  induction hn : xs.length using Nat.strongRecOn generalizing xs with
  | ind n ih =>
      by_cases hx : x ∈ xs
      · obtain ⟨l, rest, rfl, hl⟩ := List.eq_append_cons_of_mem hx
        refine piece l rest hl (ih rest.length ?_ rest rfl)
        rw [← hn, List.length_append, List.length_cons]
        omega
      · exact last xs hx

theorem linesOf_append_newline {line : List UInt8} (h : newline ∉ line) (rest : List UInt8) :
    linesOf (line ++ newline :: rest) = (line ++ [newline]) :: linesOf rest := by
  induction line with
  | nil => rw [List.nil_append, linesOf, if_pos rfl, List.nil_append]
  | cons b line ih =>
      rw [List.mem_cons, not_or] at h
      rw [List.cons_append, linesOf, if_neg (Ne.symm h.1), ih h.2]
      rfl

theorem linesOf_unterminated {line : List UInt8} (h : newline ∉ line) (hne : line ≠ []) :
    linesOf line = [line] := by
  induction line with
  | nil => exact absurd rfl hne
  | cons b line ih =>
      rw [List.mem_cons, not_or] at h
      rw [linesOf, if_neg (Ne.symm h.1)]
      cases line with
      | nil => rfl
      | cons b' line => rw [ih h.2 (List.cons_ne_nil _ _)]

/-- What is written with a newline behind each piece is cut into the pieces, and ends there. -/
theorem splitOn_flatMap_newline {pieces : List (List UInt8)} (h : ∀ p ∈ pieces, newline ∉ p) :
    (pieces.flatMap fun p => p ++ [newline]).splitOn newline = pieces ++ [[]] := by
  induction pieces with
  | nil => rfl
  | cons p pieces ih =>
      obtain ⟨hp, hrest⟩ := List.forall_mem_cons.1 h
      rw [List.flatMap_cons, List.append_assoc, List.singleton_append,
        List.splitOn_append_cons_self_of_not_mem hp, ih hrest, List.cons_append]

/-! ## Texts as bytes -/

theorem bytesOf_eq (text : String) : bytesOf text = text.toList.flatMap String.utf8EncodeChar := by
  have h : text.toByteArray = (text.toList.flatMap String.utf8EncodeChar).toByteArray :=
    String.utf8Encode_toList.symm
  rw [bytesOf, String.toUTF8, h]
  simp

theorem bytesOf_append (s t : String) : bytesOf (s ++ t) = bytesOf s ++ bytesOf t := by
  rw [bytesOf_eq, bytesOf_eq, bytesOf_eq, String.toList_append, List.flatMap_append]

theorem bytesOf_eq_nil_iff {text : String} : bytesOf text = [] ↔ text.toList = [] := by
  rw [bytesOf_eq, List.flatMap_eq_nil_iff]
  constructor
  · intro h
    cases hcs : text.toList with
    | nil => rfl
    | cons c cs => exact absurd (h c (hcs ▸ List.mem_cons_self)) String.utf8EncodeChar_ne_nil
  · intro h
    simp [h]

theorem length_bytesOf (text : String) : (bytesOf text).length = text.utf8ByteSize := rfl

@[simp] theorem textOf?_bytesOf (text : String) : textOf? (bytesOf text) = some text := by
  have h : (⟨(bytesOf text).toArray⟩ : ByteArray) = text.toByteArray := rfl
  rw [textOf?, h, String.fromUTF8?, dif_pos text.isValidUTF8]
  rfl

theorem newline_ne_ofNat {n : Nat} (h : 128 ≤ n % 256) : newline ≠ UInt8.ofNat n := by
  intro heq
  have hnat := congrArg UInt8.toNat heq
  rw [UInt8.toNat_ofNat'] at hnat
  simp [newline] at hnat
  omega

theorem newline_not_mem_utf8EncodeChar {c : Char} (h : c ≠ '\n') :
    newline ∉ String.utf8EncodeChar c := by
  suffices hall : ∀ b ∈ String.utf8EncodeChar c, newline ≠ b from fun hmem => hall _ hmem rfl
  unfold String.utf8EncodeChar
  simp only
  split
  · next hle =>
      refine List.forall_mem_singleton.2 fun heq => h (Char.ext (UInt32.toNat_inj.1 ?_))
      have hnat := congrArg UInt8.toNat heq
      rw [UInt8.toNat_ofNat', Nat.mod_eq_of_lt (by omega)] at hnat
      exact hnat.symm
  -- A character that is no byte by itself is written in bytes from 128 on.
  · split
    · simp only [List.forall_mem_cons]
      exact ⟨newline_ne_ofNat (by omega), newline_ne_ofNat (by omega), by simp⟩
    · split
      · simp only [List.forall_mem_cons]
        exact ⟨newline_ne_ofNat (by omega), newline_ne_ofNat (by omega),
          newline_ne_ofNat (by omega), by simp⟩
      · simp only [List.forall_mem_cons]
        exact ⟨newline_ne_ofNat (by omega), newline_ne_ofNat (by omega),
          newline_ne_ofNat (by omega), newline_ne_ofNat (by omega), by simp⟩

theorem newline_not_mem_bytesOf {text : String} (h : '\n' ∉ text.toList) :
    newline ∉ bytesOf text := by
  rw [bytesOf_eq, List.mem_flatMap]
  intro hmem
  obtain ⟨c, hc, hbyte⟩ := hmem
  exact newline_not_mem_utf8EncodeChar (fun heq => h (heq ▸ hc)) hbyte

theorem bytesOf_lineEnd : bytesOf "\n" = [newline] := rfl

end ChanceProof
