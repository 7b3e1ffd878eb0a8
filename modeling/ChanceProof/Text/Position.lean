import ChanceProof.Text.Blank

/-!
# Positions in a text

A message about a text may end with the place that it is about, as in ` at line 3 column 7`.
`splitPosition?` takes such a place off a message again: `splitPosition?_append_display` says that
it finds just what was put there.
-/

namespace ChanceProof.Text

/-- A place in a text, counted from line one. Line zero is no place. -/
structure Position where
  line : Nat
  column : Nat
deriving DecidableEq, Repr

def Position.display (p : Position) : String :=
  " at line " ++ toString p.line ++ " column " ++ toString p.column

/-- The number at the end of a text, and the text before it. -/
def numberAtEnd? (cs : List Char) : Option (List Char × Nat) :=
  match (cs.reverse.takeWhile Char.isDigit).reverse with
  | [] => none
  | digits => some (dropEnd Char.isDigit cs, Nat.ofDigitChars 10 digits 0)

/-- The text before these words at its end. -/
def beforeWords? (words : String) (cs : List Char) : Option (List Char) :=
  if words.toList.isSuffixOf cs then some (cs.take (cs.length - words.toList.length)) else none

/-- The position at the end of a message, and the message before it. -/
def splitPosition? (message : String) : Option (String × Position) := do
  let (cs, column) ← numberAtEnd? message.toList
  let cs ← beforeWords? " column " cs
  let (cs, line) ← numberAtEnd? cs
  let cs ← beforeWords? " at line " cs
  return (String.ofList cs, ⟨line, column⟩)

/-- A number is found behind any character that is no digit. -/
theorem numberAtEnd?_append (cs : List Char) {c : Char} (h : c.isDigit = false) (n : Nat) :
    numberAtEnd? (cs ++ [c] ++ Nat.toDigits 10 n) = some (cs ++ [c], n) := by
  have hdigits : ∀ d ∈ (Nat.toDigits 10 n).reverse, d.isDigit = true := fun d hd =>
    Nat.isDigit_of_mem_toDigits (by decide) (by decide) (List.mem_reverse.1 hd)
  have htake : ((cs ++ [c] ++ Nat.toDigits 10 n).reverse.takeWhile Char.isDigit).reverse
      = Nat.toDigits 10 n := by
    rw [List.reverse_append, List.takeWhile_append_of_pos hdigits]
    simp [h]
  have hdrop : dropEnd Char.isDigit (cs ++ [c] ++ Nat.toDigits 10 n) = cs ++ [c] := by
    rw [dropEnd, List.reverse_append, List.dropWhile_append_of_pos hdigits]
    simp [h]
  unfold numberAtEnd?
  rw [htake, hdrop]
  split
  · next hnil => exact absurd hnil Nat.toDigits_ne_nil
  · rw [Nat.ofDigitChars_toDigits (by decide) (by decide)]

theorem beforeWords?_append (cs : List Char) (words : String) :
    beforeWords? words (cs ++ words.toList) = some cs := by
  simp [beforeWords?]

/-- The position that a message was given is the one found at its end. -/
theorem splitPosition?_append_display (message : String) (p : Position) :
    splitPosition? (message ++ p.display) = some (message, p) := by
  have hcolumn : (message ++ p.display).toList
      = (message.toList ++ " at line ".toList ++ Nat.toDigits 10 p.line ++ " column".toList)
        ++ [' '] ++ Nat.toDigits 10 p.column := by
    simp [Position.display]
  have hline : (message.toList ++ " at line ".toList ++ Nat.toDigits 10 p.line ++ " column".toList)
        ++ [' ']
      = (message.toList ++ " at line".toList ++ [' '] ++ Nat.toDigits 10 p.line)
        ++ " column ".toList := by
    simp
  have hmessage : message.toList ++ " at line".toList ++ [' ']
      = message.toList ++ " at line ".toList := by
    simp
  rw [splitPosition?, hcolumn, numberAtEnd?_append _ (by decide)]
  simp only [Option.bind_eq_bind, Option.bind_some]
  rw [hline, beforeWords?_append]
  simp only [Option.bind_some]
  rw [numberAtEnd?_append _ (by decide)]
  simp only [Option.bind_some]
  rw [hmessage, beforeWords?_append]
  simp

end ChanceProof.Text
