/-!
# Lines in a stream of bytes

A stream is read line by line: a line ends with its newline byte, or with the stream. A line that
is not UTF-8 is taken from the stream all the same, and only its text is missing.
-/

namespace ChanceProof

def newline : UInt8 := 10

/-- Take the first line of a stream, with its newline if it has one. -/
def takeLine : List UInt8 → List UInt8 × List UInt8
  | [] => ([], [])
  | b :: rest =>
    if b = newline then ([b], rest)
    else
      let (line, rest') := takeLine rest
      (b :: line, rest')

/-- The lines of a stream, each with its newline. -/
def linesOf : List UInt8 → List (List UInt8)
  | [] => []
  | b :: rest =>
    if b = newline then [b] :: linesOf rest
    else
      match linesOf rest with
      | [] => [[b]]
      | line :: lines => (b :: line) :: lines

/-- Taking a line loses nothing of the stream. -/
theorem takeLine_append (bytes : List UInt8) :
    (takeLine bytes).1 ++ (takeLine bytes).2 = bytes := by
  induction bytes with
  | nil => rfl
  | cons b rest ih =>
    unfold takeLine
    split
    · rfl
    · simpa using ih

/-- The lines together are the stream. -/
theorem flatten_linesOf (bytes : List UInt8) : (linesOf bytes).flatten = bytes := by
  induction bytes with
  | nil => rfl
  | cons b rest ih =>
    unfold linesOf
    split
    · simp [ih]
    · split
      · next heq => simp_all
      · next heq => simp_all

/-- The lines of a stream are its first line and the lines of what is left. -/
theorem linesOf_eq_cons {bytes : List UInt8} (h : bytes ≠ []) :
    linesOf bytes = (takeLine bytes).1 :: linesOf (takeLine bytes).2 := by
  induction bytes with
  | nil => exact absurd rfl h
  | cons b rest ih =>
    by_cases hb : b = newline
    · simp [linesOf, takeLine, hb]
    · cases rest with
      | nil => simp [linesOf, takeLine, hb]
      | cons b' rest =>
        rw [linesOf, takeLine, if_neg hb, if_neg hb, ih (by simp)]

def textOf? (line : List UInt8) : Option String := String.fromUTF8? ⟨line.toArray⟩

def bytesOf (text : String) : List UInt8 := text.toUTF8.data.toList

end ChanceProof
