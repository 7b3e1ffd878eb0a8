/-!
# Blank characters

The characters with the Unicode property White_Space, a set that has not changed since version 6.3
of the standard.
-/

namespace ChanceProof.Text

/-- The first and last code point of each run of blank characters, in ascending order. -/
def blankRanges : List (Nat × Nat) :=
  [(0x9, 0xd), (0x20, 0x20), (0x85, 0x85), (0xa0, 0xa0), (0x1680, 0x1680), (0x2000, 0x200a),
    (0x2028, 0x2029), (0x202f, 0x202f), (0x205f, 0x205f), (0x3000, 0x3000)]

def isBlank (c : Char) : Bool :=
  blankRanges.any fun (first, last) => first ≤ c.toNat && c.toNat ≤ last

/-- A text without the characters at its end that pass a test. -/
def dropEnd (test : Char → Bool) (cs : List Char) : List Char :=
  (cs.reverse.dropWhile test).reverse

def trimEnd (s : String) : String := String.ofList (dropEnd isBlank s.toList)

def trim (s : String) : String := String.ofList (dropEnd isBlank (s.toList.dropWhile isBlank))

end ChanceProof.Text
