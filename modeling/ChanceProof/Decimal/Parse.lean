import ChanceProof.Json.Numeral

/-!
# Numbers on the command line

Whole numbers and floats as people type them: a sign in front, a point anywhere among the digits of
a float, an exponent behind, and words for the values that are not finite. The float nearest to
what was typed is taken.
-/

namespace ChanceProof.Decimal

/-- A whole number below `2 ^ 64`. A plus sign may stand in front. -/
def parseNatural? (s : String) : Option Nat :=
  let ds := match s.toList with
    | '+' :: ds => ds
    | ds => ds
  if ds.isEmpty || !ds.all Char.isDigit then none
  else
    let n := Nat.ofDigitChars 10 ds 0
    if n < unsignedLimit then some n else none

/-- The float nearest to `n · 10 ^ e`. Far out of range only the size of the number counts. -/
def nearestFloat (n : Nat) (e : Int) : Float :=
  let magnitude : Int := (Nat.toDigits 10 n).length + e
  if n = 0 ∨ magnitude < -400 then 0
  else if 400 < magnitude then 1 / 0
  else .ofScientific n (e < 0) e.natAbs

/-- The words for values that are not finite. -/
def specialFloat? (word : String) : Option Float :=
  if word = "inf" ∨ word = "infinity" then some (1 / 0)
  else if word = "nan" then some (0 / 0)
  else none

/-- An exponent, which has to end the text. -/
def parseExponent? : List Char → Option Int
  | [] => some 0
  | c :: rest => do
    let (found, rest) ← Numeral.exponent? (c :: rest)
    let (down, ds) ← found
    if rest.isEmpty then
      let e : Int := Nat.ofDigitChars 10 ds 0
      some (if down then -e else e)
    else none

def parseUnsigned? (cs : List Char) : Option Float :=
  match specialFloat? (String.ofList (cs.map Char.toLower)) with
  | some x => some x
  | none => do
    let (whole, rest) := cs.span Char.isDigit
    let (fraction, rest) := match rest with
      | '.' :: rest => rest.span Char.isDigit
      | rest => ([], rest)
    if whole.isEmpty && fraction.isEmpty then none
    let e ← parseExponent? rest
    return nearestFloat (Nat.ofDigitChars 10 (whole ++ fraction) 0) (e - fraction.length)

def parseFloat? (s : String) : Option Float :=
  match s.toList with
  | '-' :: cs => (parseUnsigned? cs).map (- ·)
  | '+' :: cs => parseUnsigned? cs
  | cs => parseUnsigned? cs

end ChanceProof.Decimal
