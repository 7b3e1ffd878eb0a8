import ChanceProof.Json.Basic

/-!
# Numbers in JSON text

A numeral is split into its parts before anything is computed from it. Without a point and an
exponent it stands for a whole number while that fits 64 bits. Every other numeral is a float: its
leading digits, as long as they fit 64 bits, times one correctly rounded power of ten. A numeral
beyond the largest float has no value.
-/

namespace ChanceProof

/-- Whole numbers of 64 bits without a sign are below `2 ^ 64`. -/
def unsignedLimit : Nat := Nat.pow 2 64

/-- Whole numbers of 64 bits with a sign are below `2 ^ 63`, and not below its negative. -/
def signedLimit : Nat := Nat.pow 2 63

/-- The parts of a numeral. No digit of the fraction means that there is no point. -/
structure Numeral where
  negative : Bool
  whole : List Char
  fraction : List Char
  /-- Whether the exponent is negative, and its digits. -/
  exponent : Option (Bool × List Char)
deriving DecidableEq, Repr

namespace Numeral

/-- A nonempty run of digits and what follows it. -/
def digits? (cs : List Char) : Option (List Char × List Char) :=
  match cs.span Char.isDigit with
  | ([], _) => none
  | run => some run

/-- The digits before the point: one zero, or a run that starts with another digit. -/
def whole? : List Char → Option (List Char × List Char)
  | '0' :: rest => if (rest.headD ' ').isDigit then none else some (['0'], rest)
  | cs => digits? cs

/-- The fraction after its point, if there is a point. -/
def fraction? : List Char → Option (List Char × List Char)
  | '.' :: rest => digits? rest
  | cs => some ([], cs)

def exponentSign : List Char → Bool × List Char
  | '+' :: rest => (false, rest)
  | '-' :: rest => (true, rest)
  | cs => (false, cs)

/-- The exponent after its letter, if there is one. -/
def exponent? : List Char → Option (Option (Bool × List Char) × List Char)
  | c :: rest =>
    if c = 'e' ∨ c = 'E' then
      (digits? (exponentSign rest).2).map fun (ds, rest') =>
        (some ((exponentSign rest).1, ds), rest')
    else some (none, c :: rest)
  | [] => some (none, [])

def scan? (cs : List Char) : Option (Numeral × List Char) := do
  let (negative, cs) := match cs with
    | '-' :: rest => (true, rest)
    | cs => (false, cs)
  let (whole, cs) ← whole? cs
  let (fraction, cs) ← fraction? cs
  let (exponent, cs) ← exponent? cs
  return ({ negative, whole, fraction, exponent }, cs)

/-! ## The value of a numeral -/

/-- Append digits to a whole number while it fits 64 bits. The digits that no longer fit are handed
back. -/
def absorb (n : Nat) : List Char → Nat × List Char
  | [] => (n, [])
  | c :: cs =>
    let n' := 10 * n + (c.toNat - '0'.toNat)
    if n' < unsignedLimit then absorb n' cs else (n, c :: cs)

/-- The float nearest to a power of ten. -/
def tenTo (e : Nat) : Float := .ofScientific 1 false e

/-- The float `significand · 10 ^ e`, with one rounding for the power and one for the product, and
in two steps below the least power. There is none beyond the largest float. -/
def scale? (significand : Nat) (e : Int) : Option Float :=
  let x := Float.ofNat significand
  match e with
  | .ofNat e =>
    if 308 < e then if significand = 0 then some x else none
    else
      let y := x * tenTo e
      if y.isInf then none else some y
  | .negSucc e =>
    if e + 1 ≤ 308 then some (x / tenTo (e + 1))
    else if e + 1 ≤ 616 then some (x / tenTo 308 / tenTo (e + 1 - 308))
    else some 0

def exponentLimit : Nat := Nat.pow 2 31 - 1

def signed (negative : Bool) (x : Float) : Number := .float (if negative then -x else x)

/-- The value of a numeral without a point and an exponent that fits 64 bits. Minus zero and what
lies below the signed range are floats. -/
def wholeValue (negative : Bool) (n : Nat) : Number :=
  if !negative then .int n
  else if 0 < n ∧ n ≤ signedLimit then .int (-n)
  else .float (-(Float.ofNat n))

/-- The number that a numeral stands for, and `none` beyond the largest float. -/
def value? (n : Numeral) : Option Number :=
  let (significand, excess) := absorb 0 n.whole
  if excess.isEmpty && n.fraction.isEmpty && n.exponent.isNone then
    some (wholeValue n.negative significand)
  else
    let (significand, dropped) := absorb significand n.fraction
    let shift : Int := excess.length - (n.fraction.length - dropped.length : Nat)
    match n.exponent with
    | none => (scale? significand shift).map (signed n.negative)
    | some (down, ds) =>
      let e := Nat.ofDigitChars 10 ds 0
      if e ≤ exponentLimit then
        (scale? significand (if down then shift - e else shift + e)).map (signed n.negative)
      else if significand = 0 || down then some (signed n.negative 0)
      else none

end Numeral

end ChanceProof
