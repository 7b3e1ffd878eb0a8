/-!
# Finite doubles as whole numbers

A finite double is a whole mantissa times a power of two. Everything this library prints about a
float is computed from that form in exact arithmetic, so no rounding happens but the one asked for.
-/

namespace ChanceProof.Decimal

def twoTo (n : Nat) : Nat := Nat.pow 2 n

def tenTo (n : Nat) : Nat := Nat.pow 10 n

/-- A finite double: `mantissa · 2 ^ exponent`, and a sign that zero has too. -/
structure Binary where
  negative : Bool
  mantissa : Nat
  exponent : Int
  /-- The gap to the next smaller double is half the gap to the next larger one: the mantissa is
  the least of its binade, and there is a binade below. -/
  tightBelow : Bool
deriving DecidableEq, Repr

namespace Binary

/-- The parts of a finite double, and `none` for an infinity or a NaN. -/
def ofFloat? (x : Float) : Option Binary :=
  let bits := x.toBits.toNat
  let field : Nat := bits / twoTo 52 % twoTo 11
  let fraction := bits % twoTo 52
  let negative := bits / twoTo 63 == 1
  if field = twoTo 11 - 1 then none
  else if field = 0 then
    some { negative, mantissa := fraction, exponent := -1074, tightBelow := false }
  else
    some { negative, mantissa := twoTo 52 + fraction, exponent := (field : Int) - 1075,
           tightBelow := fraction = 0 && field > 1 }

/-- Quarters of the last binary place, over a common denominator: the magnitude of `b` is
`quarters 0 b` divided by `4 · denominator b`, and `quarters d b` lies `d` quarters of a place
away from it. -/
def quarters (d : Int) (b : Binary) : Nat :=
  (4 * (b.mantissa : Int) + d).toNat * twoTo b.exponent.toNat

/-- The denominator that goes with the magnitude of `b`: a power of two, or one. -/
def denominator (b : Binary) : Nat := twoTo (-b.exponent).toNat

/-- The numerator of the magnitude of `b` over `denominator`. -/
def numerator (b : Binary) : Nat := b.mantissa * twoTo b.exponent.toNat

end Binary

end ChanceProof.Decimal
