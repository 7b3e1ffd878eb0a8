/-!
# Arithmetic of probabilities

The solver never looks into a probability: it multiplies along an execution, adds over alternatives
and compares successive values, through an `Arithmetic`. The one that runs keeps logarithms of
probabilities as floats. Adding there goes through the largest summand, so that nothing underflows.
-/

namespace ChanceProof

/-- What the solver needs to know about probabilities. -/
structure Arithmetic (α : Type) where
  /-- The probability of what never happens. -/
  impossible : α
  /-- The probability of what always happens. -/
  certain : α
  times : α → α → α
  /-- The sum over alternatives that exclude each other. -/
  sum : List α → α
  /-- The larger of a present value and a new one. -/
  larger : α → α → α
  /-- The probability that a coin lands this way. -/
  coin : Float → Bool → α
  /-- A present value and a new one are close enough to stop. -/
  settled : α → α → Bool

namespace LogSpace

def negInf : Float := -(1 / 0)

/-- The larger of two floats, and the other one of a NaN. -/
def larger (x y : Float) : Float :=
  if x < y then y else if x != x then y else x

/-- The logarithm of the sum of `exp x` over a list. An infinite maximum is the answer. -/
def sum (xs : List Float) : Float :=
  let most := xs.foldl larger negInf
  if most.isInf then most
  else most + Float.log ((xs.map fun x => Float.exp (x - most)).foldl (· + ·) 0)

/-- The logarithm of `1 + x`, accurate for small `x` too: where `1 + x` rounds, the quotient makes
up for what rounding lost. -/
def logOneMore (x : Float) : Float :=
  let y := 1 + x
  if y == 1 then x else if x == -1 then negInf else Float.log y * (x / (y - 1))

/-- The logarithm of the probability that a coin lands this way. -/
def coin (probability : Float) (landed : Bool) : Float :=
  if landed then Float.log probability else logOneMore (-probability)

/-- By how much a new value exceeds the present one. -/
def growth (present new : Float) : Float :=
  if new == negInf then 0 else larger 0 (new - present)

end LogSpace

/-- Logarithms of probabilities as floats. A value is settled once it grows by no more than the
tolerance. -/
def logArithmetic (tolerance : Float) : Arithmetic Float where
  impossible := LogSpace.negInf
  certain := 0
  times := (· + ·)
  sum := LogSpace.sum
  larger := LogSpace.larger
  coin := LogSpace.coin
  settled present new := LogSpace.growth present new ≤ tolerance

end ChanceProof
