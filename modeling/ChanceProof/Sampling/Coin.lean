import ChanceProof.Decimal.Text
import ChanceProof.Json.Printer
import ChanceProof.Model.Basic

/-!
# Coins

The one primitive call flips a coin. Its single parameter is a handle to the probability of
landing true, a number from zero to one.
-/

namespace ChanceProof

inductive CoinDefect
  | parameterCount (n : Nat)
  | notNumber (value : Json)
  | outsideUnit (probability : Float)
  /-- The parameters are not one literal. -/
  | notOneLiteral
  | resultCount (n : Nat)
  /-- The result, as messages show it, is no truth value. -/
  | notBoolean (result : String)
deriving DecidableEq

namespace CoinDefect

def reason : CoinDefect → String
  | .parameterCount n => "expected one parameter, got " ++ toString n
  | .notNumber value => "probability " ++ value.print ++ " is not a number"
  | .outsideUnit p => "probability " ++ Decimal.display p ++ " is outside [0, 1]"
  | .notOneLiteral => "expected one literal probability"
  | .resultCount n => "a coin flip returns one value, not " ++ toString n
  | .notBoolean result => "result " ++ result ++ " is not boolean"

def failure (c : Call) (d : CoinDefect) : Failure := .invalidParameter c.display d.reason

end CoinDefect

/-- The probability that an object stands for. -/
def probabilityOf (v : Json) : Except CoinDefect Float :=
  match v.float? with
  | none => .error (.notNumber v)
  | some p => if 0 ≤ p ∧ p ≤ 1 then .ok p else .error (.outsideUnit p)

def Model.readProbability {σ : Type} (M : Model σ) (c : Call) (h : Handle) : Action σ Float := do
  let p ← (probabilityOf (← M.toExternal h)).mapError (CoinDefect.failure c)
  return p

end ChanceProof
