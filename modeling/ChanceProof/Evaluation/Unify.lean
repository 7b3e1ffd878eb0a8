import ChanceProof.Distribution.Walk
import ChanceProof.Evaluation.Session

/-!
# Unification

Unifying what a proof claims with what the model says finds the values of unknowns. Two literals
agree when they are one handle or the model calls their objects equal; an unknown without a value
takes that of the other side, as a canonical handle, and keeps it for the rest of the session.
-/

namespace ChanceProof

/-- How a proof and the model disagree. -/
inductive Conflict
  /-- Two objects, as messages show them. -/
  | objects (proof model : String)
  | bothUnbound (proof model : Value)
  | counts (proof model : Nat)
  | calls (proof model : Call)
deriving DecidableEq

namespace Conflict

def reason : Conflict → String
  | .objects proof model => "proof claims " ++ proof ++ " where the model has " ++ model
  | .bothUnbound proof model =>
    "cannot unify unbound " ++ proof.display ++ " with unbound " ++ model.display
  | .counts proof model =>
    "proof has " ++ toString proof ++ " values where the model has " ++ toString model
  | .calls proof model =>
    "proof calls `" ++ proof.display ++ "` where the model calls `" ++ model.display ++ "`"

def failure (l : Label) (c : Conflict) : Failure := .unificationConflict l.display c.reason

end Conflict

namespace Session

variable {σ : Type} (M : Model σ)

def bind (name : String) (h : Handle) : Action (Session σ) Unit := do
  let h ← canonical M h
  modify fun s => { s with bindings := s.bindings ++ [(name, h)] }

def unifyHandles (l : Label) (a b : Handle) : Action (Session σ) Unit := do
  if a = b then return ()
  if ← ask (M.isEqual a b) then return ()
  let proof ← display M a
  let model ← display M b
  throw ((Conflict.objects proof model).failure l)

/-- Unify a value of a proof with one of the model, in the proof of a label. -/
def unify (l : Label) (proof model : Value) : Action (Session σ) Unit := do
  let s ← get
  match s.resolve proof, s.resolve model with
  | .literal a, .literal b => unifyHandles M l a b
  | .unknown name, .literal h | .literal h, .unknown name => bind M name h
  | .unknown x, .unknown y =>
    if x = y then return ()
    else throw ((Conflict.bothUnbound (.unknown x) (.unknown y)).failure l)
  | p, m => throw (Defect.unresolved p m).failure

def unifyEach (l : Label) : List Value → List Value → Action (Session σ) Unit
  | p :: proof, m :: model => do
    unify M l p m
    unifyEach l proof model
  | _, _ => return ()

/-- Unify two lists of values, which have to be equally long. -/
def unifyValues (l : Label) (proof model : List Value) : Action (Session σ) Unit := do
  if proof.length ≠ model.length then
    throw ((Conflict.counts proof.length model.length).failure l)
  unifyEach M l proof model

/-- Unify two calls, which have to be of one function. -/
def unifyCalls (l : Label) (proof model : Call) : Action (Session σ) Unit := do
  if proof.function ≠ model.function then throw ((Conflict.calls proof model).failure l)
  unifyValues M l proof.parameters model.parameters

/-- Walk a distribution with the claims of these labels, unifying their calls with its own. -/
def verifySteps (l : Label) : Walk → List Label → Action (Session σ) Walk
  | w, [] => return w
  | w, claim :: rest =>
    match w.next? with
    | none => return w
    | some a => do
      let call ← (w.resolveCall a.call).mapError Defect.failure
      unifyCalls M l claim.call call
      let w ← (w.bind claim.result).mapError Defect.failure
      verifySteps l w rest

/-- Check that these labels, one for each call, are an execution of a distribution that returns the
result of a label. -/
def verify (l : Label) (d : Distribution) (claims : List Label) : Action (Session σ) Unit := do
  if claims.length ≠ d.assignments.length then
    throw ((ProofDefect.wrongLength claims.length d.assignments.length).failure l)
  let w ← verifySteps M l (.start d) claims
  let result ← w.resolveResult.mapError Defect.failure
  unifyValues M l l.result result

end Session

end ChanceProof
