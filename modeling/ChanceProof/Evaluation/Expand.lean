import ChanceProof.Evaluation.Disjoint
import ChanceProof.Evaluation.Unify
import ChanceProof.Text.Quoted

/-!
# Expanding proofs

Expanding a proof asks the model for the distribution of its call. Every mapping then yields one
label for each call of the distribution; these are unified with it, and recorded as one alternative
of the proof's label once every unknown in them has a value. What was learnt before a failure stays:
values of unknowns, and a label whose alternatives turned out to be ambiguous.
-/

namespace ChanceProof.Session

variable {σ : Type} (M : Model σ)

/-- The canonical literal that a value of the proof of a label stands for. -/
def groundValue (l : Label) (v : Value) : Action (Session σ) Value := do
  match (← get).resolve v with
  | .literal h => return .literal (← canonical M h)
  | v => throw ((ProofDefect.unboundUnknown v).failure l)

def groundValues (l : Label) (vs : List Value) : Action (Session σ) (List Value) :=
  vs.mapM (groundValue M l)

/-- A claim made in the proof of a label, with canonical literals for all its values. -/
def groundLabel (l claim : Label) : Action (Session σ) Label := do
  let parameters ← groundValues M l claim.call.parameters
  let result ← groundValues M l claim.result
  return ⟨⟨claim.call.function, parameters⟩, result⟩

def mapped (l : Label) (m : Mapping) (name : String) : Except Failure Value :=
  match m.get? name with
  | some v => .ok v
  | none => .error ((ProofDefect.leftOut name).failure l)

/-- The labels of the assignments that are left on a walk, by a mapping. -/
def claimsFrom (l : Label) (m : Mapping) : Walk → List Assignment → Except Failure (List Label)
  | _, [] => .ok []
  | w, a :: rest => do
    let call ← (w.resolveCall a.call).mapError Defect.failure
    let result ← a.names.mapM (mapped l m)
    let w ← (w.bind result).mapError Defect.failure
    return ⟨call, result⟩ :: (← claimsFrom l m w rest)

/-- The label of each call of a distribution when a mapping gives the values of its variables. -/
def claims (l : Label) (d : Distribution) (m : Mapping) : Except Failure (List Label) :=
  claimsFrom l m (.start d) d.assignments

/-- The mappings of a proof have to bind the variables of the distribution and no others. -/
def checkNames (p : Proof) (d : Distribution) : Except Failure Unit :=
  let expected := Keyed.names d.names
  if p.mappings.isEmpty || p.names = expected then .ok ()
  else
    .error ((ProofDefect.otherNames (Text.nameSet p.names) (Text.nameSet expected)).failure
      p.label)

/-- Record alternatives of a label in an entry of its own or with those recorded before. -/
def addAlternatives (l : Label) (alternatives : List (List Label)) : Action (Session σ) Unit := do
  if ((← get).number? l).isNone then
    modify fun s => { s with entries := s.entries ++ [⟨l, []⟩] }
  let before := (((← get).entries.find? (·.label = l)).map (·.alternatives)).getD []
  checkDisjoint l (before ++ alternatives)
  modify fun s => { s with entries := s.entries.map fun e =>
    if e.label = l then { e with alternatives := before ++ alternatives } else e }

/-- One alternative of the proof of a label: a mapping unified with the distribution. -/
def alternative (l : Label) (d : Distribution) (m : Mapping) : Action (Session σ) (List Label) := do
  let claims ← claims l d m
  verify M l d claims
  claims.mapM (groundLabel M l)

def alternatives (p : Proof) (c : Call) : Action (Session σ) (List (List Label)) := do
  let d ← distribution M c
  checkNames p d
  p.mappings.mapM (alternative M p.label d)

def expand (p : Proof) : Action (Session σ) Label := do
  let l := p.label
  let call : Call := ⟨l.call.function, ← groundValues M l l.call.parameters⟩
  if call.isPrimitive then
    if !p.mappings.isEmpty then throw (ProofDefect.mappedCoin.failure l)
    let grounded : Label := ⟨call, ← groundValues M l l.result⟩
    addAlternatives grounded [[grounded]]
    modify fun s => { s with proved := s.proved ++ [grounded] }
    return grounded
  else
    let alternatives ← alternatives M p call
    let grounded : Label := ⟨call, ← groundValues M l l.result⟩
    addAlternatives grounded alternatives
    modify fun s => { s with proved := s.proved ++ [grounded] }
    return grounded

end ChanceProof.Session
