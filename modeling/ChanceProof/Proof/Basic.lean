import ChanceProof.Failure
import ChanceProof.Keyed
import ChanceProof.Value

/-!
# Labels and proofs

A label says that a call returns exactly these values. A proof backs a label with alternatives:
each mapping gives a value to every variable of the call's distribution and so describes one
execution. Labels and mappings hold only literals and unknowns, and the mappings of one proof bind
the same names.
-/

namespace ChanceProof

/-- The statement that a call returns these values. -/
structure Label where
  call : Call
  result : List Value
deriving DecidableEq, Repr, Inhabited

namespace Label

def isPrimitive (l : Label) : Bool := l.call.isPrimitive

def isGrounded (l : Label) : Bool := l.call.isGrounded && l.result.all Value.isLiteral

def values (l : Label) : List Value := l.call.parameters ++ l.result

def handles (l : Label) : List Handle := l.values.filterMap Value.handle?

def display (l : Label) : String :=
  String.intercalate " " (l.call.display :: "->" :: l.result.map Value.display)

end Label

/-- Values for the variables of a distribution, by name. -/
abbrev Mapping := Dictionary Value

def Mapping.display (m : Mapping) : String :=
  "\x7b" ++ String.intercalate ", " (m.entries.map fun (k, v) => k ++ "=" ++ v.display) ++ "\x7d"

inductive ProofDefect
  /-- A value that only makes sense inside a distribution. -/
  | neitherLiteralNorUnknown (value : Value)
  | differentNames (mapping first : Mapping)
  | wrongLength (labels calls : Nat)
  /-- An unknown that nothing bound to a literal. -/
  | unboundUnknown (value : Value)
  /-- A variable of the distribution that a mapping leaves out. -/
  | leftOut (name : String)
  /-- The names of the mappings, and those of the distribution. -/
  | otherNames (proof distribution : String)
  /-- A coin flip has no variables to map. -/
  | mappedCoin
deriving DecidableEq

namespace ProofDefect

def reason : ProofDefect → String
  | .neitherLiteralNorUnknown value =>
    value.display ++ " is neither a literal nor a proof variable"
  | .differentNames mapping first =>
    "mapping " ++ Mapping.display mapping ++ " binds different names than " ++ Mapping.display first
  | .wrongLength labels calls =>
    toString labels ++ " sub-labels for a distribution with " ++ toString calls ++ " calls"
  | .unboundUnknown value => value.display ++ " is not bound to a literal"
  | .leftOut name => "mapping does not bind `" ++ name ++ "`"
  | .otherNames proof distribution =>
    "mappings bind " ++ proof ++ " but the distribution binds " ++ distribution
  | .mappedCoin => "a primitive label takes no mappings"

def failure (l : Label) (d : ProofDefect) : Failure := .malformedProof l.display d.reason

end ProofDefect

/-- A label and the alternative executions that lead to it. -/
structure Proof where
  label : Label
  mappings : List Mapping
deriving DecidableEq, Inhabited

namespace Proof

def checkValue : Value → Except ProofDefect Unit
  | .literal _ | .unknown _ => .ok ()
  | v => .error (.neitherLiteralNorUnknown v)

/-- Check a mapping against the names that the first one binds. -/
def checkMapping (first m : Mapping) : Except ProofDefect Unit := do
  if m.keys != first.keys then throw (.differentNames m first)
  m.entries.forM fun e => checkValue e.2

/-- Is this a proof? The first defect is reported. -/
def check (label : Label) (mappings : List Mapping) : Except ProofDefect Unit := do
  label.values.forM checkValue
  match mappings.head? with
  | none => return ()
  | some first => mappings.forM (checkMapping first)

def make (label : Label) (mappings : List Mapping) : Except Failure Proof :=
  match check label mappings with
  | .ok () => .ok ⟨label, mappings⟩
  | .error d => .error (d.failure label)

theorem make_eq_ok_iff {label : Label} {mappings : List Mapping} {p : Proof} :
    make label mappings = .ok p ↔ check label mappings = .ok () ∧ p = ⟨label, mappings⟩ := by
  unfold make
  split
  · next h => simp [h, eq_comm]
  · next h => simp [h]

/-- A proof for a call whose distribution binds no variables. -/
def ofAxiom (label : Label) : Proof := ⟨label, [.empty]⟩

/-- A proof for a coin flip. -/
def ofCoin (label : Label) : Proof := ⟨label, []⟩

/-- The names that every mapping binds. There are none without mappings. -/
def names (p : Proof) : List String := (p.mappings.head?.map Dictionary.keys).getD []

def display (p : Proof) : String :=
  String.join (p.label.display :: p.mappings.map fun m => "\n  | " ++ Mapping.display m)

end Proof

end ChanceProof
