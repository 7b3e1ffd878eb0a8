import ChanceProof.Json.Printer
import ChanceProof.Model.Basic
import ChanceProof.Proof.Basic

/-!
# Proofs without handles

Proof files name no handles. Their values are JSON: an object with the one key `$var` and a string
stands for an unknown, every other value for itself. Importing interns each of the others as an
object of its own, in the order of the file and of the names in a mapping; exporting reads the
objects back.
-/

namespace ChanceProof

/-- The key that marks an unknown. -/
def unknownKey : String := "$var"

/-- A label whose values are JSON. -/
structure PortableLabel where
  function : String
  parameters : List Json
  result : List Json
deriving DecidableEq, Inhabited

/-- A proof whose values are JSON. -/
structure PortableProof where
  label : PortableLabel
  mappings : List (Dictionary Json)
deriving DecidableEq, Inhabited

def PortableLabel.display (l : PortableLabel) : String :=
  let commas (vs : List Json) := String.intercalate ", " (vs.map Json.print)
  l.function ++ "(" ++ commas l.parameters ++ ") -> [" ++ commas l.result ++ "]"

namespace Json

/-- The unknown that a value marks: `none` for a value that stands for itself, and a failure for an
object that has the marker's key but is no marker. -/
def unknown? (v : Json) : Except Failure (Option String) :=
  match v.field? unknownKey with
  | none => .ok none
  | some name =>
    match v, name with
    | .object [_], .string s => .ok (some s)
    | _, _ =>
      .error (.codec
        ("`" ++ unknownKey ++ "` must be the only key and name a variable, got " ++ v.print))

def ofUnknown (name : String) : Json := .object [(unknownKey, .string name)]

end Json

namespace Model

variable {σ : Type} (M : Model σ)

/-- Import a value of a proof file. -/
def importValue (v : Json) : Action σ Value := do
  match ← v.unknown? with
  | some name => return .unknown name
  | none => return .literal (← M.fromExternal v)

def importLabel (l : PortableLabel) : Action σ Label := do
  let parameters ← l.parameters.mapM M.importValue
  let result ← l.result.mapM M.importValue
  return ⟨⟨l.function, parameters⟩, result⟩

def importMapping (m : Dictionary Json) : Action σ Mapping := do
  return .ofList (← m.entries.mapM fun e => do return (e.1, ← M.importValue e.2))

def importProof (p : PortableProof) : Action σ Proof := do
  let label ← M.importLabel p.label
  let mappings ← p.mappings.mapM M.importMapping
  Proof.make label mappings

def importProofs (ps : List PortableProof) : Action σ (List Proof) := ps.mapM M.importProof

/-- The host-neutral form of a value of a proof. -/
def exportValue : Value → Action σ Json
  | .literal h => M.toExternal h
  | .unknown name => return .ofUnknown name
  | v => throw (.codec (v.display ++ " has no host-neutral form"))

def exportLabel (l : Label) : Action σ PortableLabel := do
  let parameters ← l.call.parameters.mapM M.exportValue
  let result ← l.result.mapM M.exportValue
  return ⟨l.call.function, parameters, result⟩

end Model

end ChanceProof
