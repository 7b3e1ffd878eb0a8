import ChanceProof.Proof.Portable
import ChanceProof.Wire.Values

/-!
# Labels and proofs as JSON

Both forms of a proof can be written: with handles, as an evaluator holds it, and without, as a
proof file does. A file may leave out empty lists.
-/

namespace ChanceProof

open Decoder

def Label.toJson (l : Label) : Json :=
  .object [("call", l.call.toJson), ("result", .ofList Value.toJson l.result)]

def Label.decode : Decoder Label := fun d => do
  let (call, result) ← twoFields "call" Call.decode "result" (list Value.decode) d
  return ⟨call, result⟩

def Mapping.toJson (m : Mapping) : Json := .object (m.entries.map fun (k, v) => (k, v.toJson))

def Mapping.decode : Decoder Mapping := fun d => do
  return Dictionary.ofList (← fields Value.decode d)

def Proof.toJson (p : Proof) : Json :=
  .object [("label", p.label.toJson), ("mappings", .ofList Mapping.toJson p.mappings)]

/-- A record of a label and of mappings, which may be left out. -/
def labelAndMappings {α β : Type} (label : Decoder α) (mapping : Decoder β) :
    Decoder (α × List β) := fun d => do
  let (l, ms) ← record
    [slot "label" label fun s v => (some v, s.2),
      slot "mappings" (list mapping) fun s v => (s.1, v)]
    (none, []) d
  return (← required "label" l, ms)

def Proof.decode : Decoder Proof := fun d => do
  let (label, mappings) ← labelAndMappings Label.decode Mapping.decode d
  checkedBy (Proof.make label mappings)

def PortableLabel.toJson (l : PortableLabel) : Json :=
  .object [("function", .string l.function), ("parameters", .array l.parameters),
    ("result", .array l.result)]

def PortableLabel.decode : Decoder PortableLabel := fun d => do
  let (function, parameters, result) ← record
    [slot "function" string fun s v => (some v, s.2),
      slot "parameters" (list json) fun s v => (s.1, v, s.2.2),
      slot "result" (list json) fun s v => (s.1, s.2.1, v)]
    (none, [], []) d
  return ⟨← required "function" function, parameters, result⟩

def PortableProof.toJson (p : PortableProof) : Json :=
  .object [("label", p.label.toJson),
    ("mappings", .ofList (fun m => .object m.entries) p.mappings)]

def PortableProof.decode : Decoder PortableProof := fun d => do
  let (label, mappings) ← labelAndMappings PortableLabel.decode
    (fun d => do return Dictionary.ofList (← fields json d)) d
  return ⟨label, mappings⟩

def parseProofs (text : String) : Except Failure (List PortableProof) :=
  ofText (list PortableProof.decode) text

/-- Read a proof file and import its proofs. -/
def Model.loadProofs {σ : Type} (M : Model σ) (text : String) : Action σ (List Proof) := do
  let proofs ← parseProofs text
  M.importProofs proofs

end ChanceProof
