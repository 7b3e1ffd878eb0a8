import ChanceProof.Json.Decoder
import ChanceProof.Json.Printer
import ChanceProof.Model.Basic

/-!
# Values, calls and distributions as JSON

Values carry their kind in a `type` field, so each of them decodes in one way only. A distribution
is checked when it is decoded, just as when it is made.
-/

namespace ChanceProof

open Decoder

namespace Decoder

variable {α : Type}

/-- Decode a text; what is wrong with it becomes a failure. -/
def ofText (decode : Decoder α) (text : String) : Except Failure α :=
  (run decode text.toList).mapError fun (fault, rest) => .codec (explain text.toList rest fault)

/-- Decode a value; what is wrong with it becomes a failure. -/
def ofJson (decode : Decoder α) (v : Json) : Except Failure α :=
  (decode (Document.ofJson v)).mapError fun fault => .codec (reasonOf fault)

/-- A failure of a check on what was decoded, as a fault of its shape. -/
def checkedBy (checked : Except Failure α) : Except Fault α :=
  checked.mapError fun failure => .described failure.message

def oneField (name : String) (decode : Decoder α) : Decoder α := fun d => do
  let found ← record [slot name decode fun _ v => some v] none d
  required name found

def twoFields {β : Type} (first : String) (decode₁ : Decoder α) (second : String)
    (decode₂ : Decoder β) : Decoder (α × β) := fun d => do
  let (a, b) ← record
    [slot first decode₁ fun s v => (some v, s.2), slot second decode₂ fun s v => (s.1, some v)]
    (none, none) d
  return (← required first a, ← required second b)

end Decoder

/-- An array of what the items stand for. -/
def Json.ofList {α : Type} (encode : α → Json) (items : List α) : Json := .array (items.map encode)

/-! ## Values -/

def Value.toJson : Value → Json
  | .literal h => .object [("type", .string "literal"), ("ref", .int h.number)]
  | .output call index =>
    .object [("type", .string "callRef"), ("callIndex", .int call), ("valueIndex", .int index)]
  | .named name => .object [("type", .string "local"), ("name", .string name)]
  | .unknown name => .object [("type", .string "proofvar"), ("name", .string name)]

def Value.variant : String → Option (Decoder Value)
  | "literal" => some fun d => do return .literal ⟨← oneField "ref" natural d⟩
  | "callRef" => some fun d => do
    let (call, index) ← twoFields "callIndex" natural "valueIndex" natural d
    return .output call index
  | "local" => some fun d => do return .named (← oneField "name" string d)
  | "proofvar" => some fun d => do return .unknown (← oneField "name" string d)
  | _ => none

def Value.decode : Decoder Value := tagged "type" Value.variant

def Handle.toJson (h : Handle) : Json := (Value.literal h).toJson

/-- A handle is written as a literal; any other value is refused. -/
def Handle.decode : Decoder Handle := fun d => do
  match ← Value.decode d with
  | .literal h => return h
  | v => checkedBy (.error (.codec ("expected a literal reference, got " ++ v.display)))

/-! ## Calls and distributions -/

def Call.toJson (c : Call) : Json :=
  .object [("function", .string c.function), ("parameters", .ofList Value.toJson c.parameters)]

def Call.decode : Decoder Call := fun d => do
  let (function, parameters) ← twoFields "function" string "parameters" (list Value.decode) d
  return ⟨function, parameters⟩

def Assignment.toJson (a : Assignment) : Json :=
  .object [("call", a.call.toJson), ("variables", .ofList .string a.names)]

def Assignment.decode : Decoder Assignment := fun d => do
  let (call, names) ← twoFields "call" Call.decode "variables" (list string) d
  return ⟨call, names⟩

def Distribution.toJson (d : Distribution) : Json :=
  .object [("assignments", .ofList Assignment.toJson d.assignments),
    ("result", .ofList Value.toJson d.result)]

def Distribution.decode : Decoder Distribution := fun d => do
  let (assignments, result) ←
    twoFields "assignments" (list Assignment.decode) "result" (list Value.decode) d
  checkedBy (Distribution.make assignments result)

def Expansion.toJson (e : Expansion) : Json :=
  .object [("distribution", e.distribution.toJson), ("time", .ofFloat e.seconds)]

def Expansion.decode : Decoder Expansion := fun d => do
  let (distribution, seconds) ← twoFields "distribution" Distribution.decode "time" float d
  return ⟨distribution, seconds⟩

end ChanceProof
