import ChanceProof.Wire.Values

/-!
# Failures as JSON

A failure carries its kind and what it is about, so the other end of a line can rebuild it.
-/

namespace ChanceProof

open Decoder

namespace Failure

/-- What a failure is about. -/
def details : Failure → List (String × Json)
  | .malformedDistribution reason => [("reason", .string reason)]
  | .unificationConflict label reason => [("label", .string label), ("reason", .string reason)]
  | .ambiguousProof label reason => [("label", .string label), ("reason", .string reason)]
  | .unknownFunction function => [("function", .string function)]
  | .invalidParameter call reason => [("call", .string call), ("reason", .string reason)]
  | .malformedProof label reason => [("label", .string label), ("reason", .string reason)]
  | .ungroundedCall call => [("call", .string call)]
  | .unknownReference reference => [("reference", .int reference)]
  | .invalidReferenceCount reference count => [("reference", .int reference), ("count", .int count)]
  | .didNotConverge label passes => [("label", .string label), ("passes", .int passes)]
  | .protocol message => [("message", .string message)]
  | .codec message => [("message", .string message)]

def toJson (f : Failure) : Json := .object (("kind", .string f.kind) :: f.details)

/-- The decoder of the fields that go with a kind of failure. -/
def variant : String → Option (Decoder Failure)
  | "malformed_distribution" =>
    some fun d => do return .malformedDistribution (← oneField "reason" string d)
  | "unification_conflict" => some fun d => do
    let (label, reason) ← twoFields "label" string "reason" string d
    return .unificationConflict label reason
  | "ambiguous_proof" => some fun d => do
    let (label, reason) ← twoFields "label" string "reason" string d
    return .ambiguousProof label reason
  | "unknown_function" => some fun d => do return .unknownFunction (← oneField "function" string d)
  | "invalid_parameter" => some fun d => do
    let (call, reason) ← twoFields "call" string "reason" string d
    return .invalidParameter call reason
  | "malformed_proof" => some fun d => do
    let (label, reason) ← twoFields "label" string "reason" string d
    return .malformedProof label reason
  | "ungrounded_call" => some fun d => do return .ungroundedCall (← oneField "call" string d)
  | "unknown_reference" =>
    some fun d => do return .unknownReference (← oneField "reference" natural d)
  | "invalid_reference_count" => some fun d => do
    let (reference, count) ← twoFields "reference" natural "count" integer d
    return .invalidReferenceCount reference count
  | "did_not_converge" => some fun d => do
    let (label, passes) ← twoFields "label" string "passes" natural d
    return .didNotConverge label passes
  | "protocol" => some fun d => do return .protocol (← oneField "message" string d)
  | "codec" => some fun d => do return .codec (← oneField "message" string d)
  | _ => none

def decode : Decoder Failure := tagged "kind" variant

end Failure

end ChanceProof
