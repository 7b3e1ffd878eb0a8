/-!
# Failures

Everything that can go wrong in sampling and in proving, as one type that models, the evaluator and
the line protocol share. A failure names the call or the label at fault in its displayed form, so
it can be read without the store that the handles belong to.
-/

namespace ChanceProof

inductive Failure
  /-- A distribution or a value in it breaks a rule of its shape. -/
  | malformedDistribution (reason : String)
  /-- A proof claims something else than the model's distribution says. -/
  | unificationConflict (label reason : String)
  /-- Two alternatives of a label may describe the same execution. -/
  | ambiguousProof (label reason : String)
  | unknownFunction (function : String)
  /-- A coin's probability is no number from zero to one, or its result is no truth value. -/
  | invalidParameter (call reason : String)
  /-- A proof breaks a rule of its shape. -/
  | malformedProof (label reason : String)
  /-- A call has a parameter that is no literal. -/
  | ungroundedCall (call : String)
  /-- The store holds no object of this number. -/
  | unknownReference (reference : Nat)
  | invalidReferenceCount (reference : Nat) (count : Int)
  | didNotConverge (label : String) (passes : Nat)
  /-- The other end of a line is gone or sent something unreadable. -/
  | protocol (message : String)
  /-- A text could not be decoded. -/
  | codec (message : String)
deriving DecidableEq, Repr, Inhabited

namespace Failure

def kind : Failure → String
  | .malformedDistribution .. => "malformed_distribution"
  | .unificationConflict .. => "unification_conflict"
  | .ambiguousProof .. => "ambiguous_proof"
  | .unknownFunction .. => "unknown_function"
  | .invalidParameter .. => "invalid_parameter"
  | .malformedProof .. => "malformed_proof"
  | .ungroundedCall .. => "ungrounded_call"
  | .unknownReference .. => "unknown_reference"
  | .invalidReferenceCount .. => "invalid_reference_count"
  | .didNotConverge .. => "did_not_converge"
  | .protocol .. => "protocol"
  | .codec .. => "codec"

def message : Failure → String
  | .malformedDistribution reason => "malformed distribution: " ++ reason
  | .unificationConflict label reason => "unification conflict in `" ++ label ++ "`: " ++ reason
  | .ambiguousProof label reason => "ambiguous proof for `" ++ label ++ "`: " ++ reason
  | .unknownFunction function => "unknown function `" ++ function ++ "`"
  | .invalidParameter call reason => "invalid parameter in `" ++ call ++ "`: " ++ reason
  | .malformedProof label reason => "malformed proof for `" ++ label ++ "`: " ++ reason
  | .ungroundedCall call =>
    "call `" ++ call ++ "` is not grounded: every parameter must be a literal"
  | .unknownReference reference => "unknown or released reference @" ++ toString reference
  | .invalidReferenceCount reference count =>
    "reference count of @" ++ toString reference ++ " would drop to " ++ toString count
  | .didNotConverge label passes =>
    "component containing `" ++ label ++ "` did not converge within " ++ toString passes
      ++ " passes"
  | .protocol message => "protocol error: " ++ message
  | .codec message => "codec error: " ++ message

end Failure

end ChanceProof
