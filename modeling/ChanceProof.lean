import ChanceProof.Json.Printer
import ChanceProof.Json.Decoder
import ChanceProof.Proof.Portable
import ChanceProof.Model.Functions
import ChanceProof.Sampling.Depth
import ChanceProof.Graph.Components
import ChanceProof.Text.Quoted
import ChanceProof.Solving.Limit
import ChanceProof.Evaluation.Solve
import ChanceProof.Wire.Failures
import ChanceProof.Wire.Results
import ChanceProof.Line.Remote
import ChanceProof.CommandLine.Run
import ChanceProof.Main
import ChanceProof.Proofs.Decimal.Layout
import ChanceProof.Proofs.Json.PrintInjective
import ChanceProof.Proofs.Json.Zeros
import ChanceProof.Proofs.Json.Reading
import ChanceProof.Proofs.Model.Library
import ChanceProof.Proofs.Distribution.Slots
import ChanceProof.Proofs.Evaluation.Accepted
import ChanceProof.Proofs.Evaluation.Equality
import ChanceProof.Proofs.Graph.Components
import ChanceProof.Proofs.Line.Transparent
import ChanceProof.Proofs.Sampling.Conservation
import ChanceProof.Proofs.Evaluation.Exact
import ChanceProof.Proofs.Evaluation.Rejected
import ChanceProof.Proofs.Evaluation.Substitution
import ChanceProof.Proofs.Evaluation.Reordered
import ChanceProof.Proofs.Evaluation.Provable
import ChanceProof.Proofs.Wire.Codec
import ChanceProof.Proofs.Evaluation.Renamed
import ChanceProof.Proofs.Evaluation.Afresh
import ChanceProof.Proofs.CommandLine.Report
import ChanceProof.Proofs.Line.Framing
import ChanceProof.Proofs.CommandLine.Outcomes
import ChanceProof.Proofs.Line.Atomic
import ChanceProof.Proofs.Line.Paired
import ChanceProof.Proofs.Evaluation.Impossible
import ChanceProof.Proofs.Evaluation.Exclusive
import ChanceProof.Proofs.Evaluation.Truncated
import ChanceProof.Proofs.CommandLine.Unbounded
import ChanceProof.Proofs.Evaluation.Unifier
import ChanceProof.Proofs.Evaluation.Verified
import ChanceProof.Proofs.Evaluation.Undisturbed
import ChanceProof.Proofs.Distribution.Respelled
import ChanceProof.Proofs.Model.Building
import ChanceProof.Proofs.Sampling.Failed
import ChanceProof.Proofs.Evaluation.Exported
import ChanceProof.Proofs.CommandLine.Guarded
