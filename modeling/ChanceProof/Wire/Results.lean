import ChanceProof.Evaluation.Solve
import ChanceProof.Wire.Proofs

/-!
# Settings and results as JSON

Results are written with the logarithms of probabilities; what is impossible, whose logarithm is
minus infinity, is written as `null`. Settings may leave out whatever is to stay as usual.
-/

namespace ChanceProof

open Decoder

def Settings.toJson (s : Settings) : Json :=
  .object [("tolerance", .ofFloat s.tolerance),
    ("max_passes", s.maxPasses.elim .null fun n => .int n)]

def Settings.decode : Decoder Settings :=
  record
    [slot "tolerance" float fun s v => { s with tolerance := v },
      slot "max_passes" (optional natural) fun s v => { s with maxPasses := v }]
    .standard

def Stats.toJson (s : Stats) : Json :=
  .object [("labels", .int s.labels), ("components", .int s.components),
    ("recursive_components", .int s.recursiveComponents), ("passes", .int s.passes),
    ("model_queries", .int s.modelQueries), ("cache_hits", .int s.cacheHits),
    ("model_time", .ofFloat s.modelSeconds)]

/-- The counts among the statistics, in the order in which they are written. -/
def Stats.countNames : List String :=
  ["labels", "components", "recursive_components", "passes", "model_queries", "cache_hits"]

def Stats.decode : Decoder Stats := fun d => do
  let counts := Stats.countNames.map fun name =>
    slot name natural fun (s : List (String × Nat) × Option Float) v => ((name, v) :: s.1, s.2)
  let (counts, seconds) ← record (counts ++ [slot "model_time" float fun s v => (s.1, some v)])
    ([], none) d
  let count (name : String) : Except Fault Nat := required name (counts.lookup name)
  return {
    labels := ← count "labels"
    components := ← count "components"
    recursiveComponents := ← count "recursive_components"
    passes := ← count "passes"
    modelQueries := ← count "model_queries"
    cacheHits := ← count "cache_hits"
    modelSeconds := ← required "model_time" seconds }

def labelValueToJson (v : Label × Float) : Json :=
  .object [("label", v.1.toJson), ("log_prob", .ofFloat v.2)]

def labelValueDecode : Decoder (Label × Float) := fun d => do
  let (label, value) ← twoFields "label" Label.decode "log_prob" (optional float) d
  return (label, value.getD LogSpace.negInf)

def bindingToJson (b : String × Handle) : Json :=
  .object [("name", .string b.1), ("value", b.2.toJson)]

def bindingDecode : Decoder (String × Handle) := twoFields "name" string "value" Handle.decode

def Results.toJson (r : Results Float) : Json :=
  .object [("labels", .ofList labelValueToJson r.labels), ("proved", .ofList Label.toJson r.proved),
    ("bindings", .ofList bindingToJson r.bindings), ("stats", r.stats.toJson)]

def Results.decode : Decoder (Results Float) := fun d => do
  let (labels, proved, bindings, stats) ← record
    [slot "labels" (list labelValueDecode) fun s v => (some v, s.2),
      slot "proved" (list Label.decode) fun s v => (s.1, some v, s.2.2),
      slot "bindings" (list bindingDecode) fun s v => (s.1, s.2.1, some v, s.2.2.2),
      slot "stats" Stats.decode fun s v => (s.1, s.2.1, s.2.2.1, some v)]
    (none, none, none, none) d
  return {
    labels := ← required "labels" labels
    proved := ← required "proved" proved
    bindings := ← required "bindings" bindings
    stats := ← required "stats" stats }

end ChanceProof
