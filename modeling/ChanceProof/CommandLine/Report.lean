import ChanceProof.Sampling.Basic
import ChanceProof.Wire.Results

/-!
# What the commands do

Sampling a function a number of times, and proving the labels of a proof file, over any model. A
failure is reported as a chain of messages, the outermost first, which tells what was being done
when it arose.
-/

namespace ChanceProof.CommandLine

/-- Messages that explain a failure, the outermost first. -/
abbrev Chain := List String

/-- A chain as it is shown: what failed, and the causes below it. -/
def Chain.display : Chain → String
  | [] => "Error\n"
  | what :: causes =>
    String.join (("Error: " ++ what ++ "\n")
      :: (if causes.isEmpty then [] else ["\nCaused by:\n"])
      ++ causes.map fun cause => "    " ++ cause ++ "\n")

/-- Work on a state that may fail with a chain of messages, or not end within its limit. -/
abbrev Task (σ α : Type) := ExceptT Chain (StateT σ Option) α

namespace Task

variable {σ α : Type}

/-- Turn a failure into the chain that starts with these messages. -/
def explain (context : Chain) (r : Run σ α) : Task σ α := fun s =>
  match r.run s with
  | none => none
  | some (.ok x, s) => some (.ok x, s)
  | some (.error f, s) => some (.error (context ++ [f.message]), s)

def within (context : String) (r : Run σ α) : Task σ α := explain [context] r

def just (r : Run σ α) : Task σ α := explain [] r

end Task

variable {σ : Type}

/-! ## Sampling -/

/-- Read a result and give it back. -/
def takeResult (M : Model σ) (h : Handle) : Action σ Json := do
  let v ← M.toExternal h
  M.modifyCount h (-1)
  return v

/-- Draw outcomes of a call, the first of them with number `n`. Every draw uses up one count of
each parameter. -/
def drawOutcomes (M : Model σ) (depth : Nat) (handles : List Handle) (c : Call) :
    (n count : Nat) → Task (σ × Randomness) (List (List Json))
  | _, 0 => return []
  | n, count + 1 => do
    Task.just (handles.forM fun h => Draw.ask (M.modifyCount h 1))
    let results ← Task.within ("draw " ++ toString n ++ " of " ++ c.display ++ " failed")
      (M.sample depth c)
    let outcome ← Task.just (results.mapM fun h => Draw.ask (takeResult M h))
    return outcome :: (← drawOutcomes M depth handles c (n + 1) count)

/-- Draw `count` outcomes of a function applied to values. -/
def sampleOutcomes (M : Model σ) (depth : Nat) (function : String) (arguments : List Json)
    (count : Nat) : Task (σ × Randomness) (List (List Json)) := do
  let handles ← arguments.mapM fun v =>
    Task.within ("failed to intern argument " ++ v.print) (Draw.ask (M.fromExternal v))
  let outcomes ← drawOutcomes M depth handles ⟨function, handles.map .literal⟩ 0 count
  Task.just (handles.forM fun h => Draw.ask (M.modifyCount h (-1)))
  return outcomes

def renderOutcome (outcome : List Json) : String := String.intercalate " " (outcome.map Json.print)

/-! ## Proving -/

/-- The labels of a proof file with the logarithms of their probabilities, and the values of its
unknowns. -/
structure Report where
  proofs : List (PortableLabel × Float)
  bindings : Dictionary Json
  stats : Stats
deriving DecidableEq

def proveReport (M : Model σ) (limit : Nat) (text : String) (settings : Settings) :
    Task σ Report := do
  let proofs ← Task.within "failed to load proofs" (Run.ofAction (M.loadProofs text))
  let A := logArithmetic settings.tolerance
  let results ← Task.within "proof evaluation failed" (M.evaluate A settings limit proofs)
  let proved ← Task.just ((results.provedValues A).mapM fun v => do
    return (← Run.ofAction (M.exportLabel v.1), v.2))
  let bindings ← Task.just (results.bindings.mapM fun b => do
    return (b.1, ← Run.ofAction (M.toExternal b.2)))
  return ⟨proved, .ofList bindings, results.stats⟩

namespace Report

/-- The report as JSON. An impossible label has no logarithm. -/
def toJson (r : Report) : Json :=
  .object [
    ("proofs", .ofList
      (fun v => .object [("label", v.1.toJson), ("log_prob", .ofFloat v.2),
        ("probability", .ofFloat (Float.exp v.2))])
      r.proofs),
    ("bindings", .object r.bindings.entries),
    ("stats", r.stats.toJson)]

def labelLine (v : PortableLabel × Float) : String :=
  if v.2.isFinite then
    "proved " ++ v.1.display ++ "  log p = " ++ Decimal.fixed 6 v.2 ++ "  p = "
      ++ Decimal.fixed 6 (Float.exp v.2) ++ "\n"
  else "impossible " ++ v.1.display ++ "  p = 0\n"

def bindingLine (b : String × Json) : String := "  → ?" ++ b.1 ++ " = " ++ b.2.print ++ "\n"

def text (r : Report) : String :=
  String.join (r.proofs.map labelLine ++ r.bindings.entries.map bindingLine)

def summary (s : Stats) : String :=
  "info: " ++ toString s.labels ++ " labels, " ++ toString s.components ++ " components ("
    ++ toString s.recursiveComponents ++ " recursive), " ++ toString s.passes ++ " passes, "
    ++ toString s.modelQueries ++ " model queries (" ++ toString s.cacheHits ++ " cached)\n"

end Report

end ChanceProof.CommandLine
