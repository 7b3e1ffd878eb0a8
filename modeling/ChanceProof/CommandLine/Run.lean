import ChanceProof.CommandLine.Arguments
import ChanceProof.CommandLine.Report
import ChanceProof.Text.Blank

/-!
# Running a command

A command is checked before anything is asked of the model: its format first, then its settings,
then the proof file. Files are given as a function from paths to contents.
-/

namespace ChanceProof.CommandLine

inductive Format
  | text
  | json
deriving DecidableEq, Repr

/-- The format of this name, blanks around it and the case of letters aside. -/
def Format.parse (name : String) : Except Chain Format :=
  let name := String.ofList ((Text.trim name).toList.map Char.toLower)
  if name = "text" ∨ name = "txt" then .ok .text
  else if name = "json" then .ok .json
  else .error ["unknown output format `" ++ name ++ "` (expected text|json)"]

/-- The contents of files, or why they cannot be read. -/
abbrev Files := String → Except String String

def settingsOf (files : Files) (path : String) : Except Chain Settings :=
  match files path with
  | .error why => .error ["failed to read solver config " ++ path, why]
  | .ok text =>
    match Decoder.run Settings.decode text.toList with
    | .ok settings => .ok settings
    | .error (fault, rest) =>
      .error ["invalid solver config " ++ path, Decoder.explain text.toList rest fault]

/-- Are these settings to solve with? -/
def checkSettings (s : Settings) : Except Chain Settings :=
  if !s.tolerance.isFinite || s.tolerance ≤ 0 then
    .error ["tolerance must be a positive number, got " ++ Decimal.display s.tolerance]
  else if s.maxPasses = some 0 then .error ["max_passes must be at least 1"]
  else .ok s

/-- The settings of a command: those of its file, and on top those of its options. -/
def loadSettings (files : Files) (c : ProveCommand) : Except Chain Settings := do
  let s ← match c.config with
    | some path => settingsOf files path
    | none => .ok .standard
  checkSettings {
    tolerance := c.tolerance.getD s.tolerance
    maxPasses := c.maxPasses <|> s.maxPasses }

def proofText (files : Files) (path : String) : Except Chain String :=
  match files path with
  | .ok text => .ok text
  | .error why => .error ["failed to read proof file " ++ path, why]

inductive Answer
  | outcomes (format : Format) (function : String) (outcomes : List (List Json))
  | report (format : Format) (report : Report)

namespace Answer

def output : Answer → String
  | .outcomes .json _ draws => (Json.ofList Json.array draws).printPretty ++ "\n"
  | .outcomes .text _ draws => String.join (draws.map fun o => renderOutcome o ++ "\n")
  | .report .json r => r.toJson.printPretty ++ "\n"
  | .report .text r => r.text

def note : Answer → String
  | .outcomes .text function draws =>
    "ok " ++ toString draws.length ++ " draw(s) of " ++ function ++ "\n"
  | .report .text r => Report.summary r.stats
  | .outcomes .json .. | .report .json _ => ""

end Answer

variable {σ : Type} (M : Model σ)

def runSample (depth : Nat) (c : SampleCommand) : Task (σ × Randomness) Answer := do
  let format ← Format.parse c.format
  let outcomes ← sampleOutcomes M depth c.function c.arguments c.count
  return .outcomes format c.function outcomes

def runProve (limit : Nat) (files : Files) (c : ProveCommand) : Task σ Answer := do
  let format ← Format.parse c.format
  let settings ← loadSettings files c
  let text ← proofText files c.proofs
  return .report format (← proveReport M limit text settings)

/-- Run a command over a model, with files and random words at hand. The limit bounds the depth of
draws and the passes of the solver. -/
def Command.run (limit : Nat) (files : Files) (words : Randomness) : Command → Task σ Answer
  | .sample c => fun s => ((runSample M limit c).run (s, words)).map fun (x, (s, _)) => (x, s)
  | .prove c => runProve M limit files c

end ChanceProof.CommandLine
