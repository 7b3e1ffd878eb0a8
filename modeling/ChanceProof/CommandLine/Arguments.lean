import ChanceProof.Decimal.Parse
import ChanceProof.Json.Decoder

/-!
# Arguments of the command line

There are two commands. Each has one positional argument and some options, all of them with a value:
`--name value` or `--name=value`. A value that starts with a dash has to be written the second way.
After `--` everything is positional. Options are written out in full and given once, but for
`--arg`.
-/

namespace ChanceProof.CommandLine

/-- Draw outcomes of a function. -/
structure SampleCommand where
  address : String
  function : String
  arguments : List Json
  count : Nat
  seed : Option Nat
  format : String
deriving DecidableEq

/-- Prove the labels of a proof file. -/
structure ProveCommand where
  address : String
  proofs : String
  /-- The path of a file with settings. -/
  config : Option String
  tolerance : Option Float
  maxPasses : Option Nat
  format : String
deriving DecidableEq

inductive Command
  | sample (command : SampleCommand)
  | prove (command : ProveCommand)
deriving DecidableEq

def Command.address : Command → String
  | .sample c => c.address
  | .prove c => c.address

def Command.paths : Command → List String
  | .sample _ => []
  | .prove c => c.config.toList ++ [c.proofs]

def Command.seed? : Command → Option Nat
  | .sample c => c.seed
  | .prove _ => none

/-- What was given: the options with their values in order, and the positional arguments. -/
structure Given where
  options : List (String × String)
  positional : List String
deriving DecidableEq, Repr

namespace Given

def addOption (name value : String) (g : Given) : Given :=
  { g with options := (name, value) :: g.options }

def addPositional (value : String) (g : Given) : Given :=
  { g with positional := value :: g.positional }

def values (g : Given) (name : String) : List String :=
  (g.options.filter (·.1 == name)).map (·.2)

end Given

/-- A value that an option may take from the next argument. -/
def standsAlone (value : String) : Bool := value = "-" || value.toList.head? != some '-'

/-- Split arguments into options with these names and positional arguments. -/
def collect (names : List String) : List String → Except String Given
  | [] => .ok ⟨[], []⟩
  | "--" :: rest => .ok ⟨[], rest⟩
  | a :: rest =>
    if standsAlone a then (collect names rest).map (Given.addPositional a)
    else
      match a.toList with
      | '-' :: '-' :: cs =>
        let (name, value) := cs.span (· != '=')
        let name := String.ofList name
        if !names.contains name then .error ("unexpected argument '" ++ a ++ "'")
        else
          match value with
          | _ :: value => (collect names rest).map (Given.addOption name (String.ofList value))
          | [] =>
            match rest with
            | value :: rest =>
              if standsAlone value then (collect names rest).map (Given.addOption name value)
              else .error ("unexpected argument '" ++ value ++ "'")
            | [] => .error ("a value is required for '--" ++ name ++ "'")
      | _ => .error ("unexpected argument '" ++ a ++ "'")

namespace Given

/-- The value of an option that is given at most once. -/
def single (g : Given) (name : String) : Except String (Option String) :=
  match g.values name with
  | [] => .ok none
  | [value] => .ok (some value)
  | _ => .error ("the argument '--" ++ name ++ "' cannot be used multiple times")

/-- The value of an option, read by `read?`. -/
def parsed {α : Type} (g : Given) (name : String) (read? : String → Option α) :
    Except String (Option α) := do
  match ← g.single name with
  | none => return none
  | some value =>
    match read? value with
    | some v => return some v
    | none => throw ("invalid value '" ++ value ++ "' for '--" ++ name ++ "'")

/-- The value of an option that has to be given. -/
def required (g : Given) (name : String) : Except String String := do
  match ← g.single name with
  | some value => return value
  | none => throw ("the argument '--" ++ name ++ "' is required")

def onlyPositional (g : Given) : Except String String :=
  match g.positional with
  | [value] => .ok value
  | [] => .error "an argument is missing"
  | _ :: extra :: _ => .error ("unexpected argument '" ++ extra ++ "'")

end Given

def readJson? (text : String) : Option Json := (Decoder.run Decoder.json text.toList).toOption

def readPath? (text : String) : Option String := if text.isEmpty then none else some text

def parseSample (arguments : List String) : Except String SampleCommand := do
  let g ← collect ["connect", "arg", "count", "seed", "format"] arguments
  let address ← g.required "connect"
  let function ← g.onlyPositional
  let values ← (g.values "arg").mapM fun text =>
    match readJson? text with
    | some v => .ok v
    | none => .error ("invalid value '" ++ text ++ "' for '--arg': not valid JSON")
  let count ← g.parsed "count" Decimal.parseNatural?
  let seed ← g.parsed "seed" Decimal.parseNatural?
  let format ← g.single "format"
  return {
    address, function, arguments := values, count := count.getD 1, seed
    format := format.getD "text" }

def parseProve (arguments : List String) : Except String ProveCommand := do
  let g ← collect ["connect", "config", "tolerance", "max-passes", "format"] arguments
  let address ← g.required "connect"
  let path ← g.onlyPositional
  let config ← g.parsed "config" readPath?
  let tolerance ← g.parsed "tolerance" Decimal.parseFloat?
  let maxPasses ← g.parsed "max-passes" Decimal.parseNatural?
  let format ← g.single "format"
  match readPath? path with
  | none => throw "a path is required"
  | some proofs =>
    return { address, proofs, config, tolerance, maxPasses, format := format.getD "text" }

/-- The command that arguments give, or what is wrong with them. -/
def parse : List String → Except String Command
  | "sample" :: arguments => (parseSample arguments).map .sample
  | "prove" :: arguments => (parseProve arguments).map .prove
  | name :: _ => .error ("unrecognized subcommand '" ++ name ++ "'")
  | [] => .error "a subcommand is required"

end ChanceProof.CommandLine
