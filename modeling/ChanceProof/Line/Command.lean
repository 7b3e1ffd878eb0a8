import ChanceProof.Text.Blank
import ChanceProof.Wire.Failures

/-!
# Commands and replies

A request is one line: the name of a command, a blank, and its arguments as JSON. The reply is one
line of JSON: the value that the command gives, or an object with the one key `$error` that holds a
failure. That key is reserved: a value of just this shape cannot be told from a failure.
-/

namespace ChanceProof

/-- A request to a model. -/
inductive Command
  | getDistribution (call : Call)
  | modifyCount (handle : Handle) (delta : Int)
  | fromExternal (value : Json)
  | toExternal (handle : Handle)
  | isEqual (a b : Handle)
deriving DecidableEq

namespace Command

open Decoder

def name : Command → String
  | .getDistribution .. => "getDistribution"
  | .modifyCount .. => "modifyReferenceCount"
  | .fromExternal .. => "fromExternal"
  | .toExternal .. => "toExternal"
  | .isEqual .. => "isEqual"

def arguments : Command → Json
  | .getDistribution call => call.toJson
  | .modifyCount h delta => .object [("ref", h.toJson), ("delta", .int delta)]
  | .fromExternal value => value
  | .toExternal h => h.toJson
  | .isEqual a b => .array [a.toJson, b.toJson]

/-- The line of a command, without its end. -/
def encode (c : Command) : String := c.name ++ " " ++ c.arguments.print

def decoder : String → Option (Decoder Command)
  | "getDistribution" => some fun d => do return .getDistribution (← Call.decode d)
  | "modifyReferenceCount" => some fun d => do
    let (h, delta) ← twoFields "ref" Handle.decode "delta" integer d
    return .modifyCount h delta
  | "fromExternal" => some fun d => do return .fromExternal (← json d)
  | "toExternal" => some fun d => do return .toExternal (← Handle.decode d)
  | "isEqual" => some fun d => do
    let (a, b) ← pair Handle.decode d
    return .isEqual a b
  | _ => none

/-- The command that a line holds. Its end may be missing or be doubled. -/
def decode (line : String) : Except Failure Command := do
  let cs := Text.dropEnd (fun c => c = '\r' || c = '\n') line.toList
  match cs.span (· != ' ') with
  | (_, []) => throw (.protocol ("missing arguments in `" ++ String.ofList cs ++ "`"))
  | (name, _ :: arguments) =>
    match decoder (String.ofList name) with
    | some decode => ofText decode (String.ofList arguments)
    | none => throw (.protocol ("unknown command `" ++ String.ofList name ++ "`"))

end Command

/-- The key that marks a reply as a failure. -/
def errorKey : String := "$error"

/-- The line of a reply, without its end. -/
def encodeReply : Except Failure Json → String
  | .ok v => v.print
  | .error f => (Json.object [(errorKey, f.toJson.sorted)]).print

def markedFailure? : Json → Option Json
  | .object [(key, f)] => if key = errorKey then some f else none
  | _ => none

def decodeReply (line : String) : Except Failure Json := do
  let v ← Decoder.ofText Decoder.json (Text.trimEnd line)
  match markedFailure? v with
  | none => return v
  | some f =>
    match Failure.decode (Document.ofJson f) with
    | .ok failure => throw failure
    | .error fault =>
      throw (.protocol ("unreadable error reply " ++ f.print ++ ": " ++ Decoder.reasonOf fault))

end ChanceProof
