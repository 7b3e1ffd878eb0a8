import ChanceProof.CommandLine.Run
import ChanceProof.Line.Remote
import Std.Async.DNS
import Std.Async.TCP

/-!
# The program

Runs a command over the model server at an address. Running a command is a function of the replies
that the server gives; so it is run with the replies received so far, and as long as it has written
a request that is not answered yet, that request is sent and it is run again with one reply more.
-/

namespace ChanceProof.CommandLine

open Std.Async
open Std.Net

def readFile (path : String) : IO (Except String String) := do
  try
    return .ok (← IO.FS.readFile path)
  catch e =>
    return .error (toString e)

def readFiles (paths : List String) : IO Files := do
  let contents ← paths.mapM fun path => do return (path, ← readFile path)
  return fun path => (contents.lookup path).getD (.error "no such file")

/-- A seed that was asked for, or else one that nobody knows. -/
def seedOf (seed? : Option Nat) : IO UInt64 := do
  match seed? with
  | some seed => return seed.toUInt64
  | none => return (← IO.getRandomBytes 8).foldl (fun seed b => seed * 256 + b.toUInt64) 0

/-- The place of a service with this number at an address. -/
def serviceAt (number : UInt16) : IPAddr → SocketAddress
  | .v4 a => .v4 ⟨a, number⟩
  | .v6 a => .v6 ⟨a, number⟩

/-- Connect to the first place that an address, a host and the number of a service, stands for. -/
def connect (address : String) : IO TCP.Socket.Client := do
  match (address.splitOn ":").reverse with
  | service :: part :: parts =>
    let host := String.intercalate ":" (part :: parts).reverse
    let found ← (DNS.getAddrInfo host service).block
    match found[0]?, Decimal.parseNatural? service with
    | some ip, some number =>
      let client ← TCP.Socket.Client.mk
      (client.connect (serviceAt number.toUInt16 ip)).block
      return client
    | _, _ => throw (IO.userError "invalid socket address")
  | _ => throw (IO.userError "invalid socket address")

/-- Receive until so many lines have ended, or the stream has. -/
partial def receive (client : TCP.Socket.Client) (lines : Nat) (received : List UInt8) :
    IO (List UInt8) := do
  if lines ≤ received.count newline then return received
  match ← (client.recv? 65536).block with
  | none => return received
  | some bytes => receive client lines (received ++ bytes.toList)

/-- Run a command again and again, with one reply more each time, until all its requests are
answered or the stream has ended. -/
partial def converse (client : TCP.Socket.Client)
    (run : Connection → Option (Except Chain Answer × Connection)) (received : List UInt8) :
    IO (Option (Except Chain Answer)) := do
  match run (.start received) with
  | none => return none
  | some (answer, connection) =>
    let answered := received.count newline
    match connection.requests[answered]? with
    | none => return some answer
    | some request =>
      (client.send (request ++ "\n").toUTF8).block
      let received ← receive client (answered + 1) received
      if answered < received.count newline then converse client run received
      else return (run (.start received)).map (·.1)

/-- Run a command, connecting to the server once there is something to ask. -/
def Command.answer (c : Command) : IO (Option (Except Chain Answer)) := do
  let words := Randomness.ofSeed (← seedOf c.seed?)
  let files ← readFiles c.paths
  let run := (c.run Connection.exchange.model.checked 1000000000 files words).run
  match run (.start []) with
  | none => return none
  | some (answer, ⟨_, []⟩) => return some answer
  | some _ =>
    match ← (connect c.address).toBaseIO with
    | .ok client => converse client run []
    | .error e =>
      return some (.error ["failed to connect to model server " ++ c.address, toString e])

end ChanceProof.CommandLine

/-- Exit codes: 0 for an answer, 1 for a failure, 2 for wrong arguments. -/
def main (arguments : List String) : IO UInt32 := do
  match ChanceProof.CommandLine.parse arguments with
  | .error message =>
    IO.eprintln ("error: " ++ message)
    return 2
  | .ok command =>
    match ← command.answer with
    | none =>
      IO.eprintln "Error: the command does not end within its limits"
      return 1
    | some (.error chain) =>
      IO.eprint (ChanceProof.CommandLine.Chain.display chain)
      return 1
    | some (.ok answer) =>
      IO.print answer.output
      IO.eprint answer.note
      return 0
