import ChanceProof.Line.Server

/-!
# Models behind a line

A remote model sends each operation as one request line and reads one reply line. What carries the
lines is a parameter: a server at hand, or a stream of bytes whose replies come as they may.
-/

namespace ChanceProof

/-- Sends a request line and gives the reply line. -/
abbrev Exchange (τ : Type) := String → Action τ String

namespace Exchange

variable {τ α : Type}

/-- Send a command and decode the value of its reply. -/
def request (exchange : Exchange τ) (c : Command) (decode : Decoder α) : Action τ α := do
  let reply ← exchange c.encode
  let v ← decodeReply reply
  match decode (Document.ofJson v) with
  | .ok x => return x
  | .error fault =>
    throw (.protocol ("unexpected reply to " ++ c.name ++ ": " ++ Decoder.reasonOf fault))

def model (exchange : Exchange τ) : Model τ where
  getDistribution call := exchange.request (.getDistribution call) Expansion.decode
  modifyCount h delta := exchange.request (.modifyCount h delta) Decoder.null
  toExternal h := exchange.request (.toExternal h) Decoder.json
  fromExternal value := exchange.request (.fromExternal value) Handle.decode
  isEqual a b := exchange.request (.isEqual a b) Decoder.bool

end Exchange

/-- The line to a server at hand. -/
def Model.exchange {σ : Type} (M : Model σ) : Exchange σ := fun line =>
  (M.handleLine line : StateM σ String)

/-- A model behind a line to itself. -/
def Model.loopback {σ : Type} (M : Model σ) : Model σ := M.exchange.model

/-- A connection as its client sees it: the bytes not read yet, and the lines written. -/
structure Connection where
  incoming : List UInt8
  requests : List String
deriving DecidableEq, Repr

namespace Connection

def start (incoming : List UInt8) : Connection := ⟨incoming, []⟩

def sent (c : Connection) : String := String.join (c.requests.map (· ++ "\n"))

def writeLine (line : String) (c : Connection) : Connection :=
  { c with requests := c.requests ++ [line] }

/-- Read a line. It is gone from the stream even when it is no text. -/
def readLine : Action Connection String := do
  let c ← get
  if c.incoming.isEmpty then throw (.protocol "connection closed before reply")
  let (line, rest) := takeLine c.incoming
  set { c with incoming := rest }
  match textOf? line with
  | some text => return text
  | none => throw (.protocol "stream did not contain valid UTF-8")

def exchange : Exchange Connection := fun line => do
  modify (writeLine line)
  readLine

end Connection

end ChanceProof
