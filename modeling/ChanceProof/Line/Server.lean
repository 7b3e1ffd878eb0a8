import ChanceProof.Line.Command
import ChanceProof.Line.Stream

/-!
# Serving a model

A server answers each request line with one reply line. Whatever is wrong with a request becomes an
error reply, so a connection ends only with its input, or when it cannot be read or written any
more.
-/

namespace ChanceProof

namespace Model

variable {σ : Type} (M : Model σ)

/-- Run a command. The reply lists the fields of an object by key. -/
def dispatch : Command → Action σ Json
  | .getDistribution call => do return (← M.getDistribution call).toJson.sorted
  | .modifyCount h delta => do
    M.modifyCount h delta
    return .null
  | .fromExternal value => do return (← M.fromExternal value).toJson.sorted
  | .toExternal h => M.toExternal h
  | .isEqual a b => do return .bool (← M.isEqual a b)

def request (line : String) : Action σ Json := do
  let command ← Command.decode line
  M.dispatch command

def handleLine (line : String) : StateM σ String := do
  return encodeReply (← (M.request line).run)

end Model

/-- How a connection ended, and what was answered on it. -/
structure Served where
  replies : List String
  /-- Why the connection broke, if it did not end with its input. -/
  broken : Option String
deriving DecidableEq, Repr

namespace Served

def handled (s : Served) : Nat := s.replies.length

/-- The bytes that were written: every reply with a newline behind it. -/
def output (s : Served) : List UInt8 := s.replies.flatMap fun reply => bytesOf reply ++ [newline]

def after (reply : String) (s : Served) : Served := { s with replies := reply :: s.replies }

end Served

/-- The bytes that are free after writing a reply and its newline, if there is room for them. -/
def roomAfter? (room : Option Nat) (reply : String) : Option (Option Nat) :=
  match room with
  | none => some none
  | some free =>
    let needed := reply.utf8ByteSize + 1
    if needed ≤ free then some (some (free - needed)) else none

namespace Model

variable {σ : Type} (M : Model σ)

/-- Serve the lines of a connection that are left. -/
def serveLines : (room : Option Nat) → List (List UInt8) → StateM σ Served
  | _, [] => return ⟨[], none⟩
  | room, line :: rest =>
    match textOf? line with
    | none => return ⟨[], some "failed to read request"⟩
    | some text =>
      if text.toList.all Text.isBlank then serveLines room rest
      else do
        let reply ← M.handleLine text
        match roomAfter? room reply with
        | none => return ⟨[], some "failed to write reply"⟩
        | some room => return (← serveLines room rest).after reply

/-- Serve a connection whose input is known, with room for so many bytes of output. Blank lines get
no reply. -/
def serve (room : Option Nat) (input : List UInt8) : StateM σ Served :=
  M.serveLines room (linesOf input)

end Model

end ChanceProof
