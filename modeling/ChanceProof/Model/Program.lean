import ChanceProof.Distribution.Basic
import ChanceProof.Json.Basic

/-!
# Programs that build distributions

A distribution function looks at the values of its arguments and describes a distribution call by
call. A `Program` is such a description: it appends calls, may look at whether one was refused, and
ends with results or a failure. The builder behind it accepts a call only if every variable it
reads is bound by an earlier call and none that it binds is bound already; a refused call leaves the
builder as it was.
-/

namespace ChanceProof

/-- An argument of a call or a result, while a distribution is being built. -/
inductive Argument
  | literal (value : Json)
  | named (name : String)
deriving DecidableEq

/-- A call that was accepted, and the variables bound to its results. -/
structure PendingCall where
  function : String
  arguments : List Argument
  names : List String
deriving DecidableEq

/-- The calls accepted so far, and the variables that they bind. -/
structure Builder where
  pending : List PendingCall
  bound : List String
deriving DecidableEq, Inhabited

namespace Builder

def empty : Builder := ⟨[], []⟩

/-- Every variable that is read has to be bound. -/
def checkBound (b : Builder) : Argument → Except Failure Unit
  | .literal _ => .ok ()
  | .named name => if b.bound.contains name then .ok () else .error (Defect.notBound name).failure

/-- Bind the variables of a call to `function` on top of those bound already. -/
def bindNames (function : String) (bound : List String) : List String → Except Failure (List String)
  | [] => .ok bound
  | name :: rest =>
    if bound.contains name then .error (Defect.boundTwice name function).failure
    else bindNames function (name :: bound) rest

def call (b : Builder) (function : String) (arguments : List Argument) (names : List String) :
    Except Failure Builder := do
  arguments.forM b.checkBound
  let bound ← bindNames function b.bound names
  return ⟨b.pending ++ [⟨function, arguments, names⟩], bound⟩

end Builder

/-- The description of a distribution, call by call. -/
inductive Program
  | done (results : List Argument)
  | fail (failure : Failure)
  /-- Append a call and go on, knowing why it was refused if it was. -/
  | call (function : String) (arguments : List Argument) (names : List String)
      (next : Option Failure → Program)

namespace Program

/-- Append a call, and end with its failure if it is refused. -/
def append (function : String) (arguments : List Argument) (names : List String)
    (next : Program) : Program :=
  .call function arguments names fun
    | some failure => .fail failure
    | none => next

/-- Append a coin flip. A probability that is no number becomes the literal `null`. -/
def flip (probability : Float) (name : String) (next : Program) : Program :=
  append Call.coinFunction [.literal (.ofFloat probability)] [name] next

def run : Program → Builder → Except Failure (List Argument × Builder)
  | .done results, b => .ok (results, b)
  | .fail failure, _ => .error failure
  | .call function arguments names next, b =>
    match b.call function arguments names with
    | .ok b => (next none).run b
    | .error failure => (next (some failure)).run b

/-- Run a program from the start. The results have to be bound, too. -/
def build (p : Program) : Except Failure (List Argument × List PendingCall) := do
  let (results, b) ← p.run .empty
  results.forM b.checkBound
  return (results, b.pending)

end Program

end ChanceProof
