import ChanceProof.Failure
import ChanceProof.Value

/-!
# Distributions

A distribution is a straight-line program: assignments that bind the results of calls to variables,
and a list of results. Every reference points back to an earlier assignment, no variable is bound
twice, and nothing is left for unification to find. `Distribution.check` is the one place where
this is decided, and a `Distribution` carries the proof that it passed.
-/

namespace ChanceProof

/-- A call, and the variables bound to its results. -/
structure Assignment where
  call : Call
  names : List String
deriving DecidableEq, Repr, Inhabited

inductive Defect
  | reassigned (name : String)
  /-- A result of an assignment that is not earlier. -/
  | forward (value : Value) (position : Nat)
  /-- A result that the assignment does not have. -/
  | outOfRange (value : Value) (call arity : Nat)
  | usedUnbound (name : String)
  /-- Something for unification to find. -/
  | notAllowed (value : Value)
  | tooManyResults
  | wrongArity (call : Call) (returned bound : Nat)
  | notBound (name : String)
  | early (value : Value)
  /-- A result that is no literal after all assignments are done. -/
  | openResult (value : Value)
  /-- A call is asked to bind a variable that is bound already. -/
  | boundTwice (name function : String)
  /-- A reference of a distribution in a place where only resolved values stand. -/
  | unresolved (value other : Value)
deriving DecidableEq, Repr

namespace Defect

def reason : Defect → String
  | .reassigned name => "variable `" ++ name ++ "` is assigned more than once"
  | .forward value position =>
    value.display ++ " at position " ++ toString position ++ " is a forward or self reference"
  | .outOfRange value call arity =>
    value.display ++ " is out of range: call " ++ toString call ++ " binds " ++ toString arity
      ++ " values"
  | .usedUnbound name => "variable `" ++ name ++ "` is used before it is bound"
  | .notAllowed value => "proof variable " ++ value.display ++ " cannot appear in a distribution"
  | .tooManyResults => "more results bound than the distribution has calls"
  | .wrongArity call returned bound =>
    "`" ++ call.display ++ "` returned " ++ toString returned ++ " values but binds "
      ++ toString bound ++ " variables"
  | .notBound name => "variable `" ++ name ++ "` is not bound"
  | .early value => value.display ++ " is referenced before it is bound"
  | .openResult value => "result " ++ value.display ++ " did not resolve to a literal"
  | .boundTwice name function =>
    "`" ++ name ++ "` is bound more than once in a call to `" ++ function ++ "`"
  | .unresolved value other =>
    "cannot unify unresolved " ++ value.display ++ " with " ++ other.display

def failure (d : Defect) : Failure := .malformedDistribution d.reason

end Defect

namespace Distribution

/-- Check a value at assignment number `position`, where the variables of the assignments before
are bound. -/
def checkReference (assignments : List Assignment) (position : Nat) (bound : List String) :
    Value → Except Defect Unit
  | .literal _ => .ok ()
  | .output call index =>
    if position ≤ call then .error (.forward (.output call index) position)
    else
      let arity := (assignments[call]?.map (·.names.length)).getD 0
      if arity ≤ index then .error (.outOfRange (.output call index) call arity) else .ok ()
  | .named name => if bound.contains name then .ok () else .error (.usedUnbound name)
  | .unknown name => .error (.notAllowed (.unknown name))

/-- Bind the variables of an assignment on top of those already bound. -/
def bindNames (bound : List String) : List String → Except Defect (List String)
  | [] => .ok bound
  | name :: rest =>
    if bound.contains name then .error (.reassigned name) else bindNames (name :: bound) rest

/-- Check the assignments from number `position` on, and return all the variables bound. -/
def checkFrom (assignments : List Assignment) :
    (position : Nat) → (bound : List String) → List Assignment → Except Defect (List String)
  | _, bound, [] => .ok bound
  | position, bound, a :: rest => do
    a.call.parameters.forM (checkReference assignments position bound)
    checkFrom assignments (position + 1) (← bindNames bound a.names) rest

/-- Is this a distribution? The first defect in program order is reported. -/
def check (assignments : List Assignment) (result : List Value) : Except Defect Unit := do
  let bound ← checkFrom assignments 0 [] assignments
  result.forM (checkReference assignments assignments.length bound)

end Distribution

/-- Assignments in program order and the values returned at the end. -/
structure Distribution where
  assignments : List Assignment
  result : List Value
  checked : Distribution.check assignments result = .ok ()
deriving DecidableEq

namespace Distribution

def make (assignments : List Assignment) (result : List Value) : Except Failure Distribution :=
  match h : check assignments result with
  | .ok () => .ok ⟨assignments, result, h⟩
  | .error d => .error d.failure

/-- A distribution is made just from its own assignments and results. -/
theorem make_eq_ok_iff {assignments : List Assignment} {result : List Value} {d : Distribution} :
    make assignments result = .ok d ↔ d.assignments = assignments ∧ d.result = result := by
  constructor
  · intro h
    unfold make at h
    split at h
    · cases h
      exact ⟨rfl, rfl⟩
    · cases h
  · rintro ⟨rfl, rfl⟩
    unfold make
    split
    · rfl
    · next h => exact nomatch d.checked.symm.trans h

/-- What keeps assignments and results from making a distribution is the defect that is found. -/
theorem make_eq_error_iff {assignments : List Assignment} {result : List Value} {f : Failure} :
    make assignments result = .error f ↔
      ∃ e, check assignments result = .error e ∧ e.failure = f := by
  unfold make
  split
  · next h => simp [h]
  · next h => simp [h]

def names (d : Distribution) : List String := d.assignments.flatMap (·.names)

/-- Where a variable is bound: the number of its assignment, and its place there. -/
def locate? (d : Distribution) (name : String) : Option (Nat × Nat) :=
  d.assignments.zipIdx.findSome? fun (a, i) => (a.names.idxOf? name).map (i, ·)

/-- The assignment and the place whose result a value reads. -/
def slot? (d : Distribution) : Value → Option (Nat × Nat)
  | .output call index => some (call, index)
  | .named name => d.locate? name
  | .literal _ | .unknown _ => none

def display (d : Distribution) : String :=
  String.join (d.assignments.map fun a =>
      String.intercalate " " a.names ++ " <- " ++ a.call.display ++ "\n")
    ++ "return " ++ String.intercalate " " (d.result.map Value.display)

instance : Inhabited Distribution := ⟨⟨[], [], rfl⟩⟩

end Distribution

end ChanceProof
