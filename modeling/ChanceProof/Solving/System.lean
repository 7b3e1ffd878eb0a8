import ChanceProof.Graph.Components
import ChanceProof.Solving.Arithmetic

/-!
# Systems of polynomial equations

Each label's probability is a sum of terms, one for each alternative: a coefficient from the coins
of the execution, times the probabilities of the labels it depends on. The solver goes through the
components of the dependency graph from the last to the first, so what a component depends on is
final before it starts. A component without recursion is evaluated once. A recursive one is
evaluated again and again, starting from impossible, until a whole pass settles: values only grow,
and each evaluation reads the values already found in the same pass.

Unbounded passes may go on for ever, so they are counted down from a limit. Reaching the limit is
no answer but `none`.
-/

namespace ChanceProof

/-- A coefficient times the probabilities of some labels, given by number. -/
structure Term (α : Type) where
  coefficient : α
  dependencies : List Nat
deriving DecidableEq, Repr

/-- The terms of each label by number. -/
abbrev System (α : Type) := Array (List (Term α))

namespace System

variable {α : Type} (A : Arithmetic α)

def valueAt (values : Array α) (i : Nat) : α := values[i]?.getD A.impossible

def termValue (values : Array α) (t : Term α) : α :=
  t.dependencies.foldl (fun acc d => A.times acc (valueAt A values d)) t.coefficient

def sumValue (values : Array α) (terms : List (Term α)) : α :=
  A.sum (terms.map (termValue A values))

def newValue (system : System α) (values : Array α) (i : Nat) : α :=
  sumValue A values (system[i]?.getD [])

/-- Evaluate the labels of a component once. -/
def evaluate (system : System α) (values : Array α) (component : List Nat) : Array α :=
  component.foldl (fun values i => values.setIfInBounds i (newValue A system values i)) values

/-- Evaluate the labels of a recursive component once, keeping the larger values. The answer tells
whether all of them settled. -/
def pass (system : System α) : (settled : Bool) → Array α → List Nat → Array α × Bool
  | settled, values, [] => (values, settled)
  | settled, values, i :: rest =>
    let new := newValue A system values i
    let present := valueAt A values i
    pass system (settled && A.settled present new)
      (values.setIfInBounds i (A.larger present new)) rest

/-- Evaluate a recursive component until a pass settles, counting the passes. With a budget, no
more passes than that are begun; then the error is their number. -/
def iterate (system : System α) (component : List Nat) (budget : Option Nat) :
    (limit passes : Nat) → Array α → Option (Except Nat (Array α × Nat))
  | 0, _, _ => none
  | limit + 1, passes, values =>
    if budget.any (· ≤ passes) then some (.error passes)
    else
      match pass A system true values component with
      | (values, true) => some (.ok (values, passes + 1))
      | (values, false) => iterate system component budget limit (passes + 1) values

/-- A component that did not settle within its budget. -/
structure NotSettled where
  component : List Nat
  passes : Nat
deriving DecidableEq, Repr

/-- Solve components one after another, counting the passes. -/
def solveComponents (system : System α) (g : Graph) (budget : Option Nat) (limit : Nat) :
    (passes : Nat) → Array α → List (List Nat) → Option (Except NotSettled (Array α × Nat))
  | passes, values, [] => some (.ok (values, passes))
  | passes, values, c :: rest =>
    if g.isRecursive c then
      match iterate A system c budget limit 0 values with
      | none => none
      | some (.error n) => some (.error ⟨c, n⟩)
      | some (.ok (values, n)) => solveComponents system g budget limit (passes + n) values rest
    else solveComponents system g budget limit (passes + 1) (evaluate A system values c) rest

/-- Solve a system over a graph with these components in topological order. -/
def solve (system : System α) (g : Graph) (components : List (List Nat)) (budget : Option Nat)
    (limit : Nat) : Option (Except NotSettled (Array α × Nat)) :=
  solveComponents A system g budget limit 0 (Array.replicate system.size A.impossible)
    components.reverse

end System

end ChanceProof
