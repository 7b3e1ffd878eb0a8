import ChanceProof.Model.Program
import ChanceProof.Model.Store
import ChanceProof.Text.Quoted

/-!
# Models made of functions

A library of distribution functions over the object store. To expand a call its arguments are read
from the store, the function's program is built, and only then are the literals of the distribution
interned, in program order and the results last: a call that fails interns nothing.
-/

namespace ChanceProof

/-- A distribution function: the values of the arguments decide the program. -/
abbrev Function := List Json → Program

abbrev Library := List (String × Function)

namespace Library

/-- An argument as a value; a literal becomes a new object. -/
def internArgument : Argument → Action Store Value
  | .literal value => do return .literal (← Store.add value)
  | .named name => return .named name

/-- A pending call as an assignment; its literals become new objects. -/
def internCall (p : PendingCall) : Action Store Assignment := do
  return ⟨⟨p.function, ← p.arguments.mapM internArgument⟩, p.names⟩

def getDistribution (functions : Library) (c : Call) : Action Store Expansion := do
  if c.isPrimitive then throw (.unknownFunction c.function)
  match c.handles? with
  | none => throw (.ungroundedCall c.display)
  | some handles =>
    let arguments ← handles.mapM fun h => do return (← Store.object h).value
    match functions.lookup c.function with
    | none => throw (.unknownFunction c.function)
    | some function =>
      let (results, pending) ← (function arguments).build
      let assignments ← pending.mapM internCall
      let result ← results.mapM internArgument
      return ⟨← Distribution.make assignments result, 0⟩

def model (functions : Library) : Model Store where
  getDistribution := functions.getDistribution
  modifyCount := Store.modifyCount
  toExternal h := do return (← Store.object h).value
  fromExternal := Store.add
  isEqual a b := do return (← Store.object a).value.same (← Store.object b).value

/-- A library and its store as diagnostics show them: the names of the functions in order, and how
many objects are live. -/
def describe (functions : Library) (s : Store) : String :=
  "FunctionModel \x7b functions: [" ++ Text.quotedNames (Keyed.names (functions.map (·.1)))
    ++ "], live_objects: " ++ toString s.live ++ " \x7d"

def describeChecked (functions : Library) (s : Store) : String :=
  "CheckedModel \x7b inner: " ++ functions.describe s ++ " \x7d"

end Library

end ChanceProof
