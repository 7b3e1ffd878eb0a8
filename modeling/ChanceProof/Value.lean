/-!
# Values and calls

Objects live in a model's store and are only ever named by their handles. A value is a handle or
stands for one: inside a distribution for a result of an earlier call, inside a proof for an object
still to be found.
-/

namespace ChanceProof

/-- The name of an object in a model's store. -/
structure Handle where
  number : Nat
deriving DecidableEq, Repr, Inhabited

/-- A parameter or a result of a call. -/
inductive Value
  | literal (handle : Handle)
  /-- The result number `index` of assignment number `call` of the same distribution. -/
  | output (call index : Nat)
  /-- A variable that an earlier assignment of the same distribution binds. -/
  | named (name : String)
  /-- An object that unification has to find. Distributions hold none. -/
  | unknown (name : String)
deriving DecidableEq, Repr, Inhabited

/-- A function applied to parameters. -/
structure Call where
  function : String
  parameters : List Value
deriving DecidableEq, Repr, Inhabited

def Handle.display (h : Handle) : String := "@" ++ toString h.number

namespace Value

def display : Value → String
  | .literal h => h.display
  | .output call index => "$(" ++ toString call ++ ", " ++ toString index ++ ")"
  | .named name => name
  | .unknown name => "?" ++ name

def handle? : Value → Option Handle
  | .literal h => some h
  | _ => none

def isLiteral (v : Value) : Bool := v.handle?.isSome

end Value

namespace Call

/-- The function that flips a coin. Every model has it. -/
def coinFunction : String := "bernouli"

/-- A coin that lands true with the probability behind a handle. -/
def coin (probability : Handle) : Call := ⟨coinFunction, [.literal probability]⟩

/-- A coin flip. No model expands it. -/
def isPrimitive (c : Call) : Bool := c.function == coinFunction

def isGrounded (c : Call) : Bool := c.parameters.all Value.isLiteral

/-- The handles of the parameters, when all of them are literals. -/
def handles? (c : Call) : Option (List Handle) := c.parameters.mapM Value.handle?

def handles (c : Call) : List Handle := c.parameters.filterMap Value.handle?

def display (c : Call) : String :=
  String.intercalate " " (c.function :: c.parameters.map Value.display)

@[simp] theorem isPrimitive_coin (probability : Handle) :
    (coin probability).isPrimitive = true := by
  simp [coin, isPrimitive]

@[simp] theorem isGrounded_coin (probability : Handle) : (coin probability).isGrounded = true := by
  simp [coin, isGrounded, Value.isLiteral, Value.handle?]

theorem isPrimitive_iff {c : Call} : c.isPrimitive = true ↔ c.function = coinFunction := by
  simp [isPrimitive]

/-- A grounded call is one whose parameters are what its handles stand for. -/
theorem isGrounded_iff {c : Call} :
    c.isGrounded = true ↔ c.parameters = c.handles.map Value.literal := by
  constructor
  · obtain ⟨function, parameters⟩ := c
    simp only [isGrounded, handles]
    induction parameters with
    | nil => simp
    | cons v rest ih =>
      intro h
      cases v with
      | literal a => exact congrArg (Value.literal a :: ·) (ih h)
      | _ => cases h
  · intro h
    rw [isGrounded, h]
    simp [Value.isLiteral, Value.handle?]

/-- The handles of all parameters are there just when the parameters are what they stand for. -/
theorem handles?_eq_some_iff {c : Call} {hs : List Handle} :
    c.handles? = some hs ↔ c.parameters = hs.map Value.literal := by
  obtain ⟨function, parameters⟩ := c
  simp only [handles?]
  induction parameters generalizing hs with
  | nil => cases hs <;> simp
  | cons v rest ih =>
    rw [List.mapM_cons]
    cases v with
    | literal h =>
      cases hs with
      | nil => cases hrest : rest.mapM Value.handle? <;> simp [Value.handle?]
      | cons h' hs =>
        rw [List.map_cons, List.cons.injEq, ← ih]
        cases hrest : rest.mapM Value.handle? <;> simp [Value.handle?]
    | _ => cases hs <;> simp [Value.handle?]

theorem handles_of_parameters {c : Call} {hs : List Handle}
    (h : c.parameters = hs.map Value.literal) : c.handles = hs := by
  rw [handles, h, List.filterMap_map]
  exact List.filterMap_some

theorem handles_unique {c : Call} {hs hs' : List Handle} (h : c.parameters = hs.map Value.literal)
    (h' : c.parameters = hs'.map Value.literal) : hs = hs' :=
  (handles_of_parameters h).symm.trans (handles_of_parameters h')

end Call

end ChanceProof
