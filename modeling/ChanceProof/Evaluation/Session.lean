import ChanceProof.Json.Printer
import ChanceProof.Model.Basic
import ChanceProof.Proof.Basic

/-!
# Sessions

A session collects proofs over a model. It holds the model's state and what was learnt so far: the
values of unknowns, the labels with their alternatives, and the distributions already asked for.

A model may hand out a fresh handle for every occurrence of an object. A session keeps to one
canonical handle per object, the first it met among those whose objects have the same printed
form, so equal objects make equal labels.
-/

namespace ChanceProof

structure Settings where
  /-- A recursive component is solved once no logarithm of a probability grows by more than this. -/
  tolerance : Float
  /-- How many passes a recursive component may take, if that is bounded. -/
  maxPasses : Option Nat
deriving DecidableEq

def Settings.standard : Settings := ⟨1e-5, none⟩

/-- A label, and the executions recorded for it: each a list of labels, one for each call. -/
structure Entry where
  label : Label
  alternatives : List (List Label)
deriving DecidableEq

/-- What a session has learnt, and the state of the model below it. -/
structure Session (σ : Type) where
  world : σ
  settings : Settings
  /-- The canonical handle of each handle seen. -/
  canonicalOf : List (Handle × Handle)
  /-- The canonical handle of each printed form seen. -/
  forms : List (String × Handle)
  expansions : List (Call × Expansion)
  /-- The values of unknowns, in the order in which they were found. -/
  bindings : List (String × Handle)
  entries : List Entry
  /-- The label of each accepted proof in order. -/
  proved : List Label
  queries : Nat
  hits : Nat
  seconds : Float

namespace Session

variable {σ α : Type}

def start (settings : Settings) (world : σ) : Session σ where
  world := world
  settings := settings
  canonicalOf := []
  forms := []
  expansions := []
  bindings := []
  entries := []
  proved := []
  queries := 0
  hits := 0
  seconds := 0

def labels (s : Session σ) : List Label := s.entries.map (·.label)

def number? (s : Session σ) (l : Label) : Option Nat := s.entries.findIdx? (·.label = l)

def binding? (s : Session σ) (name : String) : Option Handle := s.bindings.lookup name

/-- Replace an unknown by the value found for it. -/
def resolve (s : Session σ) : Value → Value
  | .unknown name => ((s.binding? name).map Value.literal).getD (.unknown name)
  | v => v

def resolveCall (s : Session σ) (c : Call) : Call :=
  { c with parameters := c.parameters.map s.resolve }

def describe (s : Session σ) : String :=
  "ProofEnv \x7b stage: Unstarted, labels: " ++ toString s.entries.length ++ ", bound_vars: "
    ++ toString s.bindings.length ++ " \x7d"

def ask (a : Action σ α) : Action (Session σ) α := fun s =>
  let (x, world) := a.run s.world
  (x, { s with world })

/-- The first handle met that has the same printed form. -/
def canonical (M : Model σ) (h : Handle) : Action (Session σ) Handle := do
  match (← get).canonicalOf.lookup h with
  | some c => return c
  | none =>
    let form := (← ask (M.toExternal h)).print
    let s ← get
    match s.forms.lookup form with
    | some c =>
      set { s with canonicalOf := (h, c) :: s.canonicalOf }
      return c
    | none =>
      set { s with canonicalOf := (h, h) :: s.canonicalOf, forms := (form, h) :: s.forms }
      return h

/-- An object and its handle as messages show them; only the handle when the object is gone. -/
def display (M : Model σ) (h : Handle) : Action (Session σ) String :=
  tryCatch (do return (← ask (M.toExternal h)).print ++ " (" ++ h.display ++ ")")
    fun _ => return h.display

/-- The distribution of a call, from the model the first time and from memory later. -/
def distribution (M : Model σ) (c : Call) : Action (Session σ) Distribution := do
  match (← get).expansions.lookup c with
  | some e =>
    modify fun s => { s with hits := s.hits + 1 }
    return e.distribution
  | none =>
    let e ← ask (M.getDistribution c)
    modify fun s => { s with
      queries := s.queries + 1
      seconds := s.seconds + e.seconds
      expansions := (c, e) :: s.expansions }
    return e.distribution

end Session

end ChanceProof
