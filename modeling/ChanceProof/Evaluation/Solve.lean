import ChanceProof.Evaluation.Expand
import ChanceProof.Sampling.Coin
import ChanceProof.Solving.System

/-!
# Solving a session

When all proofs are expanded, the labels make a system of equations: a coin in an alternative goes
into the coefficient, a label with an entry is a dependency, and a label without one makes the
alternative impossible. The dependency graph is split into components, and the system is solved
over them.
-/

namespace ChanceProof

structure Stats where
  labels : Nat
  components : Nat
  recursiveComponents : Nat
  /-- Passes over all components. -/
  passes : Nat
  modelQueries : Nat
  cacheHits : Nat
  modelSeconds : Float
deriving DecidableEq

structure Results (α : Type) where
  /-- The labels in order of appearance, with their probabilities. -/
  labels : List (Label × α)
  proved : List Label
  bindings : List (String × Handle)
  stats : Stats
deriving DecidableEq

namespace Results

variable {α : Type}

def value? (r : Results α) (l : Label) : Option α := r.labels.lookup l

def binding? (r : Results α) (name : String) : Option Handle := r.bindings.lookup name

/-- The label of each proof with its probability. What has no entry is impossible; results that were
read from a text may have several entries for a label, and the last one counts. -/
def provedValues (A : Arithmetic α) (r : Results α) : List (Label × α) :=
  r.proved.map fun l => (l, (r.labels.reverse.lookup l).getD A.impossible)

end Results

structure SortedSession (σ : Type) where
  session : Session σ
  graph : Graph
  components : List (List Nat)

namespace Session

variable {σ α : Type}

/-- The labels with an entry on which an entry depends. -/
def dependencies (s : Session σ) (e : Entry) : List Nat :=
  (e.alternatives.flatten.filter (!·.isPrimitive)).filterMap s.number?

/-- The dependency graph: an edge from each label to those it depends on. -/
def graph (s : Session σ) : Graph :=
  s.entries.zipIdx.foldl (fun g (e, i) => (s.dependencies e).foldl (fun g j => g.addEdge i j) g)
    (.ofSize s.entries.length)

def sort (s : Session σ) : SortedSession σ :=
  let g := s.graph
  ⟨s, g, g.components⟩

variable (M : Model σ) (A : Arithmetic α)

/-- The probability that a coin lands as its label says. -/
def coinValue (l : Label) : Action (Session σ) α := do
  match l.call.parameters with
  | [.literal h] =>
    let p ← ask (M.readProbability l.call h)
    match l.result with
    | [.literal r] =>
      match (← ask (M.toExternal r)).bool? with
      | some landed => return A.coin p landed
      | none => throw ((CoinDefect.notBoolean (← display M r)).failure l.call)
    | result => throw ((CoinDefect.resultCount result.length).failure l.call)
  | _ => throw (CoinDefect.notOneLiteral.failure l.call)

/-- The term of the labels of an alternative. Coins met before are known. -/
def termOf (known : List (Label × α)) (t : Term α) :
    List Label → Action (Session σ) (List (Label × α) × Term α)
  | [] => return (known, t)
  | l :: rest => do
    if l.isPrimitive then
      match known.lookup l with
      | some p => termOf known { t with coefficient := A.times t.coefficient p } rest
      | none =>
        let p ← coinValue M A l
        termOf ((l, p) :: known) { t with coefficient := A.times t.coefficient p } rest
    else
      match (← get).number? l with
      | some i => termOf known { t with dependencies := t.dependencies ++ [i] } rest
      | none => termOf known { t with coefficient := A.impossible } rest

def termsOf (known : List (Label × α)) :
    List (List Label) → Action (Session σ) (List (Label × α) × List (Term α))
  | [] => return (known, [])
  | labels :: rest => do
    let (known, t) ← termOf M A known ⟨A.certain, []⟩ labels
    let (known, ts) ← termsOf known rest
    return (known, t :: ts)

def equationsOf (known : List (Label × α)) : List Entry → Action (Session σ) (List (List (Term α)))
  | [] => return []
  | e :: rest => do
    let (known, ts) ← termsOf M A known e.alternatives
    return ts :: (← equationsOf known rest)

def system : Action (Session σ) (System α) := do
  return (← equationsOf M A [] (← get).entries).toArray

end Session

namespace SortedSession

variable {σ α : Type}

/-- The components as labels, in topological order. -/
def componentLabels (s : SortedSession σ) : List (List Label) :=
  s.components.map fun c => c.filterMap fun i => s.session.labels[i]?

/-- The failure of a component that did not settle. It names the first label of the component. -/
def notSettled (s : SortedSession σ) (e : System.NotSettled) : Failure :=
  .didNotConverge ((e.component.head?.bind (s.session.labels[·]?)).elim "" Label.display) e.passes

def results (s : SortedSession σ) (values : Array α) (passes : Nat) : Results α where
  labels := s.session.labels.zip values.toList
  proved := s.session.proved
  bindings := s.session.bindings
  stats :=
    { labels := s.session.entries.length
      components := s.components.length
      recursiveComponents := s.components.countP s.graph.isRecursive
      passes := passes
      modelQueries := s.session.queries
      cacheHits := s.session.hits
      modelSeconds := s.session.seconds }

/-- Solve the equations of a sorted session, with `limit` passes at most for a component. -/
def solve (M : Model σ) (A : Arithmetic α) (limit : Nat) (s : SortedSession σ) :
    Run (Session σ) (Results α) := do
  let system ← Run.ofAction (Session.system M A)
  match system.solve A s.graph s.components s.session.settings.maxPasses limit with
  | none => Run.unfinished
  | some (.error e) => throw (s.notSettled e)
  | some (.ok (values, passes)) => return s.results values passes

end SortedSession

namespace Model

variable {σ α : Type} (M : Model σ)

def evaluateIn (A : Arithmetic α) (limit : Nat) (proofs : List Proof) :
    Run (Session σ) (Results α) := do
  Run.ofAction (proofs.forM fun p => do let _ ← Session.expand M p)
  let s : Session σ ← get
  s.sort.solve M A limit

/-- Prove: expand and solve proofs over a model in a session of their own. -/
def evaluate (A : Arithmetic α) (settings : Settings) (limit : Nat) (proofs : List Proof) :
    Run σ (Results α) := fun world =>
  match (M.evaluateIn A limit proofs).run (.start settings world) with
  | none => none
  | some (x, s) => some (x, s.world)

end Model

end ChanceProof
