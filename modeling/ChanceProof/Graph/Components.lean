/-!
# Strongly connected components

A dependency graph over the nodes below its size, and its components in topological order: a
component stands before every component that it has an edge into. Read from the back, the list
visits what a node depends on before the node.

Two searches find them. The first goes along the edges and records nodes in the order in which they
are finished. The second starts from the nodes in the opposite order and goes against the edges:
what it reaches for the first time from one node is that node's component.
-/

namespace ChanceProof

/-- A graph over the nodes below `size`. Edges are kept in the order in which they were added. -/
structure Graph where
  size : Nat
  edges : List (Nat × Nat)
deriving DecidableEq, Repr, Inhabited

namespace Graph

def ofSize (n : Nat) : Graph := ⟨n, []⟩

/-- Add an edge, unless one of its ends is no node. -/
def addEdge (g : Graph) (source target : Nat) : Graph :=
  if source < g.size ∧ target < g.size then
    { g with edges := g.edges ++ [(source, target)] }
  else g

/-- The ends of the edges from a node, in order and as often as there are edges. -/
def successors (g : Graph) (v : Nat) : List Nat :=
  g.edges.filterMap fun e => if e.1 = v then some e.2 else none

/-- The starts of the edges into a node. -/
def predecessors (g : Graph) (v : Nat) : List Nat :=
  g.edges.filterMap fun e => if e.2 = v then some e.1 else none

theorem mem_successors {g : Graph} {v w : Nat} : w ∈ g.successors v ↔ (v, w) ∈ g.edges := by
  simp only [successors, List.mem_filterMap]
  constructor
  · rintro ⟨⟨a, b⟩, he, h⟩
    split at h <;> simp_all
  · intro he
    exact ⟨(v, w), he, by simp⟩

theorem mem_predecessors {g : Graph} {v w : Nat} : v ∈ g.predecessors w ↔ (v, w) ∈ g.edges := by
  simp only [predecessors, List.mem_filterMap]
  constructor
  · rintro ⟨⟨a, b⟩, he, h⟩
    split at h <;> simp_all
  · intro he
    exact ⟨(v, w), he, by simp⟩

@[simp] theorem size_addEdge (g : Graph) (source target : Nat) :
    (g.addEdge source target).size = g.size := by
  unfold addEdge
  split <;> rfl

theorem mem_edges_addEdge {g : Graph} {source target : Nat} {e : Nat × Nat} :
    e ∈ (g.addEdge source target).edges ↔
      e ∈ g.edges ∨ (source < g.size ∧ target < g.size) ∧ e = (source, target) := by
  unfold addEdge
  split
  · next h => simp [h]
  · next h => simp [h]

def hasSelfLoop (g : Graph) (v : Nat) : Bool := (g.successors v).contains v

/-- A component is recursive when a node of it depends on itself, directly or through others. -/
def isRecursive (g : Graph) : List Nat → Bool
  | [v] => g.hasSelfLoop v
  | _ => true

/-- The nodes that a search has seen, and those that it has finished, the last one first. -/
structure Search where
  seen : List Nat
  finished : List Nat
deriving DecidableEq, Repr

/-- Visit nodes depth first, each unless it was seen before. A node is finished after everything
that it leads to. -/
def visit (next : Nat → List Nat) : (fuel : Nat) → List Nat → Search → Search
  | _, [], s => s
  | 0, _ :: _, s => s
  | fuel + 1, v :: rest, s =>
    if s.seen.contains v then visit next fuel rest s
    else
      let inner := visit next fuel (next v) { s with seen := v :: s.seen }
      visit next fuel rest { inner with finished := v :: inner.finished }

/-- Steps that are enough for any search of the graph: each one sees a node or goes on in a list of
neighbours, and every list is gone through at most once. -/
def searchFuel (g : Graph) : Nat := 2 * g.size + g.edges.length + 1

def finishOrder (g : Graph) : List Nat :=
  (visit g.successors g.searchFuel (List.range g.size) ⟨[], []⟩).finished

def insertAscending (v : Nat) : List Nat → List Nat
  | [] => [v]
  | w :: rest => if v ≤ w then v :: w :: rest else w :: insertAscending v rest

/-- The components that the second search finds from these nodes, when some nodes are taken. -/
def collect (g : Graph) : (seen : List Nat) → List Nat → List (List Nat)
  | _, [] => []
  | seen, v :: rest =>
    if seen.contains v then collect g seen rest
    else
      let s := visit g.predecessors g.searchFuel [v] ⟨seen, []⟩
      s.finished.foldr insertAscending [] :: collect g s.seen rest

/-- The components in topological order, the nodes of each ascending. -/
def components (g : Graph) : List (List Nat) := g.collect [] g.finishOrder

end Graph

/-- Group named nodes into components, in topological order. Edges with an end that is no node are
left out, and of nodes with one name the last has the edges. -/
def namedComponents (nodes : List String) (edges : List (String × String)) : List (List String) :=
  let number? (name : String) : Option Nat :=
    (nodes.zipIdx.filter (·.1 == name)).getLast?.map (·.2)
  let add (g : Graph) (e : String × String) : Graph :=
    match number? e.1, number? e.2 with
    | some source, some target => g.addEdge source target
    | _, _ => g
  let g := edges.foldl add (.ofSize nodes.length)
  g.components.map fun c => c.filterMap (nodes[·]?)

end ChanceProof
