import ClassAtlas.Count
import ClassAtlas.EdgeKind
import ClassAtlas.Name
import ClassAtlas.Sum

/-!
# Dependency graphs

A graph has a node for each unit, and an edge from one unit to another for each kind of reference,
with the number of its occurrences. Nodes and edges are listed in the order of their names.

A node also lists the edges that lead to it. `Graph.ofSources` builds that index from the edges, so
each node's `incoming` is the converse of the others' `outgoing`.

The look-ups that take a name accept any form that `Name.normalize` brings to the internal one.
-/

namespace ClassAtlas

/-- A unit in a graph. -/
structure Node where
  /-- The unit itself was supplied, not only mentioned. -/
  resolved : Bool
  outgoing : SortedMap Link Count
  incoming : SortedSet Link
  deriving DecidableEq

namespace Node

/-- The units that a node refers to, in order. -/
def successors (node : Node) : List String := sortedDistinct (node.outgoing.keys.map Link.unit)

/-- The units that refer to a node, in order. -/
def predecessors (node : Node) : List String :=
  sortedDistinct (node.incoming.elements.map Link.unit)

end Node

/-- All references of one kind from one unit to another. -/
structure Edge where
  source : String
  target : String
  kind : EdgeKind
  count : Count
  deriving DecidableEq

/-- Units and the references between them. -/
structure Graph where
  nodes : SortedMap String Node
  deriving DecidableEq

/-- A unit with its outgoing edges, before the graph is put together. -/
structure Source where
  resolved : Bool
  outgoing : SortedMap Link Count

namespace Graph

/-- The graph without nodes. -/
def empty : Graph := ⟨∅⟩

/-! ## Construction -/

/-- The edges of some sources that lead to `name`, as links to where they come from. -/
def incomingOf (sources : SortedMap String Source) (name : String) : SortedSet Link :=
  SortedSet.ofElements <| sources.toList.flatMap fun (source, s) =>
    (s.outgoing.keys.filter (·.unit = name)).map fun link => ⟨source, link.kind⟩

/-- The names of some sources and of all they refer to. -/
def namesOf (sources : SortedMap String Source) : SortedSet String :=
  SortedSet.ofElements <|
    sources.keys ++ sources.values.flatMap fun s => s.outgoing.keys.map Link.unit

/-- The graph of some sources. What they refer to without being a source itself becomes an
unresolved node. -/
def ofSources (sources : SortedMap String Source) : Graph where
  nodes := (namesOf sources).mapValues fun name _ =>
    match sources.get? name with
    | some s => ⟨s.resolved, s.outgoing, incomingOf sources name⟩
    | none => ⟨false, ∅, incomingOf sources name⟩

/-! ## Look-ups -/

/-- The node with exactly this name. -/
def nodeAt? (g : Graph) (name : String) : Option Node := g.nodes.get? name

/-- The stored name that a given name stands for. -/
def key? (g : Graph) (name : String) : Option String :=
  if g.nodes.contains (Name.normalize name) then some (Name.normalize name) else none

/-- The node that a given name stands for. -/
def node? (g : Graph) (name : String) : Option Node := g.nodeAt? (Name.normalize name)

def contains (g : Graph) (name : String) : Bool := (g.node? name).isSome

/-- The unit that a given name stands for was supplied. -/
def isResolved (g : Graph) (name : String) : Bool :=
  match g.node? name with
  | some node => node.resolved
  | none => false

/-- The names of all nodes, in order. -/
def names (g : Graph) : List String := g.nodes.keys

def nodeCount (g : Graph) : Nat := g.nodes.size

/-- The edges from a node with a given name. -/
def nodeEdges (source : String) (node : Node) : List Edge :=
  node.outgoing.toList.map fun (link, count) => ⟨source, link.unit, link.kind, count⟩

/-- All edges, by source, target and kind. -/
def edges (g : Graph) : List Edge := g.nodes.toList.flatMap fun (name, node) => nodeEdges name node

def edgeCount (g : Graph) : Nat := sumOf (fun node => node.outgoing.size) g.nodes.values

/-- The edges from the unit that a given name stands for. -/
def edgesFrom (g : Graph) (name : String) : List Edge :=
  match g.node? name with
  | some node => nodeEdges (Name.normalize name) node
  | none => []

/-- The edge of one kind between the units that two given names stand for. -/
def edge? (g : Graph) (source target : String) (kind : EdgeKind) : Option Edge := do
  let node ← g.node? source
  let count ← node.outgoing.get? ⟨Name.normalize target, kind⟩
  return ⟨Name.normalize source, Name.normalize target, kind, count⟩

/-- The units that a unit refers to, in order. -/
def successorsOf (g : Graph) (name : String) : List String :=
  (g.nodeAt? name).elim [] Node.successors

/-- The units that refer to a unit, in order. -/
def predecessorsOf (g : Graph) (name : String) : List String :=
  (g.nodeAt? name).elim [] Node.predecessors

/-- The supplied units that no other refers to. -/
def unreferenced (g : Graph) : List String :=
  (g.nodes.filter fun _ node => node.resolved && node.incoming.isEmpty).keys

/-! ## Numbers -/

/-- How many edges there are of each kind that occurs. -/
def edgesByKind (g : Graph) : List (EdgeKind × Nat) :=
  (EdgeKind.all.map fun kind => (kind, (g.edges.filter (·.kind = kind)).length)).filter (·.2 ≠ 0)

/-- The number of nodes whose units were supplied. -/
def resolvedCount (g : Graph) : Nat := (g.nodes.values.filter (·.resolved)).length

/-- The number of occurrences of all edges. -/
def totalOccurrences (g : Graph) : Nat := sumOf (fun e => e.count.val) g.edges

/-- The weight of each pair of units: the occurrences of all kinds together. Pairs are ordered by
name, and units stand for their positions among the names. -/
def weights (g : Graph) : List (Nat × Nat × Count) :=
  g.nodes.toList.flatMap fun (name, node) =>
    node.successors.map fun target =>
      let counts := (node.outgoing.toList.filter (·.1.unit = target)).map (·.2)
      (g.names.idxOf name, g.names.idxOf target, counts.foldl (· + ·) 0)

end Graph

end ClassAtlas
