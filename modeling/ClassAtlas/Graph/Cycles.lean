import ClassAtlas.Graph.Walk

/-!
# Cycles

Two units lie on a common cycle if each can be reached from the other. The units of a graph that lie
on cycles fall into components, whose members reach one another.
-/

namespace ClassAtlas.Graph

/-- A node with all nodes that it reaches and that reach it, in order. -/
def componentAt (g : Graph) (name : String) : List String :=
  let backward := g.walkFrom .dependents true name
  sortedDistinct (name :: (g.walkFrom .dependencies true name).filter backward.contains)

/-- The components with at least two members, by their smallest members. -/
def cycles (g : Graph) : List (List String) :=
  g.names.filterMap fun name =>
    let members := g.componentAt name
    if 1 < members.length ∧ members.head? = some name then some members else none

def hasCycles (g : Graph) : Bool := !g.cycles.isEmpty

/-- The component of the unit that a given name stands for. -/
def cycleOf? (g : Graph) (name : String) : Option (List String) := do
  let key ← g.key? name
  g.cycles.find? (·.contains key)

/-- The component that has the internal form of a name as a member. -/
def componentOf? (g : Graph) (name : String) : Option (List String) :=
  g.cycles.find? (·.contains (Name.normalize name))

/-- The number of units on cycles. -/
def unitsInCycles (g : Graph) : Nat := sumOf List.length g.cycles

end ClassAtlas.Graph
