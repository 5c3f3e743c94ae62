import ClassAtlas.Graph.Basic

/-!
# Walks

A walk goes depth-first from a unit along the references, or against them. Neighbours are taken in
the order of their names, and the start is never listed, also when a cycle leads back to it.
-/

namespace ClassAtlas

/-- Which way a walk follows references. -/
inductive Direction where
  | dependencies
  | dependents
  deriving DecidableEq

namespace Graph

/-- The neighbours of a unit in one direction, in order. -/
def neighbours (g : Graph) : Direction → String → List String
  | .dependencies => g.successorsOf
  | .dependents => g.predecessorsOf

/-- How many neighbours all nodes have together. -/
def neighbourTotal (g : Graph) (direction : Direction) : Nat :=
  sumOf (fun name => (g.neighbours direction name).length) g.names

/-- Depth-first search with an explicit stack: takes the topmost unit that was not visited, lists it
and puts what follows it on the stack. Makes at most so many steps. -/
def explore (next : String → List String) : Nat → List String → List String → List String
  | 0, _, _ => []
  | _ + 1, [], _ => []
  | n + 1, name :: stack, visited =>
    if visited.contains name then explore next n stack visited
    else name :: explore next n (next name ++ stack) (name :: visited)

/-- The units on a walk from a node, in the order of the walk. Each node puts its neighbours on the
stack at most once, so the number of neighbours bounds the number of steps. -/
def walkFrom (g : Graph) (direction : Direction) (transitive : Bool) (start : String) :
    List String :=
  let next := fun name => if transitive then g.neighbours direction name else []
  explore next (g.neighbourTotal direction) (g.neighbours direction start) [start]

/-- The walk from the unit that a given name stands for. -/
def walk (g : Graph) (direction : Direction) (transitive : Bool) (name : String) : List String :=
  (g.key? name).elim [] (g.walkFrom direction transitive)

/-- The units that a unit refers to, or all that it reaches. -/
def dependenciesOf (g : Graph) (name : String) (transitive : Bool) : List String :=
  g.walk .dependencies transitive name

/-- The units that refer to a unit, or all that reach it. -/
def dependentsOf (g : Graph) (name : String) (transitive : Bool) : List String :=
  g.walk .dependents transitive name

/-- The unit with exactly the name `target` can be reached. -/
def reaches (g : Graph) (name target : String) : Bool :=
  (g.dependenciesOf name true).contains target

/-- The units that were not supplied and can be reached, in order. -/
def missingDependencies (g : Graph) (root : String) : List String :=
  sortedDistinct <| (g.dependenciesOf root true).filter fun name =>
    (g.nodeAt? name).any fun node => !node.resolved

end Graph

end ClassAtlas
