import ClassAtlas.Graph.Basic

/-!
# Packages

The graph of packages: its nodes are the packages of the units, and the references between units of
two packages become one edge for each kind. References inside a package are dropped.
-/

namespace ClassAtlas.Graph

/-- Adds the references of a unit to those of its package. -/
def mergePackage (package : String) (known : Source) (node : Node) : Source where
  resolved := known.resolved || node.resolved
  outgoing := (node.outgoing.toList.filter fun e => Name.package e.1.unit ≠ package).foldl
    (fun m e => m.alter ⟨Name.package e.1.unit, e.1.kind⟩ fun old => old.getD 0 + e.2)
    known.outgoing

/-- The packages with their edges. -/
def packageSources (g : Graph) : SortedMap String Source :=
  g.nodes.toList.foldl
    (fun m (name, node) => m.alter (Name.package name) fun known =>
      mergePackage (Name.package name) (known.getD ⟨false, ∅⟩) node)
    SortedMap.empty

/-- The graph of the packages. -/
def packages (g : Graph) : Graph := ofSources g.packageSources

end ClassAtlas.Graph
