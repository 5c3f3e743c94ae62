import ClassAtlas.Proofs.Graph.DepthFirst

/-!
# Dependencies and dependents

Dependencies are found along the edges that a node lists as its own, dependents along the index of
edges that lead to a node. In a consistent graph the two are converse to each other: an edge is
followed from its source to its target or back, and so is a path of edges.

## Main results

* `Graph.Consistent.mem_walk_iff`: what a walk from a unit lists, in terms of edges and paths.
* `Graph.mem_dependenciesOf_iff_mem_dependentsOf`: dependencies and dependents of finished graphs
  are converse relations.
-/

namespace ClassAtlas.Graph

open Relation

variable {g : Graph} {direction : Direction} {a b : String}

/-- One unit is listed on a walk from the other: an edge leads there, or a path of edges if the walk
is transitive. A walk does not list its start. -/
def OnWalk (g : Graph) (direction : Direction) : Bool → String → String → Prop
  | false, a, b => g.Leads direction a b
  | true, a, b => b ≠ a ∧ TransGen (g.Leads direction) a b

/-- What is on a walk along the edges has the start on the walk against them. -/
theorem onWalk_swap (g : Graph) (transitive : Bool) (a b : String) :
    g.OnWalk .dependencies transitive a b ↔ g.OnWalk .dependents transitive b a := by
  cases transitive with
  | false => exact Iff.rfl
  | true =>
    have hpath : TransGen (g.Leads .dependents) b a ↔ TransGen (g.Leads .dependencies) a b :=
      transGen_swap
    have hne : b ≠ a ↔ a ≠ b := ne_comm
    simp only [OnWalk, hpath, hne]

theorem explore_nil (next : String → List String) (n : Nat) (visited : List String) :
    explore next n [] visited = [] := by
  cases n <;> rfl

/-- The walk from a name in internal form begins at this name. If it is no node, there is nothing to
walk along. -/
theorem walk_eq_walkFrom (hname : Name.normalize a = a) (transitive : Bool) :
    g.walk direction transitive a = g.walkFrom direction transitive a := by
  rw [walk, key?, hname]
  split
  · rfl
  · next hnone =>
    have hmem : a ∉ g.names := fun h => hnone (SortedMap.mem_keys.1 h)
    simp [walkFrom, neighbours_eq_nil hmem, explore_nil]

theorem Consistent.mem_walk_iff (hg : g.Consistent) (hname : Name.normalize a = a)
    (transitive : Bool) :
    b ∈ g.walk direction transitive a ↔ g.OnWalk direction transitive a b := by
  rw [walk_eq_walkFrom hname]
  cases transitive with
  | false =>
    rw [hg.walkFrom_false]
    exact hg.mem_neighbours_iff
  | true => exact hg.mem_walkFrom_iff

/-- In a finished graph, or the graph of its packages, a unit depends on another exactly if it is
one of the other's dependents. The direct ones are joined by an edge, all of them by a path of edges
between two different units. -/
theorem mem_dependenciesOf_iff_mem_dependentsOf (config : GraphConfig)
    (units : List UnitReferences) (n : Nat) {a b : String} (ha : Name.normalize a = a)
    (hb : Name.normalize b = b) :
    let g := Graph.packages^[n] ((GraphBuilder.start config).ingestAll units).finish
    (∀ transitive, b ∈ g.dependenciesOf a transitive ↔ a ∈ g.dependentsOf b transitive) ∧
    (b ∈ g.dependenciesOf a false ↔ g.Refers a b) ∧
    (b ∈ g.dependenciesOf a true ↔ b ≠ a ∧ TransGen g.Refers a b) := by
  intro g
  have hg : g.Consistent := GraphBuilder.consistent_finished config units n
  refine ⟨fun transitive => ?_, hg.mem_walk_iff ha false, hg.mem_walk_iff ha true⟩
  calc b ∈ g.dependenciesOf a transitive
      ↔ g.OnWalk .dependencies transitive a b := hg.mem_walk_iff ha transitive
    _ ↔ g.OnWalk .dependents transitive b a := onWalk_swap g transitive a b
    _ ↔ a ∈ g.dependentsOf b transitive := (hg.mem_walk_iff hb transitive).symm

/-- Two units of one cycle, with edges of two kinds between them: the way from `a` to `c` leads
through `b`, and the way back does not. -/
theorem mem_dependenciesOf_iff_mem_dependentsOf_cycle :
    let units := [((UnitReferences.empty "a").add "b" .fieldType).add "b" .superclass,
      (UnitReferences.empty "b").add "c" .instructionRef,
      (UnitReferences.empty "c").add "a" .methodParam]
    let g := Graph.packages^[0] ((GraphBuilder.start (.ofPreset .full)).ingestAll units).finish
    "c" ∈ g.dependenciesOf "a" true ∧ "a" ∈ g.dependentsOf "c" true ∧
      "c" ∉ g.dependenciesOf "a" false ∧ "a" ∉ g.dependentsOf "c" false := by
  intro units g
  obtain ⟨hconverse, -, -⟩ :=
    mem_dependenciesOf_iff_mem_dependentsOf (.ofPreset .full) units 0 (a := "a") (b := "c")
      (by decide) (by decide)
  have htransitive : "c" ∈ g.dependenciesOf "a" true := by decide +kernel
  have hdirect : "c" ∉ g.dependenciesOf "a" false := by decide +kernel
  exact ⟨htransitive, (hconverse true).1 htransitive, hdirect,
    fun h => hdirect ((hconverse false).2 h)⟩

end ClassAtlas.Graph
