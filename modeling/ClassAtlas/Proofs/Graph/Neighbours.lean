import Mathlib.Data.String.Basic
import ClassAtlas.Proofs.Graph.Consistency
import ClassAtlas.Proofs.Graph.Reachability

/-!
# Neighbours

The neighbours of a node are the units that edges of any kind lead to, or come from. Each is listed
once, in the order of the names, however many kinds of edges there are. In a consistent graph the
two directions are converse to each other.

## Main definitions

* `Graph.Refers` says that an edge leads from one unit to another.
* `Graph.Leads` is the same along a direction.
-/

namespace ClassAtlas

theorem pairwise_sortedDistinct (l : List String) : (sortedDistinct l).Pairwise (· < ·) :=
  (SortedMap.sorted_keys _).imp compare_lt_iff_lt.1

namespace Graph

/-- An edge of some kind leads from one unit to the other. -/
def Refers (g : Graph) (a b : String) : Prop := ∃ e ∈ g.edges, e.source = a ∧ e.target = b

/-- An edge of some kind leads from one unit to the other along a direction. -/
def Leads (g : Graph) : Direction → String → String → Prop
  | .dependencies, a, b => g.Refers a b
  | .dependents, a, b => g.Refers b a

theorem pairwise_names (g : Graph) : g.names.Pairwise (· < ·) :=
  (SortedMap.sorted_keys _).imp compare_lt_iff_lt.1

theorem nodup_names (g : Graph) : g.names.Nodup := SortedMap.nodup_keys _

theorem mem_successorsOf_iff {g : Graph} {a b : String} : b ∈ g.successorsOf a ↔ g.Refers a b :=
  mem_successorsOf

theorem pairwise_neighbours (g : Graph) (direction : Direction) (name : String) :
    (g.neighbours direction name).Pairwise (· < ·) := by
  have hnode (f : Node → List String) (hf : ∀ node, (f node).Pairwise (· < ·)) :
      ((g.nodeAt? name).elim [] f).Pairwise (· < ·) := by
    cases g.nodeAt? name with
    | none => exact .nil
    | some node => exact hf node
  cases direction with
  | dependencies => exact hnode _ fun node => pairwise_sortedDistinct _
  | dependents => exact hnode _ fun node => pairwise_sortedDistinct _

theorem refers_iff {g : Graph} {a b : String} : g.Refers a b ↔
    ∃ node kind, g.nodeAt? a = some node ∧ node.outgoing.contains ⟨b, kind⟩ = true := by
  simp only [Refers, mem_edges, SortedMap.contains, Option.isSome_iff_exists]
  constructor
  · rintro ⟨e, ⟨node, hnode, hn⟩, rfl, rfl⟩
    exact ⟨node, e.kind, hnode, e.count, hn⟩
  · rintro ⟨node, kind, hnode, n, hn⟩
    exact ⟨⟨a, b, kind, n⟩, ⟨node, hnode, hn⟩, rfl, rfl⟩

theorem Refers.source_mem {g : Graph} {a b : String} (h : g.Refers a b) : a ∈ g.names := by
  obtain ⟨node, -, hnode, -⟩ := refers_iff.1 h
  exact mem_names.2 ⟨node, hnode⟩

namespace Consistent

variable {g : Graph} {a b : String}

theorem target_mem_of_refers (hg : g.Consistent) (h : g.Refers a b) : b ∈ g.names := by
  obtain ⟨node, kind, hnode, hlink⟩ := refers_iff.1 h
  exact hg.target_mem a node hnode ⟨b, kind⟩ hlink

theorem ne_of_refers (hg : g.Consistent) (h : g.Refers a b) : a ≠ b := by
  obtain ⟨node, kind, hnode, hlink⟩ := refers_iff.1 h
  exact (hg.no_loop a node hnode ⟨b, kind⟩ hlink).symm

theorem mem_predecessorsOf_iff (hg : g.Consistent) : a ∈ g.predecessorsOf b ↔ g.Refers a b := by
  rw [predecessorsOf]
  cases hnode : g.nodeAt? b with
  | none =>
    refine ⟨by simp, fun h => ?_⟩
    obtain ⟨node, hb⟩ := mem_names.1 (hg.target_mem_of_refers h)
    rw [hb] at hnode
    cases hnode
  | some node =>
    have hincoming (kind : EdgeKind) := hg.incoming_iff b node hnode ⟨a, kind⟩
    simp only [Option.elim_some, Node.predecessors, mem_sortedDistinct, List.mem_map,
      SortedSet.mem_elements, refers_iff]
    constructor
    · rintro ⟨link, hlink, rfl⟩
      obtain ⟨source, hsource, hout⟩ := (hincoming link.kind).1 hlink
      exact ⟨source, link.kind, hsource, hout⟩
    · rintro ⟨source, kind, hsource, hout⟩
      exact ⟨⟨a, kind⟩, (hincoming kind).2 ⟨source, hsource, hout⟩, rfl⟩

theorem mem_neighbours_iff (hg : g.Consistent) {direction : Direction} :
    b ∈ g.neighbours direction a ↔ g.Leads direction a b := by
  cases direction with
  | dependencies => exact mem_successorsOf_iff
  | dependents => exact hg.mem_predecessorsOf_iff

theorem ne_of_leads (hg : g.Consistent) {direction : Direction} (h : g.Leads direction a b) :
    a ≠ b := by
  cases direction with
  | dependencies => exact hg.ne_of_refers h
  | dependents => exact (hg.ne_of_refers h).symm

end Consistent

end Graph

/-- Finished graphs and the graphs of their packages, of the packages of these, and so on are
consistent. -/
theorem GraphBuilder.consistent_finished (config : GraphConfig) (units : List UnitReferences)
    (n : Nat) : (Graph.packages^[n] ((start config).ingestAll units).finish).Consistent := by
  induction n with
  | zero => exact (holds_ingestAll config units).consistent_finish
  | succ n ih =>
    rw [Function.iterate_succ_apply']
    exact ih.packages

end ClassAtlas
