import ClassAtlas.Proofs.Graph.Converse
import ClassAtlas.Proofs.Graph.Distance

/-!
# The impact of a change, in terms of paths

A change of a unit affects the units from which a path of edges leads there. The report on it lists
them twice, by the index of edges that lead to the unit and by a depth-first walk, and measures by a
breadth-first search how far they are. Here all parts of the report are told in terms of edges and
paths, so they agree with each other.

## Main definitions

* `Graph.sourcesOfKind` are the units with an edge of one kind to a target.
* `Impact.Describes` says what a report on a unit has to tell.

## Main results

* `Graph.Consistent.exists_describes`: there is a report on every unit of a consistent graph.
* `Impact.compute?_exact`: the same for finished graphs and the graphs of their packages.
-/

namespace ClassAtlas

open Relation

namespace Graph

/-- The units from which an edge of one kind leads to the target. -/
def sourcesOfKind (g : Graph) (kind : EdgeKind) (t : String) : Finset String :=
  ((g.edges.filter fun e => e.target = t ∧ e.kind = kind).map Edge.source).toFinset

end Graph

/-- The report tells what a change of a unit affects in a graph. -/
structure Impact.Describes (impact : Impact) (g : Graph) (t : String) : Prop where
  target_eq : impact.target = t
  /-- The direct dependents have an edge to the target. -/
  mem_direct_iff : ∀ m, m ∈ impact.direct ↔ ∃ e ∈ g.edges, e.source = m ∧ e.target = t
  /-- All dependents have a path to the target. -/
  mem_transitive_iff : ∀ m, m ∈ impact.transitive ↔ m ≠ t ∧ TransGen g.Refers m t
  direct_subset : impact.direct ⊆ impact.transitive
  mem_packages_iff : ∀ p, p ∈ impact.packages ↔ ∃ m ∈ impact.transitive, Name.package m = p
  /-- Names are in increasing order, each once. -/
  sorted : impact.direct.Pairwise (· < ·) ∧ impact.transitive.Pairwise (· < ·) ∧
    impact.packages.Pairwise (· < ·)
  /-- The kinds that occur have the number of their sources. -/
  mem_byKind_iff : ∀ kind k, (kind, k) ∈ impact.byKind ↔
    0 < k ∧ k = (g.sourcesOfKind kind t).card
  byKind_sublist : (impact.byKind.map (·.1)).Sublist EdgeKind.all
  /-- No dependent is further away than the depth, and one is as far away. -/
  distance_le : ∀ m ∈ impact.transitive, ∃ d ≤ impact.maxDepth, g.Distance m t d
  exists_distance_eq : impact.transitive ≠ [] →
    ∃ m ∈ impact.transitive, g.Distance m t impact.maxDepth
  maxDepth_eq_zero_iff : impact.maxDepth = 0 ↔ impact.transitive = []
  maxDepth_le : impact.maxDepth ≤ impact.transitive.length

/-! ## Numbers by kind -/

theorem EdgeKind.mem_filter_map_all_iff {count : EdgeKind → Nat} {kind : EdgeKind} {k : Nat} :
    (kind, k) ∈ (EdgeKind.all.map fun kind => (kind, count kind)).filter (·.2 ≠ 0) ↔
      0 < k ∧ k = count kind := by
  have hall := EdgeKind.mem_all kind
  grind

theorem EdgeKind.filter_map_all_sublist (count : EdgeKind → Nat) :
    (((EdgeKind.all.map fun kind => (kind, count kind)).filter (·.2 ≠ 0)).map (·.1)).Sublist
      EdgeKind.all := by
  have hfst : (EdgeKind.all.map fun kind => (kind, count kind)).map (·.1) = EdgeKind.all := by
    rw [List.map_map]
    exact List.map_id _
  nth_rewrite 2 [← hfst]
  exact List.filter_sublist.map _

/-! ## The depth -/

namespace Graph

section

variable {g : Graph} {t : String} {units : List String} {depth : Nat}
  (hunits : ∀ m, m ∈ units ↔ m ≠ t ∧ TransGen g.Refers m t)
  (hdepth : IsGreatest {k | ∃ m, g.Distance m t k} depth)
include hunits hdepth

theorem exists_distance_le_of_mem {m : String} (hm : m ∈ units) :
    ∃ d ≤ depth, g.Distance m t d := by
  obtain ⟨d, hd⟩ := exists_distance_succ_iff.2 ((hunits m).1 hm)
  exact ⟨d + 1, hdepth.2 ⟨m, hd⟩, hd⟩

theorem depth_eq_zero_iff : depth = 0 ↔ units = [] := by
  constructor
  · intro hzero
    refine List.eq_nil_iff_forall_not_mem.2 ?_
    intro m hm
    obtain ⟨d, hd⟩ := exists_distance_succ_iff.2 ((hunits m).1 hm)
    have hle := hdepth.2 ⟨m, hd⟩
    omega
  · intro hnil
    obtain ⟨m, hm⟩ := hdepth.1
    cases depth with
    | zero => rfl
    | succ d =>
      have hmem := (hunits m).2 (exists_distance_succ_iff.1 ⟨d, hm⟩)
      simp [hnil] at hmem

theorem exists_mem_distance_eq (hne : units ≠ []) : ∃ m ∈ units, g.Distance m t depth := by
  obtain ⟨m, hm⟩ := hdepth.1
  cases depth with
  | zero => exact absurd ((depth_eq_zero_iff hunits hdepth).1 rfl) hne
  | succ d => exact ⟨m, (hunits m).2 (exists_distance_succ_iff.1 ⟨d, hm⟩), hm⟩

theorem depth_le_length : depth ≤ units.length := by
  obtain ⟨m, hm⟩ := hdepth.1
  apply hm.le_length
  intro m hne hreach
  exact (hunits m).2 ⟨hne, hreach⟩

end

/-! ## The report -/

namespace Consistent

variable {g : Graph} {t : String} {node : Node} (hg : g.Consistent)
include hg

/-- A node lists one edge of a kind for each of its sources. -/
theorem length_incoming_eq_card (hnode : g.nodeAt? t = some node) (kind : EdgeKind) :
    (node.incoming.elements.filter (·.kind = kind)).length = (g.sourcesOfKind kind t).card := by
  have hnodup : ((node.incoming.elements.filter (·.kind = kind)).map Link.unit).Nodup := by
    refine ((SortedMap.nodup_keys node.incoming).filter _).map_on ?_
    intro link hlink link' hlink' hunit
    have hkind := (List.mem_filter.1 hlink).2
    have hkind' := (List.mem_filter.1 hlink').2
    cases link
    cases link'
    simp_all
  rw [← List.length_map Link.unit, ← List.toFinset_card_of_nodup hnodup]
  congr 1
  ext m
  have hincoming := hg.incoming_iff t node hnode ⟨m, kind⟩
  simp only [sourcesOfKind, List.mem_toFinset, List.mem_map, List.mem_filter,
    SortedSet.mem_elements, decide_eq_true_eq]
  constructor
  · rintro ⟨link, ⟨hlink, rfl⟩, rfl⟩
    obtain ⟨source, hsource, hout⟩ := hincoming.1 hlink
    obtain ⟨count, hcount⟩ := Option.isSome_iff_exists.1 hout
    exact ⟨⟨link.unit, t, link.kind, count⟩, ⟨mem_edges.2 ⟨source, hsource, hcount⟩, rfl, rfl⟩,
      rfl⟩
  · rintro ⟨e, ⟨he, rfl, rfl⟩, rfl⟩
    obtain ⟨source, hsource, hcount⟩ := mem_edges.1 he
    refine ⟨⟨e.source, e.kind⟩, ⟨hincoming.2 ⟨source, hsource, ?_⟩, rfl⟩, rfl⟩
    rw [SortedMap.contains, hcount]
    rfl

/-- There is a report on every unit, and it tells what a change of the unit affects. -/
theorem exists_describes (ht : t ∈ g.names) (hname : Name.normalize t = t) :
    ∃ impact, Impact.compute? g t = some impact ∧ impact.Describes g t := by
  obtain ⟨node, hnode⟩ := mem_names.1 ht
  have hkey : g.key? t = some t := by
    rw [key?, hname, if_pos (SortedMap.mem_keys.1 ht)]
  have hlookup : g.node? t = some node := by rw [node?, hname, hnode]
  have hpredecessors : node.predecessors = g.predecessorsOf t := by
    rw [predecessorsOf, hnode]
    rfl
  have hdirect (m : String) : m ∈ node.predecessors ↔ g.Refers m t := by
    rw [hpredecessors, hg.mem_predecessorsOf_iff]
  have htransitive (m : String) :
      m ∈ sortedDistinct (g.dependentsOf t true) ↔ m ≠ t ∧ TransGen g.Refers m t := by
    rw [mem_sortedDistinct, dependentsOf, hg.mem_walk_iff hname, ← onWalk_swap]
    exact and_congr_left fun _ => ne_comm
  have hdepth := hg.isGreatest_depthFrom ht
  simp only [Impact.compute?, hlookup, hkey, Option.bind_eq_bind, Option.bind_some, Option.pure_def,
    Option.some.injEq, exists_eq_left']
  exact {
    target_eq := rfl
    mem_direct_iff := hdirect
    mem_transitive_iff := htransitive
    direct_subset := by
      intro m hm
      have hrefers := (hdirect m).1 hm
      exact (htransitive m).2 ⟨hg.ne_of_refers hrefers, .single hrefers⟩
    mem_packages_iff := by simp [mem_sortedDistinct]
    sorted := ⟨pairwise_sortedDistinct _, pairwise_sortedDistinct _, pairwise_sortedDistinct _⟩
    mem_byKind_iff := by
      intro kind k
      rw [EdgeKind.mem_filter_map_all_iff, hg.length_incoming_eq_card hnode]
    byKind_sublist := EdgeKind.filter_map_all_sublist fun kind =>
      (node.incoming.elements.filter (·.kind = kind)).length
    distance_le := fun m => exists_distance_le_of_mem htransitive hdepth
    exists_distance_eq := exists_mem_distance_eq htransitive hdepth
    maxDepth_eq_zero_iff := depth_eq_zero_iff htransitive hdepth
    maxDepth_le := depth_le_length htransitive hdepth }

end Consistent

end Graph

/-- In a finished graph, or the graph of its packages, there is a report on every unit. Its lists
have the sources of the edges to the unit and of the paths to it, with their packages; it counts the
sources of each kind of edge, and its depth is the largest distance of a unit that reaches this one,
hence at most the number of such units. -/
theorem Impact.compute?_exact (config : GraphConfig) (units : List UnitReferences) (n : Nat)
    (t : String) :
    let g := Graph.packages^[n] ((GraphBuilder.start config).ingestAll units).finish
    t ∈ g.names → Name.normalize t = t →
      ∃ impact, Impact.compute? g t = some impact ∧ impact.Describes g t := by
  intro g ht hname
  have hg : g.Consistent := GraphBuilder.consistent_finished config units n
  exact hg.exists_describes ht hname

/-- A cycle leads through the target, and `d` has edges of two kinds to the unit of the cycle that
is furthest away. -/
theorem Impact.compute?_exact_on_cycle :
    let units := [(UnitReferences.empty "a").add "b" .superclass,
      (UnitReferences.empty "b").add "c" .fieldType,
      (UnitReferences.empty "c").add "a" .instructionRef,
      ((UnitReferences.empty "d").add "b" .interface).add "b" .methodParam]
    let g := Graph.packages^[0] ((GraphBuilder.start (.ofPreset .full)).ingestAll units).finish
    ∃ impact, Impact.compute? g "a" = some impact ∧ impact.Describes g "a" ∧
      impact.transitive = ["b", "c", "d"] ∧ impact.maxDepth = 3 ∧
      impact.byKind = [(.instructionRef, 1)] := by
  intro units g
  obtain ⟨impact, himpact, hdescribes⟩ :=
    Impact.compute?_exact (.ofPreset .full) units 0 "a" (by decide +kernel) (by decide)
  have hvalues : (Impact.compute? g "a").map (fun i => (i.transitive, i.maxDepth, i.byKind)) =
      some (["b", "c", "d"], 3, [(.instructionRef, 1)]) := by decide +kernel
  rw [himpact, Option.map_some, Option.some.injEq, Prod.mk.injEq, Prod.mk.injEq] at hvalues
  exact ⟨impact, himpact, hdescribes, hvalues⟩

end ClassAtlas
