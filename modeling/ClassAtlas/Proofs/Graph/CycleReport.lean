import Mathlib.Data.List.Lex
import Mathlib.Data.List.Pairwise
import ClassAtlas.Proofs.Graph.Components
import ClassAtlas.Proofs.Graph.DependenciesFirst

/-!
# Cycle reports from strongly connected components

The collapsed graph has a position for each unit and one weighted edge for all kinds of references
from one unit to another. Its strongly connected components, in whichever order some algorithm
answers with them, make up the report of cycles: those with one member are dropped, the members of
each are sorted by name, and the components by their members.

## Main definitions

* `AreComponents` says which answers an algorithm for strongly connected components may give.
* `Graph.cyclesBy` is the report that is put together from such an answer.

## Main results

* `Graph.Consistent.reflTransGen_joinedBy_iff`: collapsing the edges keeps what can be reached.
* `Graph.Consistent.cyclesBy_eq_cycles`: the report does not depend on the algorithm.
* `Graph.cycles_exact`: the report of a finished graph lists the components with at least two
  members.
-/

namespace ClassAtlas

open Relation

/-- One of the edges leads from the first position to the second. -/
def JoinedBy (edges : List (Nat × Nat × Count)) (i j : Nat) : Prop :=
  ∃ weight, (i, j, weight) ∈ edges

/-- These are the strongly connected components of a graph with so many positions: every position is
in one of them, once, and two are together if each can be reached from the other. -/
structure AreComponents (size : Nat) (edges : List (Nat × Nat × Count))
    (components : List (List Nat)) : Prop where
  perm : components.flatten.Perm (List.range size)
  together_iff : ∀ i < size, ∀ j < size, (∃ c ∈ components, i ∈ c ∧ j ∈ c) ↔
    ReflTransGen (JoinedBy edges) i j ∧ ReflTransGen (JoinedBy edges) j i

namespace AreComponents

variable {size : Nat} {edges : List (Nat × Nat × Count)} {components : List (List Nat)}
  (h : AreComponents size edges components)
include h

theorem lt_of_mem {c : List Nat} (hc : c ∈ components) {i : Nat} (hi : i ∈ c) : i < size :=
  List.mem_range.1 (h.perm.mem_iff.1 (List.mem_flatten_of_mem hc hi))

theorem exists_mem {i : Nat} (hi : i < size) : ∃ c ∈ components, i ∈ c :=
  List.mem_flatten.1 (h.perm.mem_iff.2 (List.mem_range.2 hi))

theorem nodup_of_mem {c : List Nat} (hc : c ∈ components) : c.Nodup :=
  (List.nodup_flatten.1 (h.perm.nodup_iff.2 List.nodup_range)).1 c hc

theorem pairwise_disjoint : components.Pairwise List.Disjoint :=
  (List.nodup_flatten.1 (h.perm.nodup_iff.2 List.nodup_range)).2

theorem eq_of_mem {c d : List Nat} (hc : c ∈ components) (hd : d ∈ components) {i : Nat}
    (hic : i ∈ c) (hid : i ∈ d) : c = d := by
  have : Std.Symm (List.Disjoint : List Nat → List Nat → Prop) := ⟨fun _ _ h => h.symm⟩
  by_contra hne
  exact h.pairwise_disjoint.forall hc hd hne hic hid

end AreComponents

namespace Graph

/-- The name at a position of the collapsed graph. -/
def nameOf (g : Graph) (i : Nat) : String := g.names.getD i ""

/-- The names of a component, in order. -/
def membersOf (g : Graph) (component : List Nat) : List String :=
  (component.map g.nameOf).mergeSort

/-- The report of cycles, put together from what an algorithm answers when it is given the number of
nodes and the edges of the collapsed graph. -/
def cyclesBy (algorithm : Nat → List (Nat × Nat × Count) → List (List Nat)) (g : Graph) :
    List (List String) :=
  (((algorithm g.nodeCount g.weights).filter (1 < ·.length)).map g.membersOf).mergeSort

variable {g : Graph} {a : String} {i j : Nat}

/-! ## Positions -/

theorem length_names (g : Graph) : g.names.length = g.nodeCount := List.length_map _

theorem nameOf_eq_getElem (hi : i < g.names.length) : g.nameOf i = g.names[i] :=
  (List.getElem_eq_getD _).symm

theorem nameOf_mem (hi : i < g.nodeCount) : g.nameOf i ∈ g.names := by
  rw [← length_names] at hi
  exact nameOf_eq_getElem hi ▸ List.getElem_mem hi

theorem idxOf_lt (ha : a ∈ g.names) : g.names.idxOf a < g.nodeCount :=
  length_names g ▸ List.idxOf_lt_length_iff.2 ha

theorem nameOf_idxOf (ha : a ∈ g.names) : g.nameOf (g.names.idxOf a) = a := by
  rw [nameOf_eq_getElem (List.idxOf_lt_length_iff.2 ha), List.getElem_idxOf]

theorem idxOf_nameOf (hi : i < g.nodeCount) : g.names.idxOf (g.nameOf i) = i := by
  rw [← length_names] at hi
  rw [nameOf_eq_getElem hi]
  exact (nodup_names g).idxOf_getElem i hi

/-! ## The collapsed graph -/

theorem joinedBy_weights_iff : JoinedBy g.weights i j ↔
    ∃ a b, g.Refers a b ∧ g.names.idxOf a = i ∧ g.names.idxOf b = j := by
  have hsuccessors {a : String} {node : Node} (hnode : g.nodeAt? a = some node) :
      g.successorsOf a = node.successors := by
    rw [successorsOf, hnode]
    rfl
  simp only [JoinedBy, weights, List.mem_flatMap, List.mem_map, Prod.exists, SortedMap.mem_toList,
    Prod.mk.injEq, ← mem_successorsOf_iff]
  constructor
  · rintro ⟨-, a, node, hnode, b, hb, rfl, rfl, -⟩
    exact ⟨a, b, hsuccessors hnode ▸ hb, rfl, rfl⟩
  · rintro ⟨a, b, hb, rfl, rfl⟩
    obtain ⟨node, hnode⟩ := mem_names.1 (mem_successorsOf_iff.1 hb).source_mem
    exact ⟨_, a, node, hnode, b, hsuccessors hnode ▸ hb, rfl, rfl, rfl⟩

namespace Consistent

variable (hg : g.Consistent)
include hg

/-- Paths of the collapsed graph are those of the edges of all kinds. -/
theorem reflTransGen_joinedBy_iff (hi : i < g.nodeCount) (hj : j < g.nodeCount) :
    ReflTransGen (JoinedBy g.weights) i j ↔ ReflTransGen g.Refers (g.nameOf i) (g.nameOf j) := by
  constructor
  · refine ReflTransGen.lift g.nameOf (fun i j hij => ?_) i j
    obtain ⟨a, b, hab, rfl, rfl⟩ := joinedBy_weights_iff.1 hij
    rwa [Function.onFun_apply, nameOf_idxOf hab.source_mem, nameOf_idxOf (hg.target_mem_of_refers hab)]
  · intro h
    have hlift := ReflTransGen.lift g.names.idxOf
      (fun a b hab => joinedBy_weights_iff.2 ⟨a, b, hab, rfl, rfl⟩) _ _ h
    rwa [Function.onFun_apply, idxOf_nameOf hi, idxOf_nameOf hj] at hlift

theorem mem_names_of_mutual {b : String} (hab : g.Mutual a b) (ha : a ∈ g.names) : b ∈ g.names := by
  rcases ReflTransGen.cases_tail hab.1 with rfl | ⟨_, -, hb⟩
  · exact ha
  · exact hg.target_mem_of_refers hb

/-- Whether an answer is right can be computed, since walks list what can be reached. -/
theorem areComponents_iff {components : List (List Nat)} :
    AreComponents g.nodeCount g.weights components ↔
      components.flatten.Perm (List.range g.nodeCount) ∧
      ∀ i < g.nodeCount, ∀ j < g.nodeCount,
        (∃ c ∈ components, i ∈ c ∧ j ∈ c) ↔ g.nameOf j ∈ g.componentAt (g.nameOf i) := by
  have hmutual (i : Nat) (hi : i < g.nodeCount) (j : Nat) (hj : j < g.nodeCount) :
      (ReflTransGen (JoinedBy g.weights) i j ∧ ReflTransGen (JoinedBy g.weights) j i) ↔
        g.nameOf j ∈ g.componentAt (g.nameOf i) := by
    rw [hg.reflTransGen_joinedBy_iff hi hj, hg.reflTransGen_joinedBy_iff hj hi,
      hg.mem_componentAt_iff]
    rfl
  constructor
  · rintro ⟨hperm, h⟩
    exact ⟨hperm, fun i hi j hj => (h i hi j hj).trans (hmutual i hi j hj)⟩
  · rintro ⟨hperm, h⟩
    exact ⟨hperm, fun i hi j hj => (h i hi j hj).trans (hmutual i hi j hj).symm⟩

/-! ## The report -/

/-- Components that are ordered by their smallest members are ordered by their members. -/
theorem pairwise_lt_cycles : g.cycles.Pairwise (· < ·) := by
  refine hg.pairwise_cycles.imp_of_mem fun {c d} hc hd hcd => ?_
  obtain ⟨x, -, -, -, hx⟩ := mem_cycles_iff.1 hc
  obtain ⟨y, -, -, -, hy⟩ := mem_cycles_iff.1 hd
  have hxy := hcd.1 x hx y hy
  obtain ⟨xs, rfl⟩ := List.head?_eq_some_iff.1 hx
  obtain ⟨ys, rfl⟩ := List.head?_eq_some_iff.1 hy
  exact List.cons_lt_cons_iff.2 (.inl hxy)

section

variable {components : List (List Nat)} (h : AreComponents g.nodeCount g.weights components)
  {c : List Nat}
include h

omit hg in
theorem nameOf_mem_membersOf_iff (hc : c ∈ components) (hi : i < g.nodeCount) :
    g.nameOf i ∈ g.membersOf c ↔ i ∈ c := by
  rw [membersOf, List.mem_mergeSort]
  refine ⟨fun hname => ?_, List.mem_map_of_mem⟩
  obtain ⟨j, hj, heq⟩ := List.mem_map.1 hname
  rwa [← idxOf_nameOf hi, ← heq, idxOf_nameOf (h.lt_of_mem hc hj)]

/-- The names of a component are the component of each of them. -/
theorem membersOf_eq (hc : c ∈ components) (hi : i ∈ c) :
    g.membersOf c = g.componentAt (g.nameOf i) := by
  have hlt {j : Nat} (hj : j ∈ c) : j < g.nodeCount := h.lt_of_mem hc hj
  have htogether := (hg.areComponents_iff.1 h).2 i (hlt hi)
  have hnodup : (g.membersOf c).Nodup := by
    rw [membersOf, (List.mergeSort_perm _ _).nodup_iff]
    refine (h.nodup_of_mem hc).map_on fun j hj k hk hjk => ?_
    rw [← idxOf_nameOf (hlt hj), hjk, idxOf_nameOf (hlt hk)]
  have hsorted : (g.membersOf c).Pairwise (· < ·) :=
    ((List.pairwise_mergeSort' (· ≤ ·) (c.map g.nameOf)).and hnodup).imp fun hab =>
      lt_of_le_of_ne hab.1 hab.2
  refine hsorted.eq_of_mem_iff (pairwise_componentAt g _) fun m => ?_
  constructor
  · intro hm
    obtain ⟨j, hj, rfl⟩ := List.mem_map.1 (List.mem_mergeSort.1 hm)
    exact (htogether j (hlt hj)).1 ⟨c, hc, hi, hj⟩
  · intro hm
    have hnames := hg.mem_names_of_mutual (hg.mem_componentAt_iff.1 hm) (nameOf_mem (hlt hi))
    obtain ⟨d, hd, hid, hjd⟩ :=
      (htogether (g.names.idxOf m) (idxOf_lt hnames)).2 ((nameOf_idxOf hnames).symm ▸ hm)
    rw [← nameOf_idxOf hnames, nameOf_mem_membersOf_iff h hc (idxOf_lt hnames)]
    exact h.eq_of_mem hd hc hid hi ▸ hjd

/-- The components with a second member, as names, are those that are reported. -/
theorem perm_cycles :
    ((components.filter (1 < ·.length)).map g.membersOf).Perm g.cycles := by
  have hlong {c : List Nat} (hc : c ∈ components.filter (1 < ·.length)) :
      c ∈ components ∧ 1 < c.length := by simpa using hc
  have hlength (c : List Nat) : (g.membersOf c).length = c.length := by simp [membersOf]
  refine (List.perm_ext_iff_of_nodup ?_ (hg.pairwise_lt_cycles.imp ne_of_lt)).2 fun members => ?_
  · refine List.pairwise_map.2 ((h.pairwise_disjoint.filter _).imp_of_mem ?_)
    intro c d hc hd hdisjoint heq
    obtain ⟨i, hi⟩ := List.exists_mem_of_length_pos (Nat.zero_lt_of_lt (hlong hc).2)
    have hlt := h.lt_of_mem (hlong hc).1 hi
    have hname := (nameOf_mem_membersOf_iff h (hlong hc).1 hlt).2 hi
    exact hdisjoint hi ((nameOf_mem_membersOf_iff h (hlong hd).1 hlt).1 (heq ▸ hname))
  rw [List.mem_map]
  constructor
  · rintro ⟨c, hc, rfl⟩
    obtain ⟨i, hi⟩ := List.exists_mem_of_length_pos (Nat.zero_lt_of_lt (hlong hc).2)
    have heq := hg.membersOf_eq h (hlong hc).1 hi
    refine (hg.mem_cycles_iff_of_mem (heq ▸ hg.self_mem_componentAt _)).2 ⟨heq, ?_⟩
    exact hlength c ▸ (hlong hc).2
  · intro hmembers
    obtain ⟨a, ha, rfl, htwo, -⟩ := mem_cycles_iff.1 hmembers
    obtain ⟨c, hc, hi⟩ := h.exists_mem (idxOf_lt ha)
    have heq := hg.membersOf_eq h hc hi
    rw [nameOf_idxOf ha] at heq
    exact ⟨c, by simpa [hc, ← hlength c, heq] using htwo, heq⟩

end

/-- The report does not depend on the order in which an algorithm answers with the components. -/
theorem cyclesBy_eq_cycles {algorithm : Nat → List (Nat × Nat × Count) → List (List Nat)}
    (h : AreComponents g.nodeCount g.weights (algorithm g.nodeCount g.weights)) :
    g.cyclesBy algorithm = g.cycles := by
  refine List.Perm.eq_of_pairwise' (List.pairwise_mergeSort' (· ≤ ·) _)
    (hg.pairwise_lt_cycles.imp le_of_lt) ?_
  exact (List.mergeSort_perm _ _).trans (hg.perm_cycles h)

end Consistent

/-- The report of cycles of a finished graph, or of the graph of its packages, is what the strongly
connected components of the collapsed graph make up. It lists the components with at least two
members: two units are members of one component if each reaches the other, and a unit is a member if
it lies on a cycle. The members are in increasing order, and the components have no members in
common and are ordered by their smallest ones. The component of a unit is found under its name, and
there are no cycles exactly if the order of the units has all dependencies first. -/
theorem cycles_exact (config : GraphConfig) (units : List UnitReferences) (n : Nat) :
    let g := Graph.packages^[n] ((GraphBuilder.start config).ingestAll units).finish
    (∀ algorithm, AreComponents g.nodeCount g.weights (algorithm g.nodeCount g.weights) →
      g.cyclesBy algorithm = g.cycles) ∧
    (∀ a b, a ≠ b → ((∃ c ∈ g.cycles, a ∈ c ∧ b ∈ c) ↔
      ReflTransGen g.Refers a b ∧ ReflTransGen g.Refers b a)) ∧
    (∀ c ∈ g.cycles, 2 ≤ c.length ∧ c.Pairwise (· < ·)) ∧
    (g.cycles.Pairwise fun c d => (∀ x ∈ c.head?, ∀ y ∈ d.head?, x < y) ∧ c.Disjoint d) ∧
    (∀ a, (∃ c ∈ g.cycles, a ∈ c) ↔ TransGen g.Refers a a) ∧
    (∀ a, Name.normalize a = a →
      (∀ c, g.cycleOf? a = some c ↔ c ∈ g.cycles ∧ a ∈ c) ∧
      ((g.cycleOf? a).isSome = true ↔ TransGen g.Refers a a)) ∧
    (g.hasCycles = false ↔ g.DependenciesFirst g.topologicalOrder) := by
  intro g
  have hg : g.Consistent := GraphBuilder.consistent_finished config units n
  refine ⟨fun _ => hg.cyclesBy_eq_cycles, fun a b => hg.exists_mem_cycles_and_iff,
    fun c => length_and_pairwise_of_mem_cycles, hg.pairwise_cycles,
    fun a => hg.exists_mem_cycles_iff, fun a ha => ⟨fun c => hg.cycleOf?_eq_some_iff ha, ?_⟩, ?_⟩
  · simp only [Option.isSome_iff_exists, hg.cycleOf?_eq_some_iff ha]
    exact hg.exists_mem_cycles_iff
  · rw [hg.hasCycles_eq_false_iff, hg.dependenciesFirst_topologicalOrder_iff]

/-- Two components with an edge from one to the other, and a unit that lies on no cycle. -/
theorem cycles_exact_two_pairs :
    let units := [((UnitReferences.empty "a").add "b" .fieldType).add "b" .superclass,
      ((UnitReferences.empty "b").add "a" .instructionRef).add "d" .fieldType,
      (UnitReferences.empty "c").add "d" .interface,
      ((UnitReferences.empty "d").add "c" .fieldType).add "e" .fieldType]
    let g := Graph.packages^[0] ((GraphBuilder.start (.ofPreset .full)).ingestAll units).finish
    let algorithm : Nat → List (Nat × Nat × Count) → List (List Nat) :=
      fun _ _ => [[4], [2, 3], [1, 0]]
    AreComponents g.nodeCount g.weights (algorithm g.nodeCount g.weights) ∧
      g.cyclesBy algorithm = [["a", "b"], ["c", "d"]] ∧ TransGen g.Refers "c" "c" := by
  intro units g algorithm
  obtain ⟨hby, -, -, -, hmem, -⟩ := cycles_exact (.ofPreset .full) units 0
  have hg : g.Consistent := GraphBuilder.consistent_finished (.ofPreset .full) units 0
  have hcomponents : AreComponents g.nodeCount g.weights (algorithm g.nodeCount g.weights) :=
    hg.areComponents_iff.2 ⟨by decide +kernel, by decide +kernel⟩
  have hcycles : g.cycles = [["a", "b"], ["c", "d"]] := by decide +kernel
  have hpair : ["c", "d"] ∈ g.cycles := by simp [hcycles]
  exact ⟨hcomponents, (hby algorithm hcomponents).trans hcycles, (hmem "c").1 ⟨_, hpair, by simp⟩⟩

end Graph

end ClassAtlas
