import ClassAtlas.Analysis.Batch
import ClassAtlas.Proofs.Graph.Converse
import ClassAtlas.Proofs.Text.InternalForm

/-!
# Looking listed names up

A graph keeps the names of units as they stand in class files, and every look-up brings the name that
it is given to internal form first. So the node of a listed name is found by its own name exactly if
the name is in internal form; any other look-up is one of a different name.

## Main statements

* `Graph.lookups_exact`: what the look-ups answer for a listed name.
* `Graph.edge?_eq_some_iff`: which of the listed edges are found.
-/

namespace ClassAtlas.Graph

open Name

variable {g : Graph} {name : String} {node : Node}

theorem key?_eq_self_iff (h : name ∈ g.names) : g.key? name = some name ↔ IsInternal name := by
  rw [← normalize_eq_self_iff, key?]
  constructor
  · intro hkey
    split at hkey
    · exact Option.some.inj hkey
    · cases hkey
  · intro hname
    rw [hname, if_pos (SortedMap.mem_keys.1 h)]

theorem source_eq_of_mem_nodeEdges {e : Edge} (h : e ∈ nodeEdges name node) : e.source = name := by
  obtain ⟨_, -, rfl⟩ := List.mem_map.1 h
  rfl

/-- The edges of one node are those of the whole graph that start there, in the same order. -/
theorem filter_edges (h : g.nodeAt? name = some node) :
    g.edges.filter (·.source = name) = nodeEdges name node := by
  have hpart (l : List (String × Node)) :
      (l.flatMap fun e => nodeEdges e.1 e.2).filter (·.source = name) =
        (l.filter (·.1 = name)).flatMap fun e => nodeEdges e.1 e.2 := by
    induction l with
    | nil => rfl
    | cons e l ih =>
      rw [List.flatMap_cons, List.filter_append, ih]
      by_cases heq : e.1 = name
      · rw [List.filter_cons_of_pos (by simpa using heq), List.flatMap_cons, List.filter_eq_self.2]
        exact fun c hc => by simpa using (source_eq_of_mem_nodeEdges hc).trans heq
      · rw [List.filter_cons_of_neg (by simpa using heq), List.filter_eq_nil_iff.2, List.nil_append]
        exact fun c hc => by simpa [source_eq_of_mem_nodeEdges hc] using heq
  have hentry : g.nodes.toList.filter (·.1 = name) = [(name, node)] := by
    rw [nodeAt?] at h
    rw [SortedMap.filter_toList, h]
    rfl
  rw [edges, hpart, hentry]
  exact List.append_nil _

/-- A listed edge is found by its own ends and kind if both names are in internal form. -/
theorem edge?_eq_some_iff {e : Edge} (h : e ∈ g.edges) :
    g.edge? e.source e.target e.kind = some e ↔ IsInternal e.source ∧ IsInternal e.target := by
  obtain ⟨source, target, kind, count⟩ := e
  obtain ⟨node, hnode, hcount⟩ := mem_edges.1 h
  rw [← normalize_eq_self_iff, ← normalize_eq_self_iff]
  constructor
  · intro hedge
    simp only [edge?, Option.bind_eq_bind, Option.bind_eq_some_iff, Option.pure_def,
      Option.some_inj, Edge.mk.injEq] at hedge
    obtain ⟨_, -, _, -, hsource, htarget, -⟩ := hedge
    exact ⟨hsource, htarget⟩
  · rintro ⟨hsource, htarget⟩
    simp [edge?, node?, hsource, htarget, hnode, hcount]

/-- What look-ups answer for the name of a listed node. They answer for that node if its name is in
internal form. Otherwise they answer for the node of another name, if there is one: none of the
edges that are found starts at the node. -/
theorem lookups_exact (g : Graph) {name : String} {node : Node} (h : g.nodeAt? name = some node) :
    (g.key? name = some name ↔ IsInternal name) ∧
      (IsInternal name → g.node? name = some node ∧ g.contains name = true ∧
        g.isResolved name = node.resolved ∧
        g.edgesFrom name = g.edges.filter (·.source = name) ∧
        ∀ direction transitive,
          g.walk direction transitive name = g.walkFrom direction transitive name) ∧
      (¬ IsInternal name → g.node? name = g.nodeAt? (normalize name) ∧ normalize name ≠ name ∧
        ∀ e ∈ g.edgesFrom name, e.source ≠ name) ∧
      ∀ e ∈ g.edges,
        g.edge? e.source e.target e.kind = some e ↔ IsInternal e.source ∧ IsInternal e.target := by
  refine ⟨key?_eq_self_iff (mem_names.2 ⟨node, h⟩), fun hname => ?_, fun hname => ?_,
    fun e he => edge?_eq_some_iff he⟩
  · have hnormal := normalize_eq_self_iff.2 hname
    have hnode : g.node? name = some node := by rw [node?, hnormal, h]
    refine ⟨hnode, by rw [contains, hnode]; rfl, by rw [isResolved, hnode], ?_,
      fun direction transitive => walk_eq_walkFrom hnormal transitive⟩
    rw [edgesFrom, hnode, hnormal, filter_edges h]
  · have hnormal : normalize name ≠ name := fun heq => hname (normalize_eq_self_iff.1 heq)
    refine ⟨rfl, hnormal, fun e he => ?_⟩
    rw [edgesFrom] at he
    split at he
    · rwa [source_eq_of_mem_nodeEdges he]
    · cases he

/-- The class file of a class whose name is `A` and a no-break space, and whose superclass is `B`. -/
def blankNameBytes : List UInt8 :=
  [0xCA, 0xFE, 0xBA, 0xBE, 0, 0, 0, 52, 0, 5, 1, 0, 3, 0x41, 0xC2, 0xA0, 7, 0, 1, 1, 0, 1, 0x42,
    7, 0, 3, 0, 0x21, 0, 2, 0, 4, 0, 0, 0, 0, 0, 0, 0, 0]

/-- Its graph. -/
def blankNameGraph : Graph :=
  (runBatch (.ofPreset .full) false [⟨"A", blankNameBytes⟩]).graph

theorem lookups_exact_blank_name :
    ∃ node node', blankNameGraph.nodeAt? "A\u00a0" = some node ∧
      blankNameGraph.nodeAt? "B" = some node' ∧ blankNameGraph.node? "B" = some node' ∧
      blankNameGraph.key? "A\u00a0" ≠ some "A\u00a0" ∧
      ∀ e ∈ blankNameGraph.edgesFrom "A\u00a0", e.source ≠ "A\u00a0" := by
  obtain ⟨node, hnode⟩ := Option.isSome_iff_exists.1
    (show (blankNameGraph.nodeAt? "A\u00a0").isSome = true by decide +kernel)
  obtain ⟨node', hnode'⟩ := Option.isSome_iff_exists.1
    (show (blankNameGraph.nodeAt? "B").isSome = true by decide +kernel)
  obtain ⟨hkey, -, hother, -⟩ := lookups_exact blankNameGraph hnode
  obtain ⟨-, hfound, -⟩ := lookups_exact blankNameGraph hnode'
  have hblank : ¬ IsInternal "A\u00a0" := by decide +kernel
  exact ⟨node, node', hnode, hnode', (hfound (by decide +kernel)).1, fun h => hblank (hkey.1 h),
    (hother hblank).2.2⟩

/-- A name with a blank at its end is listed but not found, and neither are the edge from it and the
unit that it refers to. -/
theorem exists_listed_not_found :
    ∃ r, analyzeBatch (.ofPreset .full) false [⟨"A", blankNameBytes⟩] = .ok r ∧
      r.failures = [] ∧ "A\u00a0" ∈ r.graph.names ∧
      ⟨"A\u00a0", "B", .superclass, .ofNat 1⟩ ∈ r.graph.edges ∧
      r.graph.node? "A\u00a0" = none ∧ r.graph.isResolved "A\u00a0" = false ∧
      r.graph.edgesFrom "A\u00a0" = [] ∧ r.graph.edge? "A\u00a0" "B" .superclass = none ∧
      r.graph.dependenciesOf "A\u00a0" false = [] := by
  refine ⟨runBatch (.ofPreset .full) false [⟨"A", blankNameBytes⟩], rfl, ?_⟩
  decide +kernel

end ClassAtlas.Graph
