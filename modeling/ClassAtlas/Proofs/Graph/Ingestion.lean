import Mathlib.Data.Finset.Card
import ClassAtlas.Graph.Builder

/-!
# The graph of ingested units

A builder adds numbers up and filters at the end. Here its result is described without either: which
edges there are and how often each occurs, which nodes there are, and which of them are resolved.

The invariant `GraphBuilder.Holds` says what a builder knows after some units. Taking one more unit
preserves it (`GraphBuilder.Holds.ingest`), so it holds after any run of units, in any order and
with any repetitions.

## Main definitions

* `GraphBuilder.Holds` is the invariant of a builder.
* `Graph.Depicts` is the graph that some units have under a configuration.
-/

namespace ClassAtlas

namespace Graph

/-! ## Nodes and edges of a graph -/

theorem mem_names {g : Graph} {name : String} :
    name ∈ g.names ↔ ∃ node, g.nodeAt? name = some node := by
  rw [names, SortedMap.mem_keys, SortedMap.contains, Option.isSome_iff_exists, nodeAt?]

/-- The edges are the entries of the `outgoing` maps. -/
theorem mem_edges {g : Graph} {e : Edge} :
    e ∈ g.edges ↔ ∃ node, g.nodeAt? e.source = some node ∧
      node.outgoing.get? ⟨e.target, e.kind⟩ = some e.count := by
  obtain ⟨source, target, kind, count⟩ := e
  simp only [edges, nodeEdges, List.mem_flatMap, List.mem_map, Prod.exists, Edge.mk.injEq,
    SortedMap.mem_toList, nodeAt?]
  constructor
  · rintro ⟨name, node, hnode, link, n, hn, rfl, rfl, rfl, rfl⟩
    exact ⟨node, hnode, hn⟩
  · rintro ⟨node, hnode, hn⟩
    exact ⟨source, node, hnode, ⟨target, kind⟩, count, hn, rfl, rfl, rfl, rfl⟩

theorem contains_namesOf (sources : SortedMap String Source) (name : String) :
    (namesOf sources).contains name = true ↔ sources.contains name = true ∨
      ∃ a s kind, sources.get? a = some s ∧ s.outgoing.contains ⟨name, kind⟩ = true := by
  simp only [namesOf, SortedSet.contains_ofElements, List.mem_append, SortedMap.mem_keys,
    SortedMap.values, List.mem_flatMap, List.mem_map, Prod.exists]
  refine or_congr_right ⟨?_, ?_⟩
  · rintro ⟨s, ⟨a, s', hs, rfl⟩, link, hlink, rfl⟩
    exact ⟨a, s', link.kind, SortedMap.mem_toList.1 hs, hlink⟩
  · rintro ⟨a, s, kind, hs, hlink⟩
    exact ⟨s, ⟨a, s, SortedMap.mem_toList.2 hs, rfl⟩, ⟨name, kind⟩, hlink, rfl⟩

theorem contains_incomingOf (sources : SortedMap String Source) (name : String) (link : Link) :
    (incomingOf sources name).contains link = true ↔
      ∃ s, sources.get? link.unit = some s ∧ s.outgoing.contains ⟨name, link.kind⟩ = true := by
  obtain ⟨source, kind⟩ := link
  simp only [incomingOf, SortedSet.contains_ofElements, List.mem_flatMap, List.mem_map,
    List.mem_filter, SortedMap.mem_keys, SortedMap.mem_toList, Prod.exists, Link.mk.injEq,
    decide_eq_true_eq]
  constructor
  · rintro ⟨a, s, hs, l, ⟨hl, rfl⟩, rfl, rfl⟩
    exact ⟨s, hs, hl⟩
  · rintro ⟨s, hs, hl⟩
    exact ⟨source, s, hs, ⟨name, kind⟩, ⟨hl, rfl⟩, rfl, rfl⟩

/-- A node is a source, or it is the target of an edge of one. -/
theorem mem_names_ofSources {sources : SortedMap String Source} {name : String} :
    name ∈ (ofSources sources).names ↔ (namesOf sources).contains name = true := by
  rw [names, SortedMap.mem_keys, SortedMap.contains, ofSources, SortedMap.get?_mapValues,
    Option.isSome_map, SortedMap.contains]

/-- A source keeps its flag and its edges. -/
theorem nodeAt?_ofSources_of_source {sources : SortedMap String Source} {name : String}
    {s : Source} (h : sources.get? name = some s) :
    (ofSources sources).nodeAt? name = some ⟨s.resolved, s.outgoing, incomingOf sources name⟩ := by
  have hc : (namesOf sources).contains name = true :=
    (contains_namesOf sources name).2 (.inl (by simp [SortedMap.contains, h]))
  obtain ⟨u, hu⟩ := Option.isSome_iff_exists.1 hc
  simp [nodeAt?, ofSources, SortedMap.get?_mapValues, hu, h]

/-- What is no source is not resolved and has no edges. -/
theorem nodeAt?_ofSources_of_not_source {sources : SortedMap String Source} {name : String}
    {node : Node} (h : sources.get? name = none)
    (hnode : (ofSources sources).nodeAt? name = some node) :
    node = ⟨false, ∅, incomingOf sources name⟩ := by
  simp only [nodeAt?, ofSources, SortedMap.get?_mapValues, Option.map_eq_some_iff, h] at hnode
  obtain ⟨_, _, rfl⟩ := hnode
  rfl

theorem mem_edges_ofSources {sources : SortedMap String Source} {e : Edge} :
    e ∈ (ofSources sources).edges ↔ ∃ s, sources.get? e.source = some s ∧
      s.outgoing.get? ⟨e.target, e.kind⟩ = some e.count := by
  rw [mem_edges]
  cases h : sources.get? e.source with
  | none =>
    refine ⟨?_, by simp⟩
    rintro ⟨node, hnode, hout⟩
    cases nodeAt?_ofSources_of_not_source h hnode
    cases hout
  | some s => simp [nodeAt?_ofSources_of_source h]

/-- What leads to a node is the converse of what leads from the others. -/
theorem contains_incoming_ofSources {sources : SortedMap String Source} {name : String}
    {node : Node} (hnode : (ofSources sources).nodeAt? name = some node) (link : Link) :
    node.incoming.contains link = true ↔
      ∃ e ∈ (ofSources sources).edges, e.source = link.unit ∧ e.target = name ∧
        e.kind = link.kind := by
  have hin : node.incoming = incomingOf sources name := by
    cases h : sources.get? name with
    | none => rw [nodeAt?_ofSources_of_not_source h hnode]
    | some s =>
      rw [nodeAt?_ofSources_of_source h, Option.some.injEq] at hnode
      rw [← hnode]
  rw [hin, contains_incomingOf]
  simp only [mem_edges_ofSources, SortedMap.contains, Option.isSome_iff_exists]
  constructor
  · rintro ⟨s, hs, n, hn⟩
    exact ⟨⟨link.unit, name, link.kind, n⟩, ⟨s, hs, hn⟩, rfl, rfl, rfl⟩
  · rintro ⟨e, ⟨s, hs, hn⟩, hu, rfl, hk⟩
    exact ⟨s, hu ▸ hs, e.count, hk ▸ hn⟩

end Graph

/-! ## What a builder knows -/

namespace GraphBuilder

/-- Some unit named `name` has the link. -/
def Mentioned (units : List UnitReferences) (name : String) (link : Link) : Prop :=
  ∃ u ∈ units, u.unit = name ∧ u.counts.contains link = true

/-- How often the units named `name` mention a link together. -/
def mentionTotal (units : List UnitReferences) (name : String) (link : Link) : Nat :=
  sumOf (fun u => (u.count link.unit link.kind).val) (units.filter (·.unit = name))

/-- The links known of a name. -/
def known (b : GraphBuilder) (name : String) : SortedMap Link Count :=
  (b.outgoing.get? name).getD ∅

/-- The invariant: a builder knows exactly the references of the units it has taken. -/
structure Holds (b : GraphBuilder) (units : List UnitReferences) : Prop where
  supplied : ∀ name, b.outgoing.contains name = true ↔ ∃ u ∈ units, u.unit = name
  counted : ∀ name link n, (b.known name).get? link = some n ↔
    Mentioned units name link ∧ link.unit ≠ name ∧ n = Count.ofNat (mentionTotal units name link)
  duplicated : b.duplicates + (units.map (·.unit)).toFinset.card = units.length

theorem holds_start (config : GraphConfig) : (start config).Holds [] where
  supplied name := by simp [start, SortedMap.contains]
  counted name link n := by simp [start, known, Mentioned]
  duplicated := rfl

/-- A reference of a unit to itself is not added; any other is. -/
theorem get?_merge (known : SortedMap Link Count) (refs : UnitReferences) (link : Link) :
    (merge known refs).get? link =
      if link.unit = refs.unit then known.get? link
      else (refs.counts.get? link).elim (known.get? link)
        fun n => some ((known.get? link).getD 0 + n) := by
  rw [merge, SortedMap.get?_foldl_alter (fun e : Link × Count => e.1)
    (fun e old => old.getD 0 + e.2), List.filter_comm, SortedMap.filter_toList]
  by_cases h : link.unit = refs.unit
  · cases refs.counts.get? link <;> simp [h]
  · cases refs.counts.get? link <;> simp [h]

theorem mentionTotal_eq_zero {units : List UnitReferences} {name : String} {link : Link}
    (h : ¬Mentioned units name link) : mentionTotal units name link = 0 := by
  induction units with
  | nil => rfl
  | cons u units ih =>
    have hrest : ¬Mentioned units name link := fun ⟨v, hv, hl⟩ => h ⟨v, by simp [hv], hl⟩
    have htail := ih hrest
    rw [mentionTotal] at htail ⊢
    by_cases hu : u.unit = name
    · have hnone : u.counts.get? link = none := by
        by_contra hc
        exact h ⟨u, by simp, hu, Option.isSome_iff_ne_none.2 hc⟩
      have hzero : (u.count link.unit link.kind).val = 0 := by
        rw [UnitReferences.count, hnone]
        rfl
      simpa [hu, hzero] using htail
    · simpa [hu] using htail

/-- The count known of a link, 0 if there is none, is the total capped once. -/
theorem Holds.getD_known {b : GraphBuilder} {units : List UnitReferences} (h : b.Holds units)
    {name : String} {link : Link} (hne : link.unit ≠ name) :
    ((b.known name).get? link).getD 0 = Count.ofNat (mentionTotal units name link) := by
  cases hk : (b.known name).get? link with
  | some n => exact ((h.counted name link n).1 hk).2.2
  | none =>
    have hm : ¬Mentioned units name link := fun hm => by
      have := (h.counted name link _).2 ⟨hm, hne, rfl⟩
      simp [hk] at this
    rw [mentionTotal_eq_zero hm]
    rfl

/-- Taking a unit preserves the invariant. -/
theorem Holds.ingest {b : GraphBuilder} {units : List UnitReferences} (h : b.Holds units)
    (u : UnitReferences) : (b.ingest u).Holds (units ++ [u]) where
  supplied name := by
    by_cases hn : name = u.unit
    · simp [GraphBuilder.ingest, SortedMap.contains, SortedMap.get?_alter, hn]
    · have := h.supplied name
      simpa [GraphBuilder.ingest, SortedMap.contains, SortedMap.get?_alter, hn, Ne.symm hn,
        or_and_right, exists_or] using this
  counted name link n := by
    by_cases hn : name = u.unit
    · subst hn
      have hk : (b.ingest u).known u.unit = merge (b.known u.unit) u := by
        simp [GraphBuilder.ingest, known, SortedMap.get?_alter]
      rw [hk, get?_merge]
      by_cases hl : link.unit = u.unit
      · simp [hl, h.counted]
      · have hsum := h.getD_known hl
        have htotal : mentionTotal (units ++ [u]) u.unit link =
            mentionTotal units u.unit link + (u.count link.unit link.kind).val := by
          simp [mentionTotal, sumOf_append]
        cases hc : u.counts.get? link with
        | none =>
          have hzero : (u.count link.unit link.kind).val = 0 := by
            rw [UnitReferences.count, hc]
            rfl
          simp [hl, h.counted, htotal, hzero, Mentioned, SortedMap.contains, hc, or_and_right,
            exists_or]
        | some m =>
          have hm : u.count link.unit link.kind = m := by
            rw [UnitReferences.count, hc]
            rfl
          have hadd : Count.ofNat (mentionTotal units u.unit link) + m =
              Count.ofNat (mentionTotal (units ++ [u]) u.unit link) := by
            rw [htotal, hm, ← Count.ofNat_add, Count.ofNat_val]
          have hmen : Mentioned (units ++ [u]) u.unit link :=
            ⟨u, by simp, rfl, by simp [SortedMap.contains, hc]⟩
          simp [hl, hsum, hadd, hmen, eq_comm]
    · have hk : (b.ingest u).known name = b.known name := by
        simp [GraphBuilder.ingest, known, SortedMap.get?_alter, hn]
      rw [hk, h.counted]
      simp [Mentioned, mentionTotal, Ne.symm hn, or_and_right, exists_or]
  duplicated := by
    have hd := h.duplicated
    have hs := h.supplied u.unit
    have hset : ((units ++ [u]).map (·.unit)).toFinset =
        insert u.unit (units.map (·.unit)).toFinset := by
      ext name
      simp
    rw [hset, List.length_append, List.length_singleton]
    by_cases hin : ∃ v ∈ units, v.unit = u.unit
    · have hmem : u.unit ∈ (units.map (·.unit)).toFinset := by simpa using hin
      have hdup : (b.ingest u).duplicates = b.duplicates + 1 := if_pos (hs.2 hin)
      rw [Finset.card_insert_of_mem hmem, hdup]
      omega
    · have hmem : u.unit ∉ (units.map (·.unit)).toFinset := by simpa using hin
      have hdup : (b.ingest u).duplicates = b.duplicates := if_neg (mt hs.1 hin)
      rw [Finset.card_insert_of_notMem hmem, hdup]
      omega

/-- A run of units preserves the invariant. -/
theorem Holds.ingestAll {b : GraphBuilder} {done : List UnitReferences} (h : b.Holds done)
    (units : List UnitReferences) : (b.ingestAll units).Holds (done ++ units) := by
  induction units generalizing b done with
  | nil => simpa [GraphBuilder.ingestAll] using h
  | cons u units ih => simpa [GraphBuilder.ingestAll] using ih (h.ingest u)

@[simp]
theorem config_ingestAll (b : GraphBuilder) (units : List UnitReferences) :
    (b.ingestAll units).config = b.config := by
  induction units generalizing b with
  | nil => rfl
  | cons u units ih => exact ih (b.ingest u)

/-! ## What a builder keeps -/

variable {b : GraphBuilder} {units : List UnitReferences}

theorem Holds.contains_kept (h : b.Holds units) (name : String) :
    b.kept.contains name = true ↔
      (∃ u ∈ units, u.unit = name) ∧ b.config.excludes name = false := by
  rw [← h.supplied, kept, SortedMap.contains, SortedMap.get?_filter, SortedMap.contains]
  cases b.outgoing.get? name <;> simp

theorem get?_sources {name : String} {s : Source} :
    b.sources.get? name = some s ↔ b.outgoing.contains name = true ∧
      b.config.excludes name = false ∧
      s = ⟨true, (b.known name).filter fun link _ => b.keepsEdge link⟩ := by
  rw [sources, SortedMap.get?_mapValues, kept, SortedMap.get?_filter, SortedMap.contains, known]
  cases b.outgoing.get? name with
  | none => simp
  | some links =>
    cases hx : b.config.excludes name with
    | true => simp [Option.filter]
    | false =>
      simp only [Option.filter, Bool.not_false, if_true, Option.map_some, Option.some.injEq,
        Option.isSome_some, Option.getD_some, true_and]
      exact eq_comm

end GraphBuilder

/-! ## The finished graph -/

/-- The graph that some units have under a configuration. -/
structure Graph.Depicts (g : Graph) (config : GraphConfig) (units : List UnitReferences) :
    Prop where
  /-- An edge stands for the references of one kind between two units that are not left out; its
  target was supplied, or unresolved targets are wanted. -/
  mem_edges_iff : ∀ e : Edge, e ∈ g.edges ↔
    (∃ u ∈ units, u.unit = e.source ∧ u.counts.contains ⟨e.target, e.kind⟩ = true) ∧
    e.source ≠ e.target ∧ config.includes e.kind = true ∧
    config.excludes e.source = false ∧ config.excludes e.target = false ∧
    (config.unresolved = .leaf ∨ ∃ u ∈ units, u.unit = e.target) ∧
    e.count.val = min (sumOf (fun u => (u.count e.target e.kind).val)
      (units.filter (·.unit = e.source))) Count.cap
  /-- The nodes are the supplied units that are not left out, and the targets of edges. -/
  mem_names_iff : ∀ name, name ∈ g.names ↔
    ((∃ u ∈ units, u.unit = name) ∧ config.excludes name = false) ∨
      ∃ e ∈ g.edges, e.target = name
  /-- The resolved nodes are the supplied units. -/
  resolved_iff : ∀ name node, g.nodeAt? name = some node →
    (node.resolved = true ↔ ∃ u ∈ units, u.unit = name)
  /-- A node lists the edges that lead to it. -/
  incoming_iff : ∀ name node link, g.nodeAt? name = some node →
    (node.incoming.contains link = true ↔
      ∃ e ∈ g.edges, e.source = link.unit ∧ e.target = name ∧ e.kind = link.kind)

namespace Graph.Depicts

variable {g g' : Graph} {config : GraphConfig} {units units' : List UnitReferences}

/-- The order of the units does not matter. -/
theorem of_perm (h : g.Depicts config units) (hp : units.Perm units') :
    g.Depicts config units' where
  mem_edges_iff e := by
    simp only [h.mem_edges_iff, hp.mem_iff, sumOf_perm _ (hp.filter _)]
  mem_names_iff name := by simp only [h.mem_names_iff, hp.mem_iff]
  resolved_iff name node hnode := by simp only [h.resolved_iff name node hnode, hp.mem_iff]
  incoming_iff := h.incoming_iff

/-- Units have one graph only. -/
theorem unique (h : g.Depicts config units) (h' : g'.Depicts config units) : g = g' := by
  have hedges : ∀ e, e ∈ g.edges ↔ e ∈ g'.edges := fun e => by
    rw [h.mem_edges_iff, h'.mem_edges_iff]
  have hnames : ∀ name, name ∈ g.names ↔ name ∈ g'.names := fun name => by
    simp only [h.mem_names_iff, h'.mem_names_iff, hedges]
  have hnode : ∀ name node node', g.nodeAt? name = some node → g'.nodeAt? name = some node' →
      node = node' := by
    intro name node node' hn hn'
    have hres : node.resolved = node'.resolved := by
      rw [Bool.eq_iff_iff, h.resolved_iff name node hn, h'.resolved_iff name node' hn']
    have hout : node.outgoing = node'.outgoing := by
      refine SortedMap.ext_get? fun link => Option.ext fun n => ?_
      simpa [mem_edges, hn, hn'] using hedges ⟨name, link.unit, link.kind, n⟩
    have hin : node.incoming = node'.incoming := by
      refine SortedSet.ext fun link => ?_
      simp only [h.incoming_iff name node link hn, h'.incoming_iff name node' link hn', hedges]
    cases node
    cases node'
    simp_all
  have hnodes : g.nodes = g'.nodes := by
    refine SortedMap.ext_get? fun name => Option.ext fun node => ?_
    have hboth := hnames name
    rw [mem_names, mem_names] at hboth
    constructor
    · intro hn
      obtain ⟨node', hn'⟩ := hboth.1 ⟨node, hn⟩
      rwa [hnode name node node' hn hn']
    · intro hn'
      obtain ⟨node', hn⟩ := hboth.2 ⟨node, hn'⟩
      rwa [← hnode name node' node hn hn']
  cases g
  cases g'
  simp_all

end Graph.Depicts

namespace GraphBuilder

variable {b : GraphBuilder} {units : List UnitReferences}

theorem Holds.keepsEdge_iff (h : b.Holds units) (link : Link) :
    b.keepsEdge link = true ↔ b.config.includes link.kind = true ∧
      b.config.excludes link.unit = false ∧
      (b.config.unresolved = .leaf ∨ ∃ u ∈ units, u.unit = link.unit) := by
  simp only [keepsEdge, Bool.and_eq_true, Bool.not_eq_true', Bool.or_eq_true, decide_eq_true_eq,
    h.contains_kept]
  tauto

theorem Holds.mem_edges_finish (h : b.Holds units) (e : Edge) :
    e ∈ b.finish.edges ↔ b.config.excludes e.source = false ∧
      b.keepsEdge ⟨e.target, e.kind⟩ = true ∧
      (b.known e.source).get? ⟨e.target, e.kind⟩ = some e.count := by
  rw [finish, Graph.mem_edges_ofSources]
  simp only [get?_sources]
  constructor
  · rintro ⟨s, ⟨_, hx, rfl⟩, hs⟩
    rw [SortedMap.get?_filter, Option.filter_eq_some_iff] at hs
    exact ⟨hx, hs.2, hs.1⟩
  · rintro ⟨hx, hkeep, hk⟩
    have hsup : b.outgoing.contains e.source = true := by
      obtain ⟨⟨u, hu, hname, _⟩, _⟩ := (h.counted _ _ _).1 hk
      exact (h.supplied _).2 ⟨u, hu, hname⟩
    exact ⟨_, ⟨hsup, hx, rfl⟩, by simp [SortedMap.get?_filter, hk, hkeep]⟩

theorem Holds.mem_names_finish (h : b.Holds units) (name : String) :
    name ∈ b.finish.names ↔
      ((∃ u ∈ units, u.unit = name) ∧ b.config.excludes name = false) ∨
        ∃ e ∈ b.finish.edges, e.target = name := by
  rw [finish, Graph.mem_names_ofSources, Graph.contains_namesOf]
  refine or_congr ?_ ?_
  · rw [← h.contains_kept, sources, SortedMap.contains, SortedMap.get?_mapValues,
      Option.isSome_map, SortedMap.contains]
  · simp only [Graph.mem_edges_ofSources, SortedMap.contains, Option.isSome_iff_exists]
    constructor
    · rintro ⟨a, s, kind, hs, n, hn⟩
      exact ⟨⟨a, name, kind, n⟩, ⟨s, hs, hn⟩, rfl⟩
    · rintro ⟨e, ⟨s, hs, hn⟩, rfl⟩
      exact ⟨e.source, s, e.kind, hs, e.count, hn⟩

theorem Holds.resolved_finish (h : b.Holds units) {name : String} {node : Node}
    (hnode : b.finish.nodeAt? name = some node) :
    node.resolved = true ↔ ∃ u ∈ units, u.unit = name := by
  cases hs : b.sources.get? name with
  | some s =>
    obtain ⟨hsup, _, rfl⟩ := get?_sources.1 hs
    rw [finish, Graph.nodeAt?_ofSources_of_source hs, Option.some.injEq] at hnode
    subst hnode
    simp [← h.supplied, hsup]
  | none =>
    cases Graph.nodeAt?_ofSources_of_not_source hs hnode
    refine ⟨by simp, fun hu => ?_⟩
    -- A supplied unit that is no source is left out, and then it is no target either.
    have hx : b.config.excludes name = false := by
      rcases (h.mem_names_finish name).1 (Graph.mem_names.2 ⟨_, hnode⟩) with ⟨_, hx⟩ | ⟨e, he, rfl⟩
      · exact hx
      · exact ((h.keepsEdge_iff _).1 ((h.mem_edges_finish e).1 he).2.1).2.1
    have := get?_sources.2 ⟨(h.supplied name).2 hu, hx, rfl⟩
    simp [hs] at this

theorem Holds.depicts_finish (h : b.Holds units) : b.finish.Depicts b.config units where
  mem_edges_iff e := by
    rw [h.mem_edges_finish, h.keepsEdge_iff, h.counted, Count.ext_iff, Count.val_ofNat]
    simp only [Mentioned, mentionTotal, ne_comm]
    tauto
  mem_names_iff := h.mem_names_finish
  resolved_iff _ _ := h.resolved_finish
  incoming_iff _ _ link hnode := Graph.contains_incoming_ofSources hnode link

theorem holds_ingestAll (config : GraphConfig) (units : List UnitReferences) :
    ((start config).ingestAll units).Holds units := by
  simpa using (holds_start config).ingestAll units

theorem depicts_ingestAll (config : GraphConfig) (units : List UnitReferences) :
    ((start config).ingestAll units).finish.Depicts config units := by
  have h := (holds_ingestAll config units).depicts_finish
  rwa [config_ingestAll] at h

/-- The graph of any run of units is the one that they have, and the number of duplicates is what
the units exceed their names by. -/
theorem finish_ingestAll (config : GraphConfig) (units : List UnitReferences) :
    ((start config).ingestAll units).finish.Depicts config units ∧
      ((start config).ingestAll units).duplicates =
        units.length - (units.map (·.unit)).toFinset.card := by
  refine ⟨depicts_ingestAll config units, ?_⟩
  have := (holds_ingestAll config units).duplicated
  omega

-- A unit that is supplied twice has its references counted twice, and those that start as excluded
-- names do are left out.
example :
    let config := (GraphConfig.ofPreset .full).exclude "java/"
    let extending := (UnitReferences.empty "A").add "B" .superclass
    let units := [extending.add "java/lang/String" .fieldType, extending]
    let b := (start config).ingestAll units
    b.finish.names = ["A", "B"] ∧ b.finish.edges = [⟨"A", "B", .superclass, .ofNat 2⟩] ∧
      b.duplicates = 1 := by
  decide +kernel

end GraphBuilder

end ClassAtlas
