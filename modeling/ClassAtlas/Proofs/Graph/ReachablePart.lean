import ClassAtlas.Proofs.Graph.Reachability

/-!
# The part of a graph that a unit reaches

The units that can be reached from a root have a graph of their own. It is the part of the whole
graph that the root reaches: it has the same nodes there, with the same flags and the same edges.

## Main definitions

* `Follows` says that a unit refers to a name in a way that the configuration follows.
* `ReachablePart` says that some units are those of a collection that a root reaches.
-/

namespace ClassAtlas

open Relation

/-- One of the units has the first name and refers to the second in a way that is followed. -/
def Follows (config : GraphConfig) (units : List UnitReferences) (a b : String) : Prop :=
  ∃ u ∈ units, u.unit = a ∧
    (∃ kind, config.includes kind = true ∧ u.counts.contains ⟨b, kind⟩ = true) ∧
    config.excludes b = false

/-- The units in `part` are those in `units` that a root reaches. -/
structure ReachablePart (config : GraphConfig) (units part : List UnitReferences) (root : String) :
    Prop where
  nodup : (units.map (·.unit)).Nodup
  part_nodup : (part.map (·.unit)).Nodup
  subset : part ⊆ units
  root_mem : ∃ u ∈ part, u.unit = root
  root_kept : config.excludes root = false
  closed : ∀ a b, Follows config part a b → (∃ u ∈ units, u.unit = b) → ∃ u ∈ part, u.unit = b
  origin : ∀ u ∈ part, ReflTransGen (Follows config part) root u.unit

/-- Of units with different names at most one has a given name. -/
theorem eq_of_unit_eq {units : List UnitReferences} (h : (units.map (·.unit)).Nodup)
    {u v : UnitReferences} (hu : u ∈ units) (hv : v ∈ units) (huv : u.unit = v.unit) : u = v :=
  List.inj_on_of_nodup_map h hu hv huv

theorem filter_unit_eq {units : List UnitReferences} (h : (units.map (·.unit)).Nodup)
    {u : UnitReferences} (hu : u ∈ units) : units.filter (·.unit = u.unit) = [u] := by
  have hnodup : (units.filter (·.unit = u.unit)).Nodup := (List.Nodup.of_map _ h).filter _
  refine List.perm_singleton.1 ((List.perm_ext_iff_of_nodup hnodup (List.nodup_singleton u)).2 ?_)
  intro v
  rw [List.mem_filter, List.mem_singleton, decide_eq_true_eq]
  constructor
  · rintro ⟨hv, hvu⟩
    exact eq_of_unit_eq h hv hu hvu
  · rintro rfl
    exact ⟨hu, rfl⟩

/-- If the units have different names, the count of an edge is the one that its source has. -/
theorem Graph.Depicts.mem_edges_of_nodup {g : Graph} {config : GraphConfig}
    {units : List UnitReferences} (h : g.Depicts config units)
    (hnodup : (units.map (·.unit)).Nodup) (e : Edge) :
    e ∈ g.edges ↔ ∃ u ∈ units, u.unit = e.source ∧
      u.counts.get? ⟨e.target, e.kind⟩ = some e.count ∧
      e.source ≠ e.target ∧ config.includes e.kind = true ∧
      config.excludes e.source = false ∧ config.excludes e.target = false ∧
      (config.unresolved = .leaf ∨ ∃ u ∈ units, u.unit = e.target) := by
  have hcount {u : UnitReferences} (hu : u ∈ units) (hname : u.unit = e.source) :
      sumOf (fun u => (u.count e.target e.kind).val) (units.filter (·.unit = e.source)) =
        (u.count e.target e.kind).val := by
    rw [← hname, filter_unit_eq hnodup hu]
    simp
  rw [h.mem_edges_iff]
  constructor
  · rintro ⟨⟨u, hu, hname, hc⟩, hne, hk, hs, ht, hp, hn⟩
    obtain ⟨n, hn'⟩ := Option.isSome_iff_exists.1 hc
    have heq : n = e.count := by
      rw [hcount hu hname, UnitReferences.count, hn', Option.getD_some,
        Nat.min_eq_left n.val_le] at hn
      exact Count.ext hn.symm
    exact ⟨u, hu, hname, heq ▸ hn', hne, hk, hs, ht, hp⟩
  · rintro ⟨u, hu, hname, hc, hne, hk, hs, ht, hp⟩
    refine ⟨⟨u, hu, hname, by simp [SortedMap.contains, hc]⟩, hne, hk, hs, ht, hp, ?_⟩
    rw [hcount hu hname, UnitReferences.count, hc, Option.getD_some,
      Nat.min_eq_left e.count.val_le]

namespace ReachablePart

variable {config : GraphConfig} {units part : List UnitReferences} {root : String}
  {g whole : Graph}

/-- What is reached is not left out. -/
theorem kept (h : ReachablePart config units part root) {name : String}
    (hname : ReflTransGen (Follows config part) root name) : config.excludes name = false := by
  rcases ReflTransGen.cases_tail hname with rfl | ⟨_, _, _, _, _, _, hx⟩
  · exact h.root_kept
  · exact hx

/-- A unit that an edge leads to is in the part. -/
theorem supplied_of_mem_names (h : ReachablePart config units part root)
    (hg : g.Depicts config part) {name : String} (hname : name ∈ g.names)
    (hunit : ∃ u ∈ units, u.unit = name) : ∃ u ∈ part, u.unit = name := by
  rcases (hg.mem_names_iff name).1 hname with ⟨hpart, _⟩ | ⟨e, he, rfl⟩
  · exact hpart
  · obtain ⟨⟨u, hu, hs, hc⟩, _, hk, _, ht, _⟩ := (hg.mem_edges_iff e).1 he
    exact h.closed _ _ ⟨u, hu, hs, ⟨e.kind, hk, hc⟩, ht⟩ hunit

/-- From a unit in the part, the two graphs have the same edges. -/
theorem mem_edges_iff (h : ReachablePart config units part root) (hg : g.Depicts config part)
    (hwhole : whole.Depicts config units) {e : Edge} (hsource : ∃ u ∈ part, u.unit = e.source) :
    e ∈ g.edges ↔ e ∈ whole.edges := by
  rw [hg.mem_edges_of_nodup h.part_nodup, hwhole.mem_edges_of_nodup h.nodup]
  constructor
  · rintro ⟨u, hu, hs, hc, hne, hk, hxs, hxt, hp⟩
    have hp' : config.unresolved = .leaf ∨ ∃ v ∈ units, v.unit = e.target :=
      hp.imp_right fun ⟨v, hv, ht⟩ => ⟨v, h.subset hv, ht⟩
    exact ⟨u, h.subset hu, hs, hc, hne, hk, hxs, hxt, hp'⟩
  · rintro ⟨u, hu, hs, hc, hne, hk, hxs, hxt, hp⟩
    obtain ⟨v, hv, hvs⟩ := hsource
    obtain rfl : v = u := eq_of_unit_eq h.nodup (h.subset hv) hu (hvs.trans hs.symm)
    have hfollows : Follows config part e.source e.target :=
      ⟨v, hv, hs, ⟨e.kind, hk, by simp [SortedMap.contains, hc]⟩, hxt⟩
    exact ⟨v, hv, hs, hc, hne, hk, hxs, hxt, hp.imp_right (h.closed _ _ hfollows)⟩

/-- What is followed can be reached in the whole graph, if it was supplied or unresolved targets are
wanted. -/
theorem reaches (h : ReachablePart config units part root) (hwhole : whole.Depicts config units)
    {name : String} (hname : ReflTransGen (Follows config part) root name)
    (hkept : config.unresolved = .leaf ∨ ∃ u ∈ units, u.unit = name) : whole.Reaches root name := by
  induction hname with
  | refl => exact .refl
  | @tail a b hra hab ih =>
    obtain ⟨u, hu, rfl, ⟨kind, hk, hc⟩, hx⟩ := hab
    have ha : whole.Reaches root u.unit := ih (.inr ⟨u, h.subset hu, rfl⟩)
    by_cases hself : u.unit = b
    · exact hself ▸ ha
    · obtain ⟨n, hn⟩ := Option.isSome_iff_exists.1 hc
      have he : (⟨u.unit, b, kind, n⟩ : Edge) ∈ whole.edges :=
        (hwhole.mem_edges_of_nodup h.nodup _).2
          ⟨u, h.subset hu, rfl, hn, hself, hk, h.kept hra, hx, hkept⟩
      exact ha.tail (Graph.mem_successorsOf.2 ⟨_, he, rfl, rfl⟩)

/-- The nodes of the part's graph are what the root reaches in the whole graph. -/
theorem mem_names_iff (h : ReachablePart config units part root) (hg : g.Depicts config part)
    (hwhole : whole.Depicts config units) (name : String) :
    name ∈ g.names ↔ whole.Reaches root name := by
  have hpart {u : UnitReferences} (hu : u ∈ part) : whole.Reaches root u.unit :=
    h.reaches hwhole (h.origin u hu) (.inr ⟨u, h.subset hu, rfl⟩)
  constructor
  · intro hname
    rcases (hg.mem_names_iff name).1 hname with ⟨⟨u, hu, rfl⟩, _⟩ | ⟨e, he, rfl⟩
    · exact hpart hu
    · obtain ⟨⟨u, hu, hs, _⟩, _⟩ := (hg.mem_edges_iff e).1 he
      have hstep : e.target ∈ whole.successorsOf u.unit := Graph.mem_successorsOf.2
        ⟨e, (h.mem_edges_iff hg hwhole ⟨u, hu, hs⟩).1 he, hs.symm, rfl⟩
      exact (hpart hu).tail hstep
  · intro hreach
    induction hreach with
    | refl => exact (hg.mem_names_iff root).2 (.inl ⟨h.root_mem, h.root_kept⟩)
    | @tail a b _ hab ih =>
      obtain ⟨e, he, rfl, rfl⟩ := Graph.mem_successorsOf.1 hab
      obtain ⟨⟨u, hu, hs, _⟩, _⟩ := (hwhole.mem_edges_iff e).1 he
      have hsource := h.supplied_of_mem_names hg ih ⟨u, hu, hs⟩
      exact (hg.mem_names_iff _).2 (.inr ⟨e, (h.mem_edges_iff hg hwhole hsource).2 he, rfl⟩)

theorem mem_whole_names (h : ReachablePart config units part root)
    (hwhole : whole.Depicts config units) {name : String} (hname : whole.Reaches root name) :
    name ∈ whole.names := by
  rcases ReflTransGen.cases_tail hname with rfl | ⟨a, _, hab⟩
  · obtain ⟨u, hu, hr⟩ := h.root_mem
    exact (hwhole.mem_names_iff name).2 (.inl ⟨⟨u, h.subset hu, hr⟩, h.root_kept⟩)
  · obtain ⟨e, he, _, ht⟩ := Graph.mem_successorsOf.1 hab
    exact (hwhole.mem_names_iff name).2 (.inr ⟨e, he, ht⟩)

/-- A node of the part's graph has the flag and the edges that it has in the whole graph. -/
theorem nodeAt?_agree (h : ReachablePart config units part root) (hg : g.Depicts config part)
    (hwhole : whole.Depicts config units) {name : String} (hname : name ∈ g.names) :
    ∃ node node', g.nodeAt? name = some node ∧ whole.nodeAt? name = some node' ∧
      node.resolved = node'.resolved ∧ node.outgoing = node'.outgoing := by
  obtain ⟨node, hnode⟩ := Graph.mem_names.1 hname
  obtain ⟨node', hnode'⟩ := Graph.mem_names.1
    (h.mem_whole_names hwhole ((h.mem_names_iff hg hwhole name).1 hname))
  have hsupplied : (∃ u ∈ part, u.unit = name) ↔ ∃ u ∈ units, u.unit = name :=
    ⟨fun ⟨u, hu, hun⟩ => ⟨u, h.subset hu, hun⟩, h.supplied_of_mem_names hg hname⟩
  refine ⟨node, node', hnode, hnode', ?_, ?_⟩
  · rw [Bool.eq_iff_iff, hg.resolved_iff name node hnode, hwhole.resolved_iff name node' hnode',
      hsupplied]
  · refine SortedMap.ext_get? fun link => Option.ext fun n => ?_
    let e : Edge := ⟨name, link.unit, link.kind, n⟩
    have hedge : e ∈ g.edges ↔ e ∈ whole.edges := by
      by_cases hpart : ∃ u ∈ part, u.unit = name
      · exact h.mem_edges_iff hg hwhole hpart
      · -- A node that is no unit has no edges in either graph.
        rw [hg.mem_edges_iff, hwhole.mem_edges_iff]
        refine ⟨fun ⟨⟨u, hu, hun, _⟩, _⟩ => absurd ⟨u, hu, hun⟩ hpart, ?_⟩
        exact fun ⟨⟨u, hu, hun, _⟩, _⟩ => absurd ⟨u, hu, hun⟩ (mt hsupplied.2 hpart)
    simpa [e, Graph.mem_edges, hnode, hnode'] using hedge

/-- The resolved nodes of the part's graph are its units. -/
theorem resolvedCount_eq (h : ReachablePart config units part root) (hg : g.Depicts config part) :
    g.resolvedCount = part.length := by
  let resolved := (g.nodes.toList.filter (·.2.resolved)).map (·.1)
  have hnodup : resolved.Nodup := g.nodes.nodup_keys.sublist (List.filter_sublist.map _)
  have hmem (name : String) : name ∈ resolved ↔ name ∈ part.map (·.unit) := by
    simp only [resolved, List.mem_map, List.mem_filter, Prod.exists, SortedMap.mem_toList,
      exists_and_right, exists_eq_right]
    constructor
    · rintro ⟨node, hnode, hr⟩
      exact (hg.resolved_iff name node hnode).1 hr
    · intro hpart
      obtain ⟨u, hu, hun⟩ := hpart
      have hname : name ∈ g.names :=
        (hg.mem_names_iff name).2 (.inl ⟨⟨u, hu, hun⟩, hun ▸ h.kept (h.origin u hu)⟩)
      obtain ⟨node, hnode⟩ := Graph.mem_names.1 hname
      exact ⟨node, hnode, (hg.resolved_iff name node hnode).2 ⟨u, hu, hun⟩⟩
  have hperm := (List.perm_ext_iff_of_nodup hnodup h.part_nodup).2 hmem
  calc g.resolvedCount = resolved.length := by
        simp [Graph.resolvedCount, resolved, SortedMap.values, SortedMap.toList, List.filter_map,
          Function.comp_def]
    _ = part.length := by simpa using hperm.length_eq

end ReachablePart

end ClassAtlas
