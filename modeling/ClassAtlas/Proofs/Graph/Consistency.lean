import Mathlib.Logic.Function.Iterate
import ClassAtlas.Graph.Packages
import ClassAtlas.Proofs.Graph.Ingestion

/-!
# Consistency of graphs

Every query of a graph trusts that the edges listed at their targets are those listed at their
sources, that edges lead to nodes, and that only supplied units have edges. All graphs come from one
place, `Graph.ofSources`, so it is enough to know what holds of the sources: those of a builder, and
those that collect the units of a package.

## Main definitions

* `Graph.Consistent` is the invariant of all graphs.
* `Source.Admissible` is what a source contributes to it.
* `Graph.packageMembers` are the nodes that a package collects.

## Main results

* `Graph.consistent_ofSources`: a graph of admissible sources is consistent.
* `Graph.Consistent.packages`: the graph of packages is consistent if the graph is.
* `GraphBuilder.consistent_iterate_packages`: every finished graph is consistent, and so are its
  packages, the packages of these, and so on.
-/

namespace ClassAtlas

namespace SortedMap

variable {κ ν α : Type} [Ord κ] [Std.TransOrd κ] [Std.LawfulEqOrd κ] [DecidableEq κ]

theorem contains_foldl_alter (key : α → κ) (f : α → Option ν → ν) (l : List α) (m : SortedMap κ ν)
    (k : κ) : (l.foldl (fun m a => m.alter (key a) (f a)) m).contains k = true ↔
      m.contains k = true ∨ ∃ a ∈ l, key a = k := by
  induction l generalizing m with
  | nil => simp
  | cons a l ih =>
    rw [List.foldl_cons, ih, contains, get?_alter]
    by_cases h : k = key a <;> grind [contains]

/-- Values put in one after the other have a property if all of them do. -/
theorem forall_get?_foldl_alter {P : ν → Prop} (key : α → κ) {f : α → Option ν → ν} {l : List α}
    (hf : ∀ a ∈ l, ∀ old, P (f a old)) {m : SortedMap κ ν} (hm : ∀ k v, m.get? k = some v → P v) :
    ∀ k v, (l.foldl (fun m a => m.alter (key a) (f a)) m).get? k = some v → P v := by
  induction l generalizing m with
  | nil => exact hm
  | cons a l ih =>
    apply ih
    · intro b hb
      exact hf b (List.mem_cons_of_mem a hb)
    · intro k v hv
      rw [get?_alter] at hv
      split at hv
      · exact Option.some.inj hv ▸ hf a List.mem_cons_self _
      · exact hm k v hv

end SortedMap

/-- What a source has to satisfy so that the graph is consistent. -/
structure Source.Admissible (s : Source) (name : String) : Prop where
  no_loop : ∀ link : Link, s.outgoing.contains link = true → link.unit ≠ name
  outgoing_eq_empty : s.resolved = false → s.outgoing = ∅

/-- The counts of the links are positive. -/
def LinksPositive (links : SortedMap Link Count) : Prop :=
  ∀ link n, links.get? link = some n → 0 < n.val

instance (links : SortedMap Link Count) : Decidable (LinksPositive links) :=
  decidable_of_iff (∀ e ∈ links.toList, 0 < e.2.val) <| by
    simp only [LinksPositive, ← SortedMap.mem_toList, Prod.forall]

theorem linksPositive_empty : LinksPositive ∅ := by
  intro link n h
  cases h

namespace Graph

/-- The invariant that the queries rely on. -/
structure Consistent (g : Graph) : Prop where
  /-- A node lists exactly the edges that lead to it. -/
  incoming_iff : ∀ name node, g.nodeAt? name = some node → ∀ link : Link,
    (node.incoming.contains link = true ↔ ∃ source, g.nodeAt? link.unit = some source ∧
      source.outgoing.contains ⟨name, link.kind⟩ = true)
  /-- Every edge leads to a node. -/
  target_mem : ∀ name node, g.nodeAt? name = some node → ∀ link : Link,
    node.outgoing.contains link = true → link.unit ∈ g.names
  /-- No edge leads back to where it comes from. -/
  no_loop : ∀ name node, g.nodeAt? name = some node → ∀ link : Link,
    node.outgoing.contains link = true → link.unit ≠ name
  /-- A unit that was not supplied has no edges. -/
  outgoing_eq_empty : ∀ name node, g.nodeAt? name = some node → node.resolved = false →
    node.outgoing = ∅

/-- All units were supplied. -/
def AllResolved (g : Graph) : Prop :=
  ∀ name node, g.nodeAt? name = some node → node.resolved = true

/-- Every edge occurs at least once. -/
def CountsPositive (g : Graph) : Prop := ∀ e ∈ g.edges, 0 < e.count.val

theorem countsPositive_iff {g : Graph} :
    g.CountsPositive ↔ ∀ name node, g.nodeAt? name = some node → LinksPositive node.outgoing := by
  constructor
  · intro h name node hnode link n hn
    exact h ⟨name, link.unit, link.kind, n⟩ (mem_edges.2 ⟨node, hnode, hn⟩)
  · intro h e he
    obtain ⟨node, hnode, hn⟩ := mem_edges.1 he
    exact h e.source node hnode _ _ hn

/-! ## Graphs of sources -/

variable {sources : SortedMap String Source} {name : String} {node : Node}

/-- A node has the flag and the edges of its source, or it has neither. -/
theorem nodeAt?_ofSources_cases (h : (ofSources sources).nodeAt? name = some node) :
    (∃ s, sources.get? name = some s ∧ node.resolved = s.resolved ∧ node.outgoing = s.outgoing) ∨
      sources.get? name = none ∧ node.resolved = false ∧ node.outgoing = ∅ := by
  cases hs : sources.get? name with
  | some s =>
    rw [nodeAt?_ofSources_of_source hs, Option.some.injEq] at h
    exact .inl ⟨s, rfl, by rw [← h], by rw [← h]⟩
  | none =>
    have hnode := nodeAt?_ofSources_of_not_source hs h
    exact .inr ⟨rfl, by rw [hnode], by rw [hnode]⟩

theorem exists_source_of_outgoing (h : (ofSources sources).nodeAt? name = some node) {link : Link}
    (hlink : node.outgoing.contains link = true) :
    ∃ s, sources.get? name = some s ∧ s.outgoing.contains link = true := by
  rcases nodeAt?_ofSources_cases h with ⟨s, hs, -, hout⟩ | ⟨-, -, hout⟩
  · exact ⟨s, hs, hout ▸ hlink⟩
  · rw [hout] at hlink
    cases hlink

theorem consistent_ofSources (h : ∀ name s, sources.get? name = some s → s.Admissible name) :
    (ofSources sources).Consistent where
  incoming_iff name node hnode link := by
    rw [contains_incoming_ofSources hnode]
    constructor
    · rintro ⟨e, he, hsource, htarget, hkind⟩
      obtain ⟨source, hs, hn⟩ := mem_edges.1 he
      refine ⟨source, hsource ▸ hs, ?_⟩
      rw [← htarget, ← hkind, SortedMap.contains, hn]
      rfl
    · rintro ⟨source, hs, hlink⟩
      obtain ⟨n, hn⟩ := Option.isSome_iff_exists.1 hlink
      exact ⟨⟨link.unit, name, link.kind, n⟩, mem_edges.2 ⟨source, hs, hn⟩, rfl, rfl, rfl⟩
  target_mem name node hnode link hlink := by
    obtain ⟨s, hs, hlink⟩ := exists_source_of_outgoing hnode hlink
    rw [mem_names_ofSources, contains_namesOf]
    exact .inr ⟨name, s, link.kind, hs, hlink⟩
  no_loop name node hnode link hlink := by
    obtain ⟨s, hs, hlink⟩ := exists_source_of_outgoing hnode hlink
    exact (h name s hs).no_loop link hlink
  outgoing_eq_empty name node hnode hresolved := by
    rcases nodeAt?_ofSources_cases hnode with ⟨s, hs, hflag, hout⟩ | ⟨-, -, hout⟩
    · rw [hout]
      exact (h name s hs).outgoing_eq_empty (hflag ▸ hresolved)
    · exact hout

theorem countsPositive_ofSources
    (h : ∀ name s, sources.get? name = some s → LinksPositive s.outgoing) :
    (ofSources sources).CountsPositive := by
  rw [countsPositive_iff]
  intro name node hnode
  rcases nodeAt?_ofSources_cases hnode with ⟨s, hs, -, hout⟩ | ⟨-, -, hout⟩
  · exact hout ▸ h name s hs
  · exact hout ▸ linksPositive_empty

/-- If the sources were supplied and refer to each other only, nothing else is a node. -/
theorem allResolved_ofSources
    (h : ∀ name s, sources.get? name = some s → s.resolved = true)
    (hclosed : ∀ name s link, sources.get? name = some s → s.outgoing.contains link = true →
      sources.contains link.unit = true) : (ofSources sources).AllResolved := by
  intro name node hnode
  have hsource : sources.contains name = true := by
    have hname := mem_names.2 ⟨node, hnode⟩
    rw [mem_names_ofSources, contains_namesOf] at hname
    rcases hname with hname | ⟨a, s, kind, hs, hlink⟩
    · exact hname
    · exact hclosed a s ⟨name, kind⟩ hs hlink
  rcases nodeAt?_ofSources_cases hnode with ⟨s, hs, hflag, -⟩ | ⟨hs, -⟩
  · exact hflag ▸ h name s hs
  · rw [SortedMap.contains, hs] at hsource
    cases hsource

/-! ## Packages -/

variable {g : Graph} {package : String}

theorem contains_mergePackage {known : Source} {link : Link} :
    (mergePackage package known node).outgoing.contains link = true ↔
      known.outgoing.contains link = true ∨ ∃ l : Link, node.outgoing.contains l = true ∧
        Name.package l.unit ≠ package ∧ link = ⟨Name.package l.unit, l.kind⟩ := by
  rw [mergePackage, SortedMap.contains_foldl_alter
    (fun e : Link × Count => (⟨Name.package e.1.unit, e.1.kind⟩ : Link))]
  refine or_congr_right ?_
  simp only [List.mem_filter, decide_eq_true_eq, Prod.exists, SortedMap.mem_toList,
    SortedMap.contains, Option.isSome_iff_exists]
  grind

theorem linksPositive_mergePackage {known : Source} (hknown : LinksPositive known.outgoing)
    (hnode : LinksPositive node.outgoing) :
    LinksPositive (mergePackage package known node).outgoing := by
  refine SortedMap.forall_get?_foldl_alter (P := fun n : Count => 0 < n.val) _ ?_ hknown
  intro e he old
  have hpos := hnode e.1 e.2 (SortedMap.mem_toList.1 (List.mem_filter.1 he).1)
  rw [Count.val_add]
  simp only [Count.cap]
  omega

/-- The nodes of the units of a package, in the order of their names. -/
def packageMembers (g : Graph) (package : String) : List Node :=
  (g.nodes.toList.filter (Name.package ·.1 = package)).map (·.2)

theorem mem_packageMembers : node ∈ g.packageMembers package ↔
    ∃ name, g.nodeAt? name = some node ∧ Name.package name = package := by
  simp only [packageMembers, List.mem_map, List.mem_filter, decide_eq_true_eq, Prod.exists,
    exists_eq_right, SortedMap.mem_toList, nodeAt?]

/-- What a package knows after the nodes of some of its units. -/
def collect (package : String) (known : Source) (members : List Node) : Source :=
  members.foldl (mergePackage package) known

variable {known : Source} {members : List Node}

theorem contains_collect {link : Link} :
    (collect package known members).outgoing.contains link = true ↔
      known.outgoing.contains link = true ∨ ∃ node ∈ members, ∃ l : Link,
        node.outgoing.contains l = true ∧ Name.package l.unit ≠ package ∧
          link = ⟨Name.package l.unit, l.kind⟩ := by
  rw [collect]
  induction members generalizing known with
  | nil => simp
  | cons node members ih =>
    rw [List.foldl_cons, ih, contains_mergePackage, or_assoc]
    simp

theorem resolved_collect : (collect package known members).resolved =
    (known.resolved || members.any (·.resolved)) := by
  rw [collect]
  induction members generalizing known with
  | nil => simp
  | cons node members ih => simp [ih, mergePackage, Bool.or_assoc]

theorem linksPositive_collect (hknown : LinksPositive known.outgoing)
    (h : ∀ node ∈ members, LinksPositive node.outgoing) :
    LinksPositive (collect package known members).outgoing := by
  rw [collect]
  induction members generalizing known with
  | nil => exact hknown
  | cons node members ih =>
    rw [List.forall_mem_cons] at h
    exact ih (linksPositive_mergePackage hknown h.1) h.2

/-- A package is a source if it has units, and then it knows what these have. -/
theorem get?_packageSources (g : Graph) (package : String) :
    g.packageSources.get? package = if g.packageMembers package = [] then none
      else some (collect package ⟨false, ∅⟩ (g.packageMembers package)) := by
  have hfold := SortedMap.get?_foldl_alter (fun e : String × Node => Name.package e.1)
    (fun e known => mergePackage (Name.package e.1) (known.getD ⟨false, ∅⟩) e.2) g.nodes.toList
    SortedMap.empty package
  rw [SortedMap.get?_empty] at hfold
  rw [packageMembers]
  have hall : ∀ e ∈ g.nodes.toList.filter (Name.package ·.1 = package),
      Name.package e.1 = package := by
    intro e he
    simpa using (List.mem_filter.1 he).2
  refine hfold.trans ?_
  generalize g.nodes.toList.filter (Name.package ·.1 = package) = units at hall ⊢
  have hrun (v : Option Source) : units.foldl (fun v e =>
      some (mergePackage (Name.package e.1) (v.getD ⟨false, ∅⟩) e.2)) v =
        if units.map (·.2) = [] then v
        else some (collect package (v.getD ⟨false, ∅⟩) (units.map (·.2))) := by
    induction units generalizing v with
    | nil => rfl
    | cons e units ih =>
      rw [List.forall_mem_cons] at hall
      rw [List.foldl_cons, ih hall.2, hall.1]
      cases units <;> simp [collect]
  exact hrun none

theorem exists_of_get?_packageSources {s : Source} (h : g.packageSources.get? package = some s) :
    (∃ node, node ∈ g.packageMembers package) ∧
      s = collect package ⟨false, ∅⟩ (g.packageMembers package) := by
  rw [get?_packageSources] at h
  split at h
  · cases h
  · next hne => exact ⟨List.exists_mem_of_ne_nil _ hne, (Option.some.inj h).symm⟩

theorem contains_packageSources {unit : String} (h : unit ∈ g.names) :
    g.packageSources.contains (Name.package unit) = true := by
  obtain ⟨node, hnode⟩ := mem_names.1 h
  have hmem : node ∈ g.packageMembers (Name.package unit) := mem_packageMembers.2 ⟨unit, hnode, rfl⟩
  rw [SortedMap.contains, get?_packageSources, if_neg (List.ne_nil_of_mem hmem)]
  rfl

/-- A package without supplied units refers to nothing, as none of its units does. -/
theorem Consistent.admissible_packageSources (hg : g.Consistent) {s : Source}
    (h : g.packageSources.get? package = some s) : s.Admissible package := by
  obtain ⟨-, rfl⟩ := exists_of_get?_packageSources h
  constructor
  · intro link hlink
    rw [contains_collect] at hlink
    rcases hlink with hlink | ⟨node, -, l, -, hne, rfl⟩
    · cases hlink
    · exact hne
  · intro hresolved
    simp only [resolved_collect, Bool.false_or, List.any_eq_false, Bool.not_eq_true] at hresolved
    refine SortedMap.ext_get? fun link => Option.not_isSome_iff_eq_none.1 fun hlink => ?_
    rcases contains_collect.1 hlink with hlink | ⟨node, hnode, l, hl, -⟩
    · cases hlink
    · obtain ⟨name, hname, -⟩ := mem_packageMembers.1 hnode
      rw [hg.outgoing_eq_empty name node hname (hresolved node hnode)] at hl
      cases hl

theorem Consistent.packages (hg : g.Consistent) : g.packages.Consistent :=
  consistent_ofSources fun _ _ h => hg.admissible_packageSources h

theorem AllResolved.packages (hg : g.Consistent) (h : g.AllResolved) : g.packages.AllResolved := by
  apply allResolved_ofSources
  · intro package s hs
    obtain ⟨⟨node, hnode⟩, rfl⟩ := exists_of_get?_packageSources hs
    obtain ⟨name, hname, -⟩ := mem_packageMembers.1 hnode
    rw [resolved_collect, Bool.false_or, List.any_eq_true]
    exact ⟨node, hnode, h name node hname⟩
  · intro package s link hs hlink
    obtain ⟨-, rfl⟩ := exists_of_get?_packageSources hs
    rcases contains_collect.1 hlink with hlink | ⟨node, hnode, l, hl, -, rfl⟩
    · cases hlink
    · obtain ⟨name, hname, -⟩ := mem_packageMembers.1 hnode
      exact contains_packageSources (hg.target_mem name node hname l hl)

theorem CountsPositive.packages (h : g.CountsPositive) : g.packages.CountsPositive := by
  apply countsPositive_ofSources
  intro package s hs
  obtain ⟨-, rfl⟩ := exists_of_get?_packageSources hs
  refine linksPositive_collect linksPositive_empty ?_
  intro node hnode
  obtain ⟨name, hname, -⟩ := mem_packageMembers.1 hnode
  exact countsPositive_iff.1 h name node hname

end Graph

/-! ## Finished graphs -/

namespace GraphBuilder

variable {b : GraphBuilder} {units : List UnitReferences}

theorem Holds.consistent_finish (h : b.Holds units) : b.finish.Consistent := by
  apply Graph.consistent_ofSources
  intro name s hs
  obtain ⟨-, -, rfl⟩ := get?_sources.1 hs
  constructor
  · intro link hlink
    obtain ⟨n, hn⟩ := Option.isSome_iff_exists.1 hlink
    rw [SortedMap.get?_filter, Option.filter_eq_some_iff] at hn
    exact ((h.counted name link n).1 hn.1).2.1
  · intro hresolved
    cases hresolved

theorem allResolved_finish (h : b.config.unresolved = .omit) : b.finish.AllResolved := by
  apply Graph.allResolved_ofSources
  · intro name s hs
    obtain ⟨-, -, rfl⟩ := get?_sources.1 hs
    rfl
  · intro name s link hs hlink
    obtain ⟨-, -, rfl⟩ := get?_sources.1 hs
    obtain ⟨n, hn⟩ := Option.isSome_iff_exists.1 hlink
    rw [SortedMap.get?_filter, Option.filter_eq_some_iff] at hn
    have hkept : b.kept.contains link.unit = true := by
      have hkeeps : b.keepsEdge link = true := hn.2
      simp only [keepsEdge, h, Bool.and_eq_true] at hkeeps
      simpa using hkeeps.2
    rwa [sources, SortedMap.contains, SortedMap.get?_mapValues, Option.isSome_map]

theorem Holds.countsPositive_finish (h : b.Holds units)
    (hunits : ∀ u ∈ units, LinksPositive u.counts) : b.finish.CountsPositive := by
  intro e he
  obtain ⟨-, -, hknown⟩ := (h.mem_edges_finish e).1 he
  obtain ⟨⟨u, hu, hname, hlink⟩, -, hcount⟩ := (h.counted _ _ _).1 hknown
  obtain ⟨n, hn⟩ := Option.isSome_iff_exists.1 hlink
  have hpos : 0 < (u.count e.target e.kind).val := by
    rw [UnitReferences.count, hn]
    exact hunits u hu _ n hn
  have htotal : (u.count e.target e.kind).val ≤ mentionTotal units e.source ⟨e.target, e.kind⟩ :=
    le_sumOf (fun u => (u.count e.target e.kind).val) (List.mem_filter.2 ⟨hu, by simpa using hname⟩)
  rw [hcount, Count.val_ofNat]
  simp only [Count.cap]
  omega

/-- Every finished graph is consistent, and so are the packages of such a graph, the packages of
these, and so on. If unresolved targets are dropped, all of their nodes are resolved; and if every
reference that was taken counts, every edge does. -/
theorem consistent_iterate_packages (config : GraphConfig) (units : List UnitReferences) (n : Nat) :
    (Graph.packages^[n] ((start config).ingestAll units).finish).Consistent ∧
      (config.unresolved = .omit →
        (Graph.packages^[n] ((start config).ingestAll units).finish).AllResolved) ∧
      ((∀ u ∈ units, LinksPositive u.counts) →
        (Graph.packages^[n] ((start config).ingestAll units).finish).CountsPositive) := by
  have hholds := holds_ingestAll config units
  induction n with
  | zero =>
    refine ⟨hholds.consistent_finish, ?_, hholds.countsPositive_finish⟩
    intro homit
    apply allResolved_finish
    rwa [config_ingestAll]
  | succ n ih =>
    obtain ⟨hconsistent, hresolved, hpositive⟩ := ih
    rw [Function.iterate_succ_apply']
    exact ⟨hconsistent.packages, fun homit => (hresolved homit).packages hconsistent,
      fun hunits => (hpositive hunits).packages⟩

/-- Two units of a package that refer to each other and to another package, which refers back; the
reference to a unit that was not supplied is dropped. -/
theorem consistent_iterate_packages_mutual :
    let config : GraphConfig := { GraphConfig.ofPreset .full with unresolved := .omit }
    let units := [((UnitReferences.empty "a/X").add "a/Y" .fieldType).add "b/Z" .superclass,
      (UnitReferences.empty "a/Y").add "java/lang/Object" .superclass,
      (UnitReferences.empty "b/Z").add "a/Y" .methodParam]
    let g := Graph.packages^[1] ((start config).ingestAll units).finish
    g.edgeCount = 2 ∧ g.Consistent ∧ g.AllResolved ∧ g.CountsPositive := by
  intro config units g
  obtain ⟨hconsistent, hresolved, hpositive⟩ := consistent_iterate_packages config units 1
  exact ⟨by decide +kernel, hconsistent, hresolved rfl, hpositive (by decide +kernel)⟩

end GraphBuilder

end ClassAtlas
