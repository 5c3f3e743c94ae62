import ClassAtlas.Proofs.Graph.Neighbours

/-!
# The graph of packages is a quotient

The graph of packages identifies the units of each package. Its nodes are the classes of that
partition, and its edges those between units of different classes, with their counts added up. Edges
inside a package are dropped, and so a path of units becomes a shorter path of packages, or none.

## Main definitions

* `Graph.crossing` are the edges of one kind from the units of a package to those of another.
* `Graph.QuotientOf` says that the units of one graph are the packages of another.

## Main results

* `Graph.outgoing_collect_packageMembers`: a package adds up the edges that leave it.
* `Graph.mem_edges_packages`: the edges between packages, in terms of those between units.
* `Graph.packages_quotientOf_finished`: the graph of the packages of a finished graph is its
  quotient.
-/

namespace ClassAtlas

open Relation

/-! ## Counts added up -/

section

variable {κ α : Type} [Ord κ] [Std.TransOrd κ] [Std.LawfulEqOrd κ] [DecidableEq κ]

/-- Counts that are added one after the other to one that may be absent. -/
theorem Count.foldl_getD_add (count : α → Count) (l : List α) (known : Option Count) :
    l.foldl (fun known a => some (known.getD 0 + count a)) known =
      if l = [] then known
      else some (.ofNat ((known.getD 0).val + sumOf (fun a => (count a).val) l)) := by
  induction l generalizing known with
  | nil => rfl
  | cons a l ih =>
    rw [List.foldl_cons, ih, if_neg (List.cons_ne_nil a l)]
    by_cases hl : l = []
    · rw [if_pos hl, hl, Option.some.injEq]
      ext
      simp
    · rw [if_neg hl, Option.some.injEq]
      ext
      simp only [Option.getD_some, Count.val_ofNat, Count.val_add, sumOf_cons]
      omega

/-- The values of a map to which counts were added: each is a total that was capped once. -/
theorem SortedMap.get?_foldl_add (key : α → κ) (count : α → Count) (l : List α) (k : κ) :
    (l.foldl (fun m a => m.alter (key a) fun old => old.getD 0 + count a)
      (∅ : SortedMap κ Count)).get? k =
      if l.filter (key · = k) = [] then none
      else some (Count.ofNat (sumOf (fun a => (count a).val) (l.filter (key · = k)))) := by
  rw [get?_foldl_alter key (fun a old => old.getD 0 + count a), get?_emptyCollection,
    Count.foldl_getD_add]
  have hzero : (Option.getD none (0 : Count)).val = 0 := rfl
  rw [hzero, Nat.zero_add]

end

namespace Graph

variable {g : Graph} {p q : String} {kind : EdgeKind}

/-! ## Edges between packages -/

/-- The edges of one kind from the units of a package to those of another. -/
def crossing (g : Graph) (p q : String) (kind : EdgeKind) : List Edge :=
  g.edges.filter fun e => Name.package e.source = p ∧ Name.package e.target = q ∧ e.kind = kind

/-- The edges from the units of a package to those of others. -/
def leaving (g : Graph) (p : String) : List Edge :=
  g.edges.filter fun e => Name.package e.source = p ∧ Name.package e.target ≠ p

/-- Adds an edge to what its package refers to. -/
def addEdge (known : SortedMap Link Count) (e : Edge) : SortedMap Link Count :=
  known.alter ⟨Name.package e.target, e.kind⟩ fun old => old.getD 0 + e.count

/-- A unit adds its edges that leave the package. -/
theorem outgoing_mergePackage (known : Source) (name : String) (node : Node) :
    (mergePackage p known node).outgoing =
      ((nodeEdges name node).filter (Name.package ·.target ≠ p)).foldl addEdge known.outgoing := by
  rw [mergePackage, nodeEdges, List.filter_map, List.foldl_map]
  rfl

/-- A package adds up the edges that leave it. -/
theorem outgoing_collect_packageMembers (g : Graph) (p : String) (known : Source) :
    (collect p known (g.packageMembers p)).outgoing =
      (g.leaving p).foldl addEdge known.outgoing := by
  rw [packageMembers, leaving, edges]
  generalize g.nodes.toList = nodes
  induction nodes generalizing known with
  | nil => rfl
  | cons e nodes ih =>
    obtain ⟨name, node⟩ := e
    rw [List.flatMap_cons, List.filter_append, List.foldl_append]
    by_cases hname : Name.package name = p
    · have hedges : (nodeEdges name node).filter
          (fun e => Name.package e.source = p ∧ Name.package e.target ≠ p) =
            (nodeEdges name node).filter (Name.package ·.target ≠ p) := by
        refine List.filter_congr ?_
        intro e he
        obtain ⟨entry, -, rfl⟩ := List.mem_map.1 he
        simp [hname]
      rw [hedges, ← outgoing_mergePackage, ← ih]
      simp [hname, collect]
    · have hedges : (nodeEdges name node).filter
          (fun e => Name.package e.source = p ∧ Name.package e.target ≠ p) = [] := by
        refine List.filter_eq_nil_iff.2 ?_
        intro e he
        obtain ⟨entry, -, rfl⟩ := List.mem_map.1 he
        simp [hname]
      rw [hedges, List.foldl_nil, ← ih]
      simp [hname]

theorem mem_crossing {e : Edge} : e ∈ g.crossing p q kind ↔
    e ∈ g.edges ∧ Name.package e.source = p ∧ Name.package e.target = q ∧ e.kind = kind := by
  simp [crossing]

/-- What leaves a package by a link are the edges that cross over to the other package. -/
theorem filter_leaving (g : Graph) (hne : p ≠ q) (kind : EdgeKind) :
    (g.leaving p).filter (fun e => (⟨Name.package e.target, e.kind⟩ : Link) = ⟨q, kind⟩) =
      g.crossing p q kind := by
  rw [leaving, crossing, List.filter_filter]
  refine List.filter_congr ?_
  intro e _
  rw [Bool.eq_iff_iff]
  simp only [Link.mk.injEq, Bool.and_eq_true, decide_eq_true_eq]
  grind

/-- A package refers to another by the edges that cross over, as often as these count together. -/
theorem get?_outgoing_collect (g : Graph) (hne : p ≠ q) (kind : EdgeKind) :
    (collect p ⟨false, ∅⟩ (g.packageMembers p)).outgoing.get? ⟨q, kind⟩ =
      if g.crossing p q kind = [] then none
      else some (.ofNat (sumOf (fun e => e.count.val) (g.crossing p q kind))) := by
  rw [outgoing_collect_packageMembers, ← filter_leaving g hne kind]
  exact SortedMap.get?_foldl_add (fun e : Edge => (⟨Name.package e.target, e.kind⟩ : Link))
    (fun e => e.count) (g.leaving p) ⟨q, kind⟩

/-! ## The quotient -/

/-- The units of a graph are the packages of another. -/
structure QuotientOf (quotient g : Graph) : Prop where
  mem_names_iff : ∀ p, p ∈ quotient.names ↔ ∃ a ∈ g.names, Name.package a = p
  /-- A package is resolved if one of its units is. -/
  resolved_iff : ∀ p node, quotient.nodeAt? p = some node → (node.resolved = true ↔
    ∃ a member, g.nodeAt? a = some member ∧ Name.package a = p ∧ member.resolved = true)
  /-- An edge stands for the edges of its kind between units of two different packages, and has the
  sum of their counts. -/
  mem_edges_iff : ∀ e, e ∈ quotient.edges ↔ e.source ≠ e.target ∧
    (∃ c ∈ g.edges, Name.package c.source = e.source ∧ Name.package c.target = e.target ∧
      c.kind = e.kind) ∧
    e.count.val = min (sumOf (fun c => c.count.val) (g.crossing e.source e.target e.kind)) Count.cap
  /-- A path of units leads along a path of packages, or stays in one. -/
  package_eq_or_transGen : ∀ a b, ReflTransGen g.Refers a b → Name.package b = Name.package a ∨
    TransGen quotient.Refers (Name.package a) (Name.package b)

/-- The edges of a package are what its units have collected. -/
theorem mem_edges_packages_iff_get? {e : Edge} : e ∈ g.packages.edges ↔
    (collect e.source ⟨false, ∅⟩ (g.packageMembers e.source)).outgoing.get? ⟨e.target, e.kind⟩ =
      some e.count := by
  rw [packages, mem_edges_ofSources]
  constructor
  · intro ⟨s, hs, hcount⟩
    obtain ⟨-, rfl⟩ := exists_of_get?_packageSources hs
    exact hcount
  · intro hcount
    have hmembers : g.packageMembers e.source ≠ [] := by
      intro hnil
      rw [hnil] at hcount
      cases hcount
    exact ⟨_, by rw [get?_packageSources, if_neg hmembers], hcount⟩

theorem mem_edges_packages {e : Edge} : e ∈ g.packages.edges ↔ e.source ≠ e.target ∧
    (∃ c ∈ g.edges, Name.package c.source = e.source ∧ Name.package c.target = e.target ∧
      c.kind = e.kind) ∧
    e.count.val =
      min (sumOf (fun c => c.count.val) (g.crossing e.source e.target e.kind)) Count.cap := by
  rw [mem_edges_packages_iff_get?]
  constructor
  · intro h
    have hne : e.source ≠ e.target := by
      have hcontains : (collect e.source ⟨false, ∅⟩
          (g.packageMembers e.source)).outgoing.contains ⟨e.target, e.kind⟩ = true :=
        Option.isSome_iff_exists.2 ⟨e.count, h⟩
      rcases contains_collect.1 hcontains with hempty | ⟨node, -, l, -, hpackage, hlink⟩
      · cases hempty
      · have htarget : e.target = Name.package l.unit := congrArg Link.unit hlink
        exact htarget ▸ hpackage.symm
    rw [get?_outgoing_collect g hne] at h
    split at h
    · cases h
    · next hcrossing =>
      obtain ⟨c, hc⟩ := List.exists_mem_of_ne_nil _ hcrossing
      exact ⟨hne, ⟨c, mem_crossing.1 hc⟩, by rw [← Option.some.inj h, Count.val_ofNat]⟩
  · intro ⟨hne, ⟨c, hc⟩, hcount⟩
    have hcrossing : g.crossing e.source e.target e.kind ≠ [] :=
      List.ne_nil_of_mem (mem_crossing.2 hc)
    rw [get?_outgoing_collect g hne, if_neg hcrossing, Option.some.injEq]
    exact Count.ext hcount.symm

/-- An edge between two units is one between their packages, unless these are the same. -/
theorem Refers.packages {a b : String} (h : g.Refers a b)
    (hne : Name.package a ≠ Name.package b) :
    g.packages.Refers (Name.package a) (Name.package b) := by
  obtain ⟨c, hc, rfl, rfl⟩ := h
  let total := sumOf (fun c => c.count.val)
    (g.crossing (Name.package c.source) (Name.package c.target) c.kind)
  refine ⟨⟨Name.package c.source, Name.package c.target, c.kind, .ofNat total⟩, ?_, rfl, rfl⟩
  exact mem_edges_packages.2 ⟨hne, ⟨c, hc, rfl, rfl, rfl⟩, rfl⟩

theorem reflTransGen_packages {a b : String} (h : ReflTransGen g.Refers a b) :
    ReflTransGen g.packages.Refers (Name.package a) (Name.package b) := by
  induction h with
  | refl => exact .refl
  | @tail b c _ hbc ih =>
    by_cases hsame : Name.package b = Name.package c
    · exact hsame ▸ ih
    · exact ih.tail (hbc.packages hsame)

namespace Consistent

variable (hg : g.Consistent)
include hg

theorem mem_names_packages_iff : p ∈ g.packages.names ↔ ∃ a ∈ g.names, Name.package a = p := by
  rw [Graph.packages, mem_names_ofSources, contains_namesOf]
  constructor
  · rintro (hsource | ⟨q, s, kind, hs, hlink⟩)
    · obtain ⟨s, hs⟩ := Option.isSome_iff_exists.1 hsource
      obtain ⟨⟨node, hnode⟩, -⟩ := exists_of_get?_packageSources hs
      obtain ⟨a, ha, hpackage⟩ := mem_packageMembers.1 hnode
      exact ⟨a, mem_names.2 ⟨node, ha⟩, hpackage⟩
    · obtain ⟨-, rfl⟩ := exists_of_get?_packageSources hs
      rcases contains_collect.1 hlink with hempty | ⟨node, hnode, l, hl, -, heq⟩
      · cases hempty
      · cases heq
        obtain ⟨a, ha, -⟩ := mem_packageMembers.1 hnode
        exact ⟨l.unit, hg.target_mem a node ha l hl, rfl⟩
  · intro ⟨a, ha, hpackage⟩
    exact .inl (hpackage ▸ contains_packageSources ha)

theorem resolved_packages_iff {node : Node} (hnode : g.packages.nodeAt? p = some node) :
    node.resolved = true ↔
      ∃ a member, g.nodeAt? a = some member ∧ Name.package a = p ∧ member.resolved = true := by
  obtain ⟨a, ha, rfl⟩ := hg.mem_names_packages_iff.1 (mem_names.2 ⟨node, hnode⟩)
  obtain ⟨s, hs⟩ := Option.isSome_iff_exists.1 (contains_packageSources ha)
  obtain ⟨-, rfl⟩ := exists_of_get?_packageSources hs
  rw [Graph.packages, nodeAt?_ofSources_of_source hs, Option.some.injEq] at hnode
  subst hnode
  simp only [resolved_collect, Bool.false_or, List.any_eq_true, mem_packageMembers]
  constructor
  · intro ⟨member, ⟨b, hb, hpackage⟩, hresolved⟩
    exact ⟨b, member, hb, hpackage, hresolved⟩
  · intro ⟨b, member, hb, hpackage, hresolved⟩
    exact ⟨member, ⟨b, hb, hpackage⟩, hresolved⟩

theorem packages_quotientOf : g.packages.QuotientOf g where
  mem_names_iff _ := hg.mem_names_packages_iff
  resolved_iff _ _ := hg.resolved_packages_iff
  mem_edges_iff _ := mem_edges_packages
  package_eq_or_transGen _ _ h := reflTransGen_iff_eq_or_transGen.1 (reflTransGen_packages h)

end Consistent

/-- The graph of the packages of a finished graph is its quotient, and so on for the packages of
these. -/
theorem packages_quotientOf_finished (config : GraphConfig) (units : List UnitReferences)
    (n : Nat) :
    let g := Graph.packages^[n] ((GraphBuilder.start config).ingestAll units).finish
    g.packages.QuotientOf g :=
  (GraphBuilder.consistent_finished config units n).packages_quotientOf

-- The edges from two units of a package add up, and the one inside it is dropped.
example :
    let units := [((UnitReferences.empty "p/A").add "q/X" .fieldType).add "p/B" .superclass,
      (UnitReferences.empty "p/B").add "q/Y" .fieldType]
    let g := ((GraphBuilder.start (.ofPreset .full)).ingestAll units).finish
    g.packages.names = ["p", "q"] ∧ g.packages.edges = [⟨"p", "q", .fieldType, .ofNat 2⟩] := by
  decide +kernel

end Graph

end ClassAtlas
