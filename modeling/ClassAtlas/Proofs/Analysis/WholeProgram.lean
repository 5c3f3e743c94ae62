import ClassAtlas.Proofs.Analysis.Search
import ClassAtlas.Proofs.Graph.ReachablePart

/-!
# The search from a root and the whole program

A search from a root loads units one by one, and filters references before it queues them. An
analysis of all units filters once, when they are known. If each unit is found under the name it
declares, the search gives the part of the whole graph that the root reaches.

## Main definitions

* `Library.SelfNamed` says that each unit is found under the name it declares.
* `Search.failedNames` are the names whose units were found and failed.
-/

namespace ClassAtlas

open Relation

/-- Each class file that can be decoded declares the name it is found under. -/
def Library.SelfNamed (library : Library) : Prop :=
  ∀ name bytes u, library.get? name = some bytes → CompiledUnit.decode bytes = .ok u →
    u.name = name

/-- The class files of a library, each under its name. -/
def Library.inputs (library : Library) : List UnitInput :=
  library.toList.map fun e => ⟨e.1, e.2⟩

/-- The names whose units were found and failed. -/
def Search.failedNames (visits : List Visit) : List String :=
  (visits.filter fun v => v.failure?.isSome).map Visit.name

/-! ## The units of a library -/

/-- References are extracted under the name that a unit declares. -/
theorem decode_of_extractReferences {config : ExtractionConfig} {name : String}
    {bytes : List UInt8} {refs : UnitReferences}
    (h : extractReferences config name bytes = .ok refs) :
    ∃ u, CompiledUnit.decode bytes = .ok u ∧ u.name = refs.unit := by
  rw [extractReferences, processUnit] at h
  cases hd : CompiledUnit.decode bytes with
  | error e => simp [hd, Except.mapError] at h
  | ok u =>
    refine ⟨u, rfl, ?_⟩
    rw [hd] at h
    dsimp only at h
    rcases hr : (Extract.unit config u).run.run .empty with ⟨e | mentions, cache⟩
    · simp [extractUnit, hr, Except.mapError, Functor.map, Except.map] at h
    · simp only [extractUnit, hr, Except.mapError, Functor.map, Except.map, Except.ok.injEq] at h
      rw [← h, UnitReferences.unit_addAll]
      rfl

variable {config : AnalysisConfig} {library : Library} {root : String}

theorem Library.SelfNamed.unit_eq (hown : library.SelfNamed) {config : ExtractionConfig}
    {name : String} {bytes : List UInt8} {refs : UnitReferences}
    (hbytes : library.get? name = some bytes)
    (hrefs : extractReferences config name bytes = .ok refs) : refs.unit = name := by
  obtain ⟨u, hu, hname⟩ := decode_of_extractReferences hrefs
  rw [← hname, hown name bytes u hbytes hu]

theorem mem_extractedUnits_inputs {config : ExtractionConfig} {refs : UnitReferences} :
    refs ∈ extractedUnits config library.inputs ↔
      ∃ name bytes, library.get? name = some bytes ∧
        extractReferences config name bytes = .ok refs := by
  simp only [extractedUnits, Library.inputs, List.mem_filterMap, List.mem_map, Prod.exists,
    SortedMap.mem_toList]
  constructor
  · rintro ⟨input, ⟨name, bytes, hbytes, rfl⟩, hrefs⟩
    cases he : extractReferences config name bytes with
    | error e => simp [he, Except.toOption] at hrefs
    | ok refs' =>
      simp only [he, Except.toOption, Option.some.injEq] at hrefs
      exact ⟨name, bytes, hbytes, hrefs ▸ he⟩
  · rintro ⟨name, bytes, hbytes, he⟩
    exact ⟨⟨name, bytes⟩, ⟨name, bytes, hbytes, rfl⟩, by simp [he, Except.toOption]⟩

/-- Units that are extracted under their own names have the names of the inputs, in order. -/
theorem units_sublist {config : ExtractionConfig} {units : List UnitInput}
    (hown : ∀ input ∈ units, ∀ refs,
      extractReferences config input.name input.bytes = .ok refs → refs.unit = input.name) :
    ((extractedUnits config units).map (·.unit)).Sublist (units.map (·.name)) := by
  induction units with
  | nil => exact List.Sublist.refl []
  | cons input units ih =>
    have hrest := ih fun i hi => hown i (List.mem_cons_of_mem input hi)
    rw [extractedUnits] at hrest ⊢
    cases he : extractReferences config input.name input.bytes with
    | error e => simpa [he, Except.toOption] using hrest.cons input.name
    | ok refs =>
      have hname := hown input List.mem_cons_self refs he
      simpa [he, Except.toOption, hname] using hrest

theorem Library.SelfNamed.nodup_units (hown : library.SelfNamed) (config : ExtractionConfig) :
    ((extractedUnits config library.inputs).map (·.unit)).Nodup := by
  have hsub : ((extractedUnits config library.inputs).map (·.unit)).Sublist library.keys := by
    have hkeys : library.keys = library.inputs.map (·.name) := by
      simp [Library.inputs, SortedMap.keys, SortedMap.toList]
    rw [hkeys]
    refine units_sublist fun input hinput refs hrefs => ?_
    obtain ⟨⟨name, bytes⟩, he, rfl⟩ := List.mem_map.1 hinput
    exact hown.unit_eq (SortedMap.mem_toList.1 he) hrefs
  exact library.nodup_keys.sublist hsub

/-! ## The visits of a search -/

namespace Search

variable {s : Search}

theorem Traces.mem_loaded (h : s.Traces config library root) {refs : UnitReferences}
    (hown : library.SelfNamed) :
    refs ∈ s.visits.filterMap Visit.loaded? ↔ ⟨refs.unit, .loaded refs⟩ ∈ s.visits := by
  rw [List.mem_filterMap]
  constructor
  · rintro ⟨⟨name, finding⟩, hv, hl⟩
    cases finding with
    | loaded refs' =>
      obtain rfl : refs' = refs := by simpa [Visit.loaded?] using hl
      obtain ⟨bytes, hbytes, hrefs⟩ := h.right _ hv
      rwa [hown.unit_eq hbytes hrefs]
    | absent | failed | known => simp [Visit.loaded?] at hl
  · exact fun hv => ⟨_, hv, rfl⟩

/-- A name is looked up once. -/
theorem Traces.visit_unique (h : s.Traces config library root) {v v' : Visit} (hv : v ∈ s.visits)
    (hv' : v' ∈ s.visits) (hname : v.name = v'.name) : v = v' :=
  List.inj_on_of_nodup_map (List.nodup_append.1 h.nodup).1 hv hv' hname

/-- If units have their own names, none is found under a second one. -/
theorem Traces.not_known (h : s.Traces config library root) (hown : library.SelfNamed)
    {name : String} {refs : UnitReferences} : ⟨name, .known refs⟩ ∉ s.visits := by
  intro hv
  obtain ⟨bytes, hbytes, hrefs⟩ := h.right _ hv
  obtain ⟨refs', hmem, hunit⟩ := (h.loaded_iff _).1 (h.known name refs hv)
  have hname : refs'.unit = name := hunit.trans (hown.unit_eq hbytes hrefs)
  have hsame := h.visit_unique ((h.mem_loaded hown).1 hmem) hv hname
  simp at hsame

/-- What a visited name gave is what the library has. -/
theorem Traces.loaded_of_mem_names (h : s.Traces config library root) (hown : library.SelfNamed)
    {name : String} (hname : name ∈ s.names) {refs : UnitReferences}
    (hrefs : refs ∈ extractedUnits config.extraction library.inputs) (hunit : refs.unit = name) :
    refs ∈ s.visits.filterMap Visit.loaded? := by
  obtain ⟨name', bytes, hbytes, he⟩ := mem_extractedUnits_inputs.1 hrefs
  obtain rfl : name' = name := (hown.unit_eq hbytes he).symm.trans hunit
  obtain ⟨⟨_, finding⟩, hv, rfl⟩ := List.mem_map.1 hname
  have hright := h.right _ hv
  cases finding with
  | absent => simp [Visit.Right, hbytes] at hright
  | failed failure =>
    obtain ⟨bytes', hbytes', hf⟩ := hright
    obtain rfl : bytes = bytes' := by simpa [hbytes] using hbytes'
    simp [failureOf?, he] at hf
  | known refs' => exact absurd hv (h.not_known hown)
  | loaded refs' =>
    obtain ⟨bytes', hbytes', hf⟩ := hright
    obtain rfl : bytes = bytes' := by simpa [hbytes] using hbytes'
    obtain rfl : refs = refs' := by simpa [he] using hf
    exact List.mem_filterMap.2 ⟨_, hv, rfl⟩

theorem Traces.mem_units (h : s.Traces config library root) {refs : UnitReferences}
    (hrefs : refs ∈ s.visits.filterMap Visit.loaded?) :
    refs ∈ extractedUnits config.extraction library.inputs := by
  obtain ⟨⟨name, finding⟩, hv, hl⟩ := List.mem_filterMap.1 hrefs
  have hright := h.right _ hv
  cases finding with
  | loaded refs' =>
    obtain rfl : refs' = refs := by simpa [Visit.loaded?] using hl
    obtain ⟨bytes, hbytes, he⟩ := hright
    exact mem_extractedUnits_inputs.2 ⟨name, bytes, hbytes, he⟩
  | absent | failed | known => simp [Visit.loaded?] at hl

/-- A loaded unit leads to what it refers to. -/
theorem Traces.leads_iff (h : s.Traces config library root) (hown : library.SelfNamed)
    (a b : String) :
    s.Leads config.graph a b ↔ Follows config.graph (s.visits.filterMap Visit.loaded?) a b := by
  simp only [Leads, Follows, mem_targets, h.mem_loaded hown]
  constructor
  · rintro ⟨refs, hv, hb⟩
    obtain ⟨bytes, hbytes, hrefs⟩ := h.right _ hv
    have hunit : refs.unit = a := hown.unit_eq hbytes hrefs
    exact ⟨refs, by rwa [hunit], hunit, hb⟩
  · rintro ⟨refs, hv, rfl, hb⟩
    exact ⟨refs, hv, hb⟩

/-- When the queue is empty, what was queued was looked up. -/
theorem Traces.queued_iff_mem_names (h : s.Traces config library root) (hown : library.SelfNamed)
    (hqueue : s.queue = []) (name : String) : s.queued.contains name = true ↔ name ∈ s.names := by
  rw [h.queued_iff, hqueue, h.loaded_iff]
  refine ⟨?_, .inl⟩
  rintro (hname | hname | ⟨refs, hrefs, rfl⟩)
  · exact hname
  · simp at hname
  · exact List.mem_map.2 ⟨_, (h.mem_loaded hown).1 hrefs, rfl⟩

/-- The units loaded by a whole search are those that the root reaches. -/
theorem Traces.reachablePart (h : s.Traces config library root) (hown : library.SelfNamed)
    (hqueue : s.queue = []) {refs : UnitReferences}
    (hroot : refs ∈ extractedUnits config.extraction library.inputs) (hunit : refs.unit = root)
    (hkept : config.graph.excludes root = false) :
    ReachablePart config.graph (extractedUnits config.extraction library.inputs)
      (s.visits.filterMap Visit.loaded?) root where
  nodup := hown.nodup_units config.extraction
  part_nodup := h.units_nodup
  subset _ hu := h.mem_units hu
  root_mem := by
    have hname := (h.queued_iff_mem_names hown hqueue root).1 h.root_queued
    exact ⟨refs, h.loaded_of_mem_names hown hname hroot hunit, hunit⟩
  root_kept := hkept
  closed a b hab := by
    rintro ⟨u, hu, hub⟩
    have hqueued := h.closed a b ((h.leads_iff hown a b).2 hab)
    have hname := (h.queued_iff_mem_names hown hqueue b).1 hqueued
    exact ⟨u, h.loaded_of_mem_names hown hname hu hub, hub⟩
  origin u hu := by
    have hname : u.unit ∈ s.names := List.mem_map.2 ⟨_, (h.mem_loaded hown).1 hu, rfl⟩
    exact ReflTransGen.mono (fun _ _ hab => (h.leads_iff hown _ _).1 hab) _ _
      (h.origin u.unit (.inl hname))

/-! ## Names without a unit -/

theorem mem_failedNames {visits : List Visit} {name : String} :
    name ∈ failedNames visits ↔ ∃ failure, ⟨name, .failed failure⟩ ∈ visits := by
  simp only [failedNames, List.mem_map, List.mem_filter]
  constructor
  · rintro ⟨⟨_, finding⟩, ⟨hv, hf⟩, rfl⟩
    cases finding with
    | failed failure => exact ⟨failure, hv⟩
    | absent | loaded | known => simp [Visit.failure?] at hf
  · rintro ⟨failure, hv⟩
    exact ⟨_, ⟨hv, rfl⟩, rfl⟩

/-- If units have their own names, the missing names are those that were not found. -/
theorem Traces.mem_missing (h : s.Traces config library root) (hown : library.SelfNamed)
    {name : String} :
    name ∈ (s.visits.reverse.filter Visit.isMissing).map Visit.name ↔
      ⟨name, .absent⟩ ∈ s.visits := by
  simp only [List.mem_map, List.mem_filter, List.mem_reverse]
  constructor
  · rintro ⟨⟨_, finding⟩, ⟨hv, hm⟩, rfl⟩
    cases finding with
    | absent => exact hv
    | failed failure => simp [Visit.isMissing] at hm
    | known refs => exact absurd hv (h.not_known hown)
    | loaded refs =>
      obtain ⟨bytes, hbytes, hrefs⟩ := h.right _ hv
      simp [Visit.isMissing, hown.unit_eq hbytes hrefs] at hm
  · exact fun hv => ⟨_, ⟨hv, rfl⟩, rfl⟩

/-- A name that was looked up has no unit exactly if it was not found or failed. -/
theorem Traces.missing_or_failed_iff (h : s.Traces config library root) (hown : library.SelfNamed)
    {name : String} :
    (⟨name, .absent⟩ ∈ s.visits ∨ ∃ failure, ⟨name, .failed failure⟩ ∈ s.visits) ↔
      name ∈ s.names ∧ ¬∃ u ∈ extractedUnits config.extraction library.inputs, u.unit = name := by
  constructor
  · intro hv
    have hname : name ∈ s.names := by
      rcases hv with hv | ⟨failure, hv⟩ <;> exact List.mem_map.2 ⟨_, hv, rfl⟩
    refine ⟨hname, fun ⟨u, hu, hunit⟩ => ?_⟩
    have hloaded := (h.mem_loaded hown).1 (h.loaded_of_mem_names hown hname hu hunit)
    rcases hv with hv | ⟨failure, hv⟩ <;> simpa using h.visit_unique hloaded hv hunit
  · rintro ⟨hname, hnone⟩
    obtain ⟨⟨_, finding⟩, hv, rfl⟩ := List.mem_map.1 hname
    cases finding with
    | absent => exact .inl hv
    | failed failure => exact .inr ⟨failure, hv⟩
    | known refs => exact absurd hv (h.not_known hown)
    | loaded refs =>
      obtain ⟨bytes, hbytes, hrefs⟩ := h.right _ hv
      exact absurd ⟨refs, mem_extractedUnits_inputs.2 ⟨_, bytes, hbytes, hrefs⟩,
        hown.unit_eq hbytes hrefs⟩ hnone

/-- If unresolved targets are kept, the names looked up that have no unit are the unresolved nodes
that the root reaches. -/
theorem Traces.unresolved_iff (h : s.Traces config library root) (hown : library.SelfNamed)
    (hqueue : s.queue = [])
    (hpart : ReachablePart config.graph (extractedUnits config.extraction library.inputs)
      (s.visits.filterMap Visit.loaded?) root)
    (hleaf : config.graph.unresolved = .leaf) {g whole : Graph}
    (hg : g.Depicts config.graph (s.visits.filterMap Visit.loaded?))
    (hwhole : whole.Depicts config.graph (extractedUnits config.extraction library.inputs))
    (name : String) :
    (name ∈ s.names ∧
      ¬∃ u ∈ extractedUnits config.extraction library.inputs, u.unit = name) ↔
      (name ≠ root ∧ whole.Reaches root name) ∧
        ∃ node, whole.nodeAt? name = some node ∧ node.resolved = false := by
  constructor
  · rintro ⟨hname, hnone⟩
    have hfollows : ReflTransGen (Follows config.graph (s.visits.filterMap Visit.loaded?)) root
        name :=
      ReflTransGen.mono (fun _ _ hab => (h.leads_iff hown _ _).1 hab) _ _
        (h.origin name (.inl hname))
    have hreach := hpart.reaches hwhole hfollows (.inl hleaf)
    obtain ⟨node, hnode⟩ := Graph.mem_names.1 (hpart.mem_whole_names hwhole hreach)
    refine ⟨⟨?_, hreach⟩, node, hnode, ?_⟩
    · rintro rfl
      obtain ⟨u, hu, hunit⟩ := hpart.root_mem
      exact hnone ⟨u, hpart.subset hu, hunit⟩
    · rw [← Bool.not_eq_true, hwhole.resolved_iff name node hnode]
      exact hnone
  · rintro ⟨⟨_, hreach⟩, node, hnode, hres⟩
    have hnone : ¬∃ u ∈ extractedUnits config.extraction library.inputs, u.unit = name := by
      rw [← hwhole.resolved_iff name node hnode, hres]
      exact Bool.false_ne_true
    refine ⟨?_, hnone⟩
    rcases (hg.mem_names_iff name).1 ((hpart.mem_names_iff hg hwhole name).2 hreach) with
      ⟨⟨u, hu, hunit⟩, _⟩ | ⟨e, he, rfl⟩
    · exact absurd ⟨u, hpart.subset hu, hunit⟩ hnone
    · obtain ⟨⟨u, hu, hs, hc⟩, _, hk, _, ht, _⟩ := (hg.mem_edges_iff e).1 he
      have hleads := (h.leads_iff hown e.source e.target).2 ⟨u, hu, hs, ⟨e.kind, hk, hc⟩, ht⟩
      exact (h.queued_iff_mem_names hown hqueue _).1 (h.closed _ _ hleads)

/-- No name was both not found and failed, and none twice. -/
theorem Traces.nodup_missing_append_failed (h : s.Traces config library root)
    (hown : library.SelfNamed) :
    (sortedDistinct ((s.visits.reverse.filter Visit.isMissing).map Visit.name) ++
      failedNames s.visits.reverse).Nodup := by
  refine List.nodup_append.2 ⟨nodup_sortedDistinct _, ?_, ?_⟩
  · have hnames : (s.visits.reverse.map Visit.name).Nodup := by
      rw [List.map_reverse, List.nodup_reverse]
      exact (List.nodup_append.1 h.nodup).1
    exact hnames.sublist (List.filter_sublist.map _)
  · rintro a ha b hb rfl
    have habsent := (h.mem_missing hown).1 (mem_sortedDistinct.1 ha)
    obtain ⟨failure, hfailed⟩ := mem_failedNames.1 hb
    simpa using h.visit_unique habsent (List.mem_reverse.1 hfailed) rfl

end Search

/-! ## Agreement -/

theorem length_failures_ofVisits (config : GraphConfig) (root : String) (visits : List Visit) :
    (ClosureResult.ofVisits config root visits).failures.length =
      (Search.failedNames visits).length := by
  rw [ClosureResult.ofVisits, List.length_mergeSort, Search.failedNames, List.length_map,
    List.length_filterMap_eq_countP, List.countP_eq_length_filter]

/-- The search from a root gives the part of the whole graph that the root reaches: the same nodes,
each with the same flag and edges. With unresolved targets kept, the names without a unit are the
missing dependencies of the root. -/
theorem analyzeClosure_agrees (hvalid : config.validate = .ok ()) (hown : library.SelfNamed)
    (hnormal : Name.normalize root = root) {bytes : List UInt8} {refs : UnitReferences}
    (hbytes : library.get? root = some bytes)
    (hrefs : extractReferences config.extraction root bytes = .ok refs)
    (hkept : config.graph.excludes root = false)
    {units : List UnitInput} (hunits : units.Perm library.inputs) :
    ∃ whole, analyzeBatch config false units = .ok whole ∧
      let closure := analyzeClosure config library root
      let failed := Search.failedNames (Search.visitsFrom config library root)
      (∀ name, name ∈ closure.graph.names ↔
        name = root ∨ name ∈ whole.graph.dependenciesOf root true) ∧
      (∀ name ∈ closure.graph.names, ∃ node node',
        closure.graph.nodeAt? name = some node ∧ whole.graph.nodeAt? name = some node' ∧
          node.resolved = node'.resolved ∧ node.outgoing = node'.outgoing) ∧
      closure.loaded = closure.graph.resolvedCount ∧
      (∀ name ∈ closure.missing, library.get? name = none) ∧
      (∀ name ∈ failed, ∃ bytes failure, library.get? name = some bytes ∧
        failureOf? config.extraction ⟨name, bytes⟩ = some failure ∧
        failure ∈ closure.failures) ∧
      closure.failures.length = failed.length ∧
      (config.graph.unresolved = .leaf →
        (closure.missing ++ failed).Perm (whole.graph.missingDependencies root)) := by
  obtain ⟨h, hqueue⟩ := Search.traces_final config library root
  have hmem := mem_extractedUnits_inputs.2 ⟨root, bytes, hbytes, hrefs⟩
  have hpart := h.reachablePart hown hqueue hmem (hown.unit_eq hbytes hrefs) hkept
  have hwhole : (runBatch config false units).graph.Depicts config.graph
      (extractedUnits config.extraction library.inputs) :=
    (depicts_runBatch config units).of_perm (hunits.filterMap _)
  refine ⟨runBatch config false units, by rw [analyzeBatch, hvalid], ?_⟩
  have hclosure : analyzeClosure config library root = .ofVisits config.graph root
      (Search.final config library root).visits.reverse := by
    rw [analyzeClosure, hnormal]
    rfl
  have hvisits : Search.visitsFrom config library root =
      (Search.final config library root).visits.reverse := rfl
  rw [hclosure, hvisits]
  generalize Search.final config library root = s at h hqueue hpart
  generalize runBatch config false units = whole at hwhole
  have hg : (ClosureResult.ofVisits config.graph root s.visits.reverse).graph.Depicts config.graph
      (s.visits.filterMap Visit.loaded?) :=
    (GraphBuilder.depicts_ingestAll config.graph _).of_perm
      ((List.reverse_perm s.visits).filterMap _)
  refine ⟨fun name => ?_, fun name hname => hpart.nodeAt?_agree hg hwhole hname, ?_, ?_, ?_,
    length_failures_ofVisits _ _ _, fun hleaf => ?_⟩
  · rw [hpart.mem_names_iff hg hwhole, Graph.mem_dependenciesOf hnormal]
    by_cases hname : name = root
    · simp [hname, Graph.Reaches, ReflTransGen.refl]
    · simp [hname]
  · rw [hpart.resolvedCount_eq hg]
    simp [ClosureResult.ofVisits]
  · intro name hname
    exact h.right _ ((h.mem_missing hown).1 (mem_sortedDistinct.1 hname))
  · intro name hname
    obtain ⟨failure, hv⟩ := Search.mem_failedNames.1 hname
    obtain ⟨bytes, hbytes, hf⟩ := h.right _ (List.mem_reverse.1 hv)
    refine ⟨bytes, failure, hbytes, hf, List.mem_mergeSort.2 ?_⟩
    exact List.mem_filterMap.2 ⟨_, hv, rfl⟩
  · refine (List.perm_ext_iff_of_nodup (h.nodup_missing_append_failed hown)
      (nodup_sortedDistinct _)).2 fun name => ?_
    rw [List.mem_append, mem_sortedDistinct, h.mem_missing hown, Search.mem_failedNames]
    simp only [List.mem_reverse]
    rw [h.missing_or_failed_iff hown, h.unresolved_iff hown hqueue hpart hleaf hg hwhole]
    exact (Graph.mem_missingDependencies hnormal).symm

/-- The class `A` extends `B`, whose class file is cut off, and implements `C`, which is absent. -/
theorem analyzeClosure_agrees_cut_superclass :
    let bytes : List UInt8 := [0xCA, 0xFE, 0xBA, 0xBE, 0, 0, 0, 52, 0, 7, 1, 0, 1, 65, 7, 0, 1,
      1, 0, 1, 66, 7, 0, 3, 1, 0, 1, 67, 7, 0, 5, 0, 0x21, 0, 2, 0, 4, 0, 1, 0, 6, 0, 0, 0, 0, 0, 0]
    let library : Library := SortedMap.ofList [("A", bytes), ("B", [0xCA])]
    let config := AnalysisConfig.default
    let closure := analyzeClosure config library "A"
    config.validate = .ok () ∧ library.SelfNamed ∧ config.graph.unresolved = .leaf ∧
      ∃ whole, analyzeBatch config false library.inputs = .ok whole ∧
        (∀ name, name ∈ closure.graph.names ↔
          name = "A" ∨ name ∈ whole.graph.dependenciesOf "A" true) ∧
        closure.loaded = closure.graph.resolvedCount ∧
        (closure.missing ++ Search.failedNames (Search.visitsFrom config library "A")).Perm
          (whole.graph.missingDependencies "A") := by
  intro bytes library config closure
  have hvalid : config.validate = .ok () := by decide
  have hlist : library.toList = [("A", bytes), ("B", [0xCA])] := by decide
  have hA : (CompiledUnit.decode bytes).map (·.name) = .ok "A" := by decide +kernel
  have hB : (CompiledUnit.decode [0xCA]).toOption.isSome = false := by decide +kernel
  have hown : library.SelfNamed := by
    intro name content u hcontent hu
    have hmem := SortedMap.mem_toList.2 hcontent
    simp only [hlist, List.mem_cons, Prod.mk.injEq, List.not_mem_nil, or_false] at hmem
    rcases hmem with ⟨rfl, rfl⟩ | ⟨rfl, rfl⟩
    · simpa [hu, Except.map] using hA
    · simp [hu, Except.toOption] at hB
  have hbytes : library.get? "A" = some bytes := SortedMap.mem_toList.1 (by simp [hlist])
  have hok : (extractReferences config.extraction "A" bytes).toOption.isSome = true := by
    decide +kernel
  have hleaf : config.graph.unresolved = .leaf := rfl
  cases hrefs : extractReferences config.extraction "A" bytes with
  | error e => simp [hrefs, Except.toOption] at hok
  | ok refs =>
    obtain ⟨whole, hrun, hnames, _, hloaded, _, _, _, hmissing⟩ :=
      analyzeClosure_agrees hvalid hown (by decide) hbytes hrefs (by decide) (.refl _)
    exact ⟨hvalid, hown, hleaf, whole, hrun, hnames, hloaded, hmissing hleaf⟩

end ClassAtlas
