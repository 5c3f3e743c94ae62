import ClassAtlas.Proofs.Analysis.Scheduling
import ClassAtlas.Proofs.Extraction.Richer

/-!
# Richer configurations

A configuration that asks for more references and keeps more kinds of edges gives a larger graph, if
all units can be extracted under it: no node and no edge is lost, and no edge counts less. That the
units can be extracted is needed, because a fault in what only the richer configuration reads makes
a whole unit fail.

## Main definitions

* `AnalysisConfig.Within` compares configurations that differ in what they ask for and keep.
* `Graph.Within` compares graphs.

## Main statements

* `Graph.Depicts.within` compares the graphs of units under two configurations.
* `analyzeBatch_mono` compares the analyses of a batch under two configurations.
-/

namespace ClassAtlas

/-- The richer section keeps every kind that the other one keeps, and treats units alike. -/
structure GraphConfig.Within (config richer : GraphConfig) : Prop where
  kinds : ∀ kind, config.includes kind = true → richer.includes kind = true
  unresolved : config.unresolved = richer.unresolved
  excluded : config.excluded = richer.excluded

/-- The richer configuration asks for everything and keeps everything that the other one does. -/
structure AnalysisConfig.Within (config richer : AnalysisConfig) : Prop where
  graph : config.graph.Within richer.graph
  extraction : config.extraction.Within richer.extraction

/-- The nodes and the edges of a graph are in the richer one, with the same flags and with counts
that are no smaller. -/
structure Graph.Within (g richer : Graph) : Prop where
  nodes : ∀ name node, g.nodeAt? name = some node →
    ∃ node', richer.nodeAt? name = some node' ∧ node'.resolved = node.resolved
  edges : ∀ e ∈ g.edges, ∃ n, (⟨e.source, e.target, e.kind, n⟩ : Edge) ∈ richer.edges ∧
    e.count.val ≤ n.val

/-- The references of the unit can be extracted. -/
def UnitInput.Extracts (config : ExtractionConfig) (input : UnitInput) : Prop :=
  ∃ refs, extractReferences config input.name input.bytes = .ok refs

/-! ## Units -/

theorem UnitReferences.Within.count_le {refs richer : UnitReferences} (h : refs.Within richer)
    (target : String) (kind : EdgeKind) :
    (refs.count target kind).val ≤ (richer.count target kind).val := by
  rw [UnitReferences.count, UnitReferences.count]
  cases hn : refs.counts.get? ⟨target, kind⟩ with
  | none => exact Nat.zero_le _
  | some n =>
    obtain ⟨m, hm, hle⟩ := h.counts _ n hn
    rwa [hm]

section

variable {units richer : List UnitReferences} (h : List.Forall₂ UnitReferences.Within units richer)
include h

theorem exists_within_of_mem {u : UnitReferences} (hu : u ∈ units) :
    ∃ v ∈ richer, u.Within v := by
  induction h with
  | nil => cases hu
  | cons hfirst _ ih =>
    rcases List.mem_cons.1 hu with rfl | hu
    · exact ⟨_, List.mem_cons_self, hfirst⟩
    · obtain ⟨v, hv, hwithin⟩ := ih hu
      exact ⟨v, List.mem_cons_of_mem _ hv, hwithin⟩

theorem exists_unit_iff (name : String) :
    (∃ u ∈ units, u.unit = name) ↔ ∃ u ∈ richer, u.unit = name := by
  induction h with
  | nil => rfl
  | cons hfirst _ ih => simp only [List.exists_mem_cons_iff, hfirst.unit, ih]

/-- The units of a name mention a target at least as often in all. -/
theorem sumOf_count_le (name target : String) (kind : EdgeKind) :
    sumOf (fun u => (u.count target kind).val) (units.filter (·.unit = name)) ≤
      sumOf (fun u => (u.count target kind).val) (richer.filter (·.unit = name)) := by
  induction h with
  | nil => exact Nat.le_refl _
  | @cons u v _ _ hfirst _ ih =>
    by_cases hname : v.unit = name
    · have hu : u.unit = name := hfirst.unit.trans hname
      simpa [hu, hname] using Nat.add_le_add (hfirst.count_le target kind) ih
    · have hu : u.unit ≠ name := hfirst.unit ▸ hname
      simpa [hu, hname] using ih

end

/-! ## Graphs -/

/-- The graph of units that refer to more, under a configuration that keeps more. -/
theorem Graph.Depicts.within {g g' : Graph} {config richer : GraphConfig}
    {units units' : List UnitReferences} (h : g.Depicts config units)
    (h' : g'.Depicts richer units') (hconfig : config.Within richer)
    (hunits : List.Forall₂ UnitReferences.Within units units') : g.Within g' := by
  have hexcludes (name : String) : config.excludes name = richer.excludes name := by
    rw [GraphConfig.excludes, hconfig.excluded, GraphConfig.excludes]
  have hedges : ∀ e ∈ g.edges, ∃ n, (⟨e.source, e.target, e.kind, n⟩ : Edge) ∈ g'.edges ∧
      e.count.val ≤ n.val := by
    intro e he
    obtain ⟨⟨u, hu, hsource, hlink⟩, hne, hkind, hleft, hright, htarget, hcount⟩ :=
      (h.mem_edges_iff e).1 he
    obtain ⟨v, hv, hwithin⟩ := exists_within_of_mem hunits hu
    obtain ⟨n, hn⟩ := Option.isSome_iff_exists.1 hlink
    obtain ⟨m, hm, -⟩ := hwithin.counts _ n hn
    rw [hexcludes] at hleft hright
    rw [hconfig.unresolved, exists_unit_iff hunits] at htarget
    have hle := sumOf_count_le hunits e.source e.target e.kind
    refine ⟨.ofNat (sumOf (fun u => (u.count e.target e.kind).val)
      (units'.filter (·.unit = e.source))), (h'.mem_edges_iff _).2 ?_, ?_⟩
    · exact ⟨⟨v, hv, hwithin.unit ▸ hsource, Option.isSome_iff_exists.2 ⟨m, hm⟩⟩, hne,
        hconfig.kinds _ hkind, hleft, hright, htarget, rfl⟩
    · rw [hcount, Count.val_ofNat]
      omega
  refine ⟨fun name node hnode => ?_, hedges⟩
  have hname : name ∈ g'.names := by
    rw [h'.mem_names_iff, ← exists_unit_iff hunits, ← hexcludes]
    rcases (h.mem_names_iff name).1 (Graph.mem_names.2 ⟨node, hnode⟩) with hunit | ⟨e, he, rfl⟩
    · exact .inl hunit
    · obtain ⟨n, hn, -⟩ := hedges e he
      exact .inr ⟨_, hn, rfl⟩
  obtain ⟨node', hnode'⟩ := Graph.mem_names.1 hname
  refine ⟨node', hnode', ?_⟩
  rw [Bool.eq_iff_iff, h'.resolved_iff name node' hnode', h.resolved_iff name node hnode,
    exists_unit_iff hunits]

/-! ## Batches -/

/-- A unit that is extracted under the richer configuration is extracted under the other one. -/
theorem exists_within_of_extractReferences {config richer : ExtractionConfig}
    (hconfig : config.Within richer) {name : String} {bytes : List UInt8} {refs : UnitReferences}
    (h : extractReferences richer name bytes = .ok refs) :
    ∃ fewer, extractReferences config name bytes = .ok fewer ∧ fewer.Within refs := by
  have hprocess := ok_of_mapError_eq_ok h
  unfold extractReferences
  unfold processUnit at hprocess ⊢
  cases hdecode : CompiledUnit.decode bytes with
  | error e =>
    rw [hdecode] at hprocess
    cases hprocess
  | ok u =>
    rw [hdecode] at hprocess
    obtain ⟨fewer, hfewer, hwithin⟩ :=
      exists_within_of_extractUnit hconfig u (ok_of_mapError_eq_ok hprocess)
    refine ⟨fewer, ?_, hwithin⟩
    simp only [hfewer, Except.mapError]

theorem forall₂_extractedUnits {config richer : ExtractionConfig} (hconfig : config.Within richer)
    {units : List UnitInput} (h : ∀ input ∈ units, input.Extracts richer) :
    List.Forall₂ UnitReferences.Within (extractedUnits config units)
      (extractedUnits richer units) := by
  induction units with
  | nil => exact .nil
  | cons input units ih =>
    rw [List.forall_mem_cons] at h
    obtain ⟨refs, hrefs⟩ := h.1
    obtain ⟨fewer, hfewer, hwithin⟩ := exists_within_of_extractReferences hconfig hrefs
    have hrest := ih h.2
    rw [extractedUnits, extractedUnits] at hrest ⊢
    simp only [List.filterMap_cons, hrefs, hfewer, Except.toOption]
    exact .cons hwithin hrest

theorem graph_within_of_extracts {config richer : AnalysisConfig} (hconfig : config.Within richer)
    {units : List UnitInput} (h : ∀ input ∈ units, input.Extracts richer.extraction) :
    (runBatch config false units).graph.Within (runBatch richer false units).graph :=
  (depicts_runBatch config units).within (depicts_runBatch richer units) hconfig.graph
    (forall₂_extractedUnits hconfig.extraction h)

theorem extracts_of_within {config richer : ExtractionConfig} (hconfig : config.Within richer)
    {input : UnitInput} (h : input.Extracts richer) : input.Extracts config := by
  obtain ⟨refs, hrefs⟩ := h
  obtain ⟨fewer, hfewer, -⟩ := exists_within_of_extractReferences hconfig hrefs
  exact ⟨fewer, hfewer⟩

/-- Of two presets the first asks for less and keeps less. -/
theorem AnalysisConfig.within_ofPreset :
    (ofPreset .structural).Within (ofPreset .runtime) ∧
      (ofPreset .runtime).Within (ofPreset .full) := by
  refine ⟨⟨⟨?_, rfl, rfl⟩, by decide, by decide, by decide⟩,
    ⟨⟨?_, rfl, rfl⟩, by decide, by decide, by decide⟩⟩
  · intro kind
    cases kind <;> decide
  · intro kind
    cases kind <;> decide

/-- Richer configurations lose nothing. If every unit can be extracted under the richer of two
configurations, every unit can be under the other one, whose graph lies within that of the richer
one. So the graphs of the presets lie within each other. -/
theorem analyzeBatch_mono :
    (∀ (config richer : AnalysisConfig) (units : List UnitInput),
      config.validate = .ok () → richer.validate = .ok () → config.Within richer →
      (∀ input ∈ units, input.Extracts richer.extraction) →
        (∀ input ∈ units, input.Extracts config.extraction) ∧
        ∃ result result', analyzeBatch config false units = .ok result ∧
          analyzeBatch richer false units = .ok result' ∧ result.graph.Within result'.graph) ∧
    ∀ units : List UnitInput, (∀ input ∈ units, input.Extracts (.ofPreset .full)) →
      ∃ structural runtime full, analyzeBatch (.ofPreset .structural) false units = .ok structural ∧
        analyzeBatch (.ofPreset .runtime) false units = .ok runtime ∧
        analyzeBatch (.ofPreset .full) false units = .ok full ∧
        structural.graph.Within runtime.graph ∧ runtime.graph.Within full.graph := by
  have hrun {config : AnalysisConfig} (hvalid : config.validate = .ok ()) (units : List UnitInput) :
      analyzeBatch config false units = .ok (runBatch config false units) := by
    rw [analyzeBatch, hvalid]
  constructor
  · intro config richer units hvalid hvalid' hwithin hunits
    refine ⟨fun input hinput => extracts_of_within hwithin.extraction (hunits input hinput), ?_⟩
    exact ⟨_, _, hrun hvalid units, hrun hvalid' units, graph_within_of_extracts hwithin hunits⟩
  · intro units hunits
    obtain ⟨hstructural, hruntime⟩ := AnalysisConfig.within_ofPreset
    refine ⟨_, _, _, hrun (by decide) units, hrun (by decide) units, hrun (by decide) units, ?_,
      graph_within_of_extracts hruntime hunits⟩
    refine graph_within_of_extracts hstructural fun input hinput => ?_
    exact extracts_of_within hruntime.extraction (hunits input hinput)

/-- The class `A` extends `B` and has an invisible annotation of type `C`. -/
def annotatedUnit : UnitInput :=
  ⟨"A", [0xCA, 0xFE, 0xBA, 0xBE, 0, 0, 0, 52, 0, 7, 1, 0, 1, 65, 7, 0, 1, 1, 0, 1, 66, 7, 0, 3,
    1, 0, 27, 82, 117, 110, 116, 105, 109, 101, 73, 110, 118, 105, 115, 105, 98, 108, 101, 65, 110,
    110, 111, 116, 97, 116, 105, 111, 110, 115, 1, 0, 3, 76, 67, 59, 0, 0x21, 0, 2, 0, 4, 0, 0,
    0, 0, 0, 0, 0, 1, 0, 5, 0, 0, 0, 6, 0, 1, 0, 6, 0, 0]⟩

theorem analyzeBatch_mono_annotated :
    annotatedUnit.Extracts (.ofPreset .runtime) ∧
      ∃ runtime full, analyzeBatch (.ofPreset .runtime) false [annotatedUnit] = .ok runtime ∧
        analyzeBatch (.ofPreset .full) false [annotatedUnit] = .ok full ∧
        runtime.graph.Within full.graph ∧
        ⟨"A", "C", .annotationRef, .ofNat 1⟩ ∈ full.graph.edges := by
  have hextracts : ∀ input ∈ [annotatedUnit], input.Extracts (.ofPreset .full) := by
    rw [List.forall_mem_singleton]
    exact exists_of_isOk (by decide +kernel)
  obtain ⟨hruntime, runtime, full, hr, hf, hwithin⟩ := analyzeBatch_mono.1 (.ofPreset .runtime)
    (.ofPreset .full) [annotatedUnit] (by decide) (by decide) AnalysisConfig.within_ofPreset.2
    hextracts
  refine ⟨hruntime _ List.mem_cons_self, runtime, full, hr, hf, hwithin, ?_⟩
  have hedge : ⟨"A", "C", .annotationRef, .ofNat 1⟩ ∈
      (runBatch (.ofPreset .full) false [annotatedUnit]).graph.edges := by decide +kernel
  have hfull : analyzeBatch (.ofPreset .full) false [annotatedUnit] =
      .ok (runBatch (.ofPreset .full) false [annotatedUnit]) := rfl
  cases hfull.symm.trans hf
  exact hedge

end ClassAtlas
