import ClassAtlas.Analysis.Batch
import ClassAtlas.Proofs.Analysis.FailureOrder
import ClassAtlas.Proofs.Extraction.Cache
import ClassAtlas.Proofs.Graph.Ingestion

/-!
# The division of work

The units of a batch may be divided among any number of workers. Each worker processes its share in
some order with a cache of its own, and the outcomes reach the collector in any order. The result is
always that of processing the units one after the other, and it can be told unit by unit.

Three facts carry this: the outcome of a unit does not depend on the cache (`processAll_eq_map`),
the graph depends only on which units were taken (`GraphBuilder.finish_eq_of_perm`), and a list of
failures has one sorted form (`UnitFailure.sort_eq_of_perm`).
-/

namespace ClassAtlas

/-! ## The outcome of a unit -/

/-- The outcome of a unit that is processed by itself. -/
def outcomeOf (config : ExtractionConfig) (input : UnitInput) : UnitOutcome :=
  (processInput config false input .empty).1

theorem processUnit_eq (config : ExtractionConfig) (name : String) (bytes : List UInt8)
    {cache : DescriptorCache} (hc : cache.Sound) :
    (processUnit config name bytes cache).1 = (processUnit config name bytes .empty).1 ∧
      (processUnit config name bytes cache).2.Sound := by
  unfold processUnit
  split
  · exact ⟨rfl, hc⟩
  · next u hu =>
    obtain ⟨hr, hs⟩ := extractUnit_eq config u hc
    exact ⟨congrArg (Except.mapError _) hr, hs⟩

theorem processInput_eq (config : ExtractionConfig) (input : UnitInput) {cache : DescriptorCache}
    (hc : cache.Sound) :
    (processInput config false input cache).1 = outcomeOf config input ∧
      (processInput config false input cache).2.Sound := by
  obtain ⟨hr, hs⟩ := processUnit_eq config input.name input.bytes hc
  have hfst (c : DescriptorCache) : (processInput config false input c).1 =
      match (processUnit config input.name input.bytes c).1 with
      | .ok refs => .extracted refs
      | .error (unit, e) => .failed (.ofError unit e) := by
    rcases h : processUnit config input.name input.bytes c with ⟨⟨⟩ | _, _⟩ <;>
      simp [processInput, h]
  have hsnd (c : DescriptorCache) : (processInput config false input c).2 =
      (processUnit config input.name input.bytes c).2 := by
    rcases h : processUnit config input.name input.bytes c with ⟨⟨⟩ | _, _⟩ <;>
      simp [processInput, h]
  exact ⟨by rw [outcomeOf, hfst, hfst, hr], by rwa [hsnd]⟩

/-- A worker's cache does not show in the outcomes. -/
theorem processAll_eq_map (config : ExtractionConfig) (units : List UnitInput)
    {cache : DescriptorCache} (hc : cache.Sound) :
    (processAll config false units cache).1 = units.map (outcomeOf config) := by
  induction units generalizing cache with
  | nil => rfl
  | cons input rest ih =>
    obtain ⟨hr, hs⟩ := processInput_eq config input hc
    simp [processAll, hr, ih hs]

namespace UnitOutcome

def refs? : UnitOutcome → Option UnitReferences
  | extracted refs => some refs
  | _ => none

def failure? : UnitOutcome → Option UnitFailure
  | failed failure => some failure
  | _ => none

def skipped? : UnitOutcome → Option String
  | skipped name => some name
  | _ => none

end UnitOutcome

/-- The failure of a unit that is processed by itself. -/
def failureOf? (config : ExtractionConfig) (input : UnitInput) : Option UnitFailure :=
  match extractReferences config input.name input.bytes with
  | .error (.decode unit e) => some ⟨unit, e.kind, e.index?, e.offset?, e.message⟩
  | _ => none

/-- The references of the units of a batch that have any, each unit taken by itself. -/
def extractedUnits (config : ExtractionConfig) (units : List UnitInput) : List UnitReferences :=
  units.filterMap fun input => (extractReferences config input.name input.bytes).toOption

/-- The failures of the units of a batch, each unit taken by itself. -/
def failedUnits (config : ExtractionConfig) (units : List UnitInput) : List UnitFailure :=
  units.filterMap (failureOf? config)

/-- A unit is extracted or fails; it is not skipped, and its error is one of decoding. -/
theorem outcomeOf_cases (config : ExtractionConfig) (input : UnitInput) :
    (∃ refs, extractReferences config input.name input.bytes = .ok refs ∧
      outcomeOf config input = .extracted refs) ∨
    ∃ unit e, extractReferences config input.name input.bytes = .error (.decode unit e) ∧
      outcomeOf config input = .failed (.ofError unit e) := by
  rcases h : processUnit config input.name input.bytes .empty with ⟨⟨unit, e⟩ | refs, cache⟩
  · exact .inr ⟨unit, e, by simp [extractReferences, h, Except.mapError],
      by simp [outcomeOf, processInput, h]⟩
  · exact .inl ⟨refs, by simp [extractReferences, h, Except.mapError],
      by simp [outcomeOf, processInput, h]⟩

theorem refs?_outcomeOf (config : ExtractionConfig) (input : UnitInput) :
    (outcomeOf config input).refs? =
      (extractReferences config input.name input.bytes).toOption := by
  rcases outcomeOf_cases config input with ⟨refs, he, ho⟩ | ⟨unit, e, he, ho⟩ <;>
    simp [he, ho, UnitOutcome.refs?, Except.toOption]

theorem failure?_outcomeOf (config : ExtractionConfig) (input : UnitInput) :
    (outcomeOf config input).failure? = failureOf? config input := by
  rcases outcomeOf_cases config input with ⟨refs, he, ho⟩ | ⟨unit, e, he, ho⟩ <;>
    simp [he, ho, UnitOutcome.failure?, failureOf?, UnitFailure.ofError]

theorem skipped?_outcomeOf (config : ExtractionConfig) (input : UnitInput) :
    (outcomeOf config input).skipped? = none := by
  rcases outcomeOf_cases config input with ⟨refs, he, ho⟩ | ⟨unit, e, he, ho⟩ <;>
    simp [ho, UnitOutcome.skipped?]

theorem reported_of_mem_failedUnits {config : ExtractionConfig} {units : List UnitInput}
    {f : UnitFailure} (h : f ∈ failedUnits config units) : f.Reported := by
  obtain ⟨input, _, hf⟩ := List.mem_filterMap.1 h
  rcases outcomeOf_cases config input with ⟨refs, he, _⟩ | ⟨unit, e, he, _⟩
  · simp [failureOf?, he] at hf
  · simp only [failureOf?, he, Option.some.injEq] at hf
    exact ⟨unit, e, hf.symm⟩

/-- Each unit is extracted or fails. -/
theorem length_extractedUnits_add (config : ExtractionConfig) (units : List UnitInput) :
    (extractedUnits config units).length + (failedUnits config units).length = units.length := by
  induction units with
  | nil => rfl
  | cons input rest ih =>
    rw [extractedUnits, failedUnits] at ih ⊢
    rcases outcomeOf_cases config input with ⟨refs, he, _⟩ | ⟨unit, e, he, _⟩
    · have hr : (extractReferences config input.name input.bytes).toOption = some refs := by
        simp [he, Except.toOption]
      have hf : failureOf? config input = none := by simp [failureOf?, he]
      simp only [List.filterMap_cons, hr, hf, List.length_cons]
      omega
    · have hr : (extractReferences config input.name input.bytes).toOption = none := by
        simp [he, Except.toOption]
      obtain ⟨f, hf⟩ : ∃ f, failureOf? config input = some f := by simp [failureOf?, he]
      simp only [List.filterMap_cons, hr, hf, List.length_cons]
      omega

/-! ## The order of arrival -/

theorem GraphBuilder.finish_eq_of_perm (config : GraphConfig)
    {units units' : List UnitReferences} (hp : units.Perm units') :
    ((start config).ingestAll units).finish = ((start config).ingestAll units').finish ∧
      ((start config).ingestAll units).duplicates =
        ((start config).ingestAll units').duplicates := by
  refine ⟨((depicts_ingestAll config units).of_perm hp).unique (depicts_ingestAll config units'),
    ?_⟩
  have h := (holds_ingestAll config units).duplicated
  have h' := (holds_ingestAll config units').duplicated
  rw [List.toFinset_eq_of_perm _ _ (hp.map _), hp.length_eq] at h
  omega

namespace Collector

/-- What a collector has taken, told by the kind of outcome. -/
theorem foldl_accept (outcomes : List UnitOutcome) (c : Collector) :
    outcomes.foldl accept c =
      { builder := c.builder.ingestAll (outcomes.filterMap UnitOutcome.refs?)
        failures := (outcomes.filterMap UnitOutcome.failure?).reverse ++ c.failures
        skipped := (outcomes.filterMap UnitOutcome.skipped?).reverse ++ c.skipped
        extractedCount := c.extractedCount + (outcomes.filterMap UnitOutcome.refs?).length
        failedCount := c.failedCount + (outcomes.filterMap UnitOutcome.failure?).length
        skippedCount := c.skippedCount + (outcomes.filterMap UnitOutcome.skipped?).length } := by
  induction outcomes generalizing c with
  | nil => rfl
  | cons outcome rest ih =>
    rw [List.foldl_cons, ih]
    cases outcome <;>
      simp [accept, List.filterMap_cons, UnitOutcome.refs?, UnitOutcome.failure?,
        UnitOutcome.skipped?, GraphBuilder.ingestAll, Nat.add_comm, Nat.add_left_comm]

/-- The result of outcomes that arrive in some order of those of a batch. -/
theorem finish_foldl_accept (config : GraphConfig) (extraction : ExtractionConfig)
    {units : List UnitInput} {arrivals : List UnitOutcome}
    (h : arrivals.Perm (units.map (outcomeOf extraction))) :
    (arrivals.foldl accept (start config)).finish =
      { graph := ((GraphBuilder.start config).ingestAll (extractedUnits extraction units)).finish
        failures := (failedUnits extraction units).mergeSort UnitFailure.precedes
        skipped := []
        extractedCount := (extractedUnits extraction units).length
        failedCount := (failedUnits extraction units).length
        skippedCount := 0
        duplicateCount :=
          ((GraphBuilder.start config).ingestAll
            (extractedUnits extraction units)).duplicates } := by
  have hrefs : (arrivals.filterMap UnitOutcome.refs?).Perm (extractedUnits extraction units) := by
    simpa [List.filterMap_map, Function.comp_def, refs?_outcomeOf, extractedUnits] using
      h.filterMap UnitOutcome.refs?
  have hfailures :
      (arrivals.filterMap UnitOutcome.failure?).Perm (failedUnits extraction units) := by
    simpa [List.filterMap_map, Function.comp_def, failure?_outcomeOf, failedUnits] using
      h.filterMap UnitOutcome.failure?
  have hskipped : arrivals.filterMap UnitOutcome.skipped? = [] := by
    simpa [List.filterMap_map, Function.comp_def, skipped?_outcomeOf] using
      h.filterMap UnitOutcome.skipped?
  have hsort : (arrivals.filterMap UnitOutcome.failure?).mergeSort UnitFailure.precedes =
      (failedUnits extraction units).mergeSort UnitFailure.precedes :=
    UnitFailure.sort_eq_of_perm (fun f hf => reported_of_mem_failedUnits (hfailures.mem_iff.1 hf))
      hfailures
  obtain ⟨hgraph, hduplicates⟩ := GraphBuilder.finish_eq_of_perm config hrefs
  rw [foldl_accept]
  simp [finish, start, hskipped, hsort, hgraph, hduplicates, hrefs.length_eq,
    hfailures.length_eq]

end Collector

/-- The graph of a batch is that of the units that can be extracted by themselves. -/
theorem depicts_runBatch (config : AnalysisConfig) (units : List UnitInput) :
    (runBatch config false units).graph.Depicts config.graph
      (extractedUnits config.extraction units) := by
  rw [runBatch, processAll_eq_map _ _ DescriptorCache.sound_empty,
    Collector.finish_foldl_accept config.graph config.extraction (List.Perm.refl _)]
  exact GraphBuilder.depicts_ingestAll _ _

/-- Any division of a batch among workers and any order of arrival give the result of processing the
units one after the other. That is the graph of the units that can be extracted by themselves, with
the sorted list of the failures of the others. -/
theorem finish_eq_analyzeBatch {config : AnalysisConfig} (hvalid : config.validate = .ok ())
    {units : List UnitInput} {shares : List (List UnitInput)} (hshares : shares.flatten.Perm units)
    {arrivals : List UnitOutcome}
    (harrivals : arrivals.Perm
      (shares.flatMap fun share => (processAll config.extraction false share .empty).1)) :
    ∃ result, (arrivals.foldl Collector.accept (.start config.graph)).finish = result ∧
      analyzeBatch config false units = .ok result ∧
      result.graph = ((GraphBuilder.start config.graph).ingestAll
        (extractedUnits config.extraction units)).finish ∧
      result.failures.Perm (failedUnits config.extraction units) ∧
      result.failures.Pairwise (fun f f' => f.precedes f' = true) ∧
      result.skipped = [] ∧
      result.extractedCount = (extractedUnits config.extraction units).length ∧
      result.failedCount = (failedUnits config.extraction units).length ∧
      result.extractedCount + result.failedCount = units.length ∧
      result.skippedCount = 0 ∧
      result.duplicateCount = ((GraphBuilder.start config.graph).ingestAll
        (extractedUnits config.extraction units)).duplicates := by
  have houtcomes : arrivals.Perm (units.map (outcomeOf config.extraction)) := by
    refine harrivals.trans ?_
    simp only [processAll_eq_map _ _ DescriptorCache.sound_empty]
    rw [List.flatMap_def, ← List.map_flatten]
    exact hshares.map _
  have hsequential : runBatch config false units =
      (arrivals.foldl Collector.accept (.start config.graph)).finish := by
    rw [runBatch, processAll_eq_map _ _ DescriptorCache.sound_empty,
      Collector.finish_foldl_accept config.graph config.extraction (List.Perm.refl _),
      Collector.finish_foldl_accept config.graph config.extraction houtcomes]
  refine ⟨_, rfl, by rw [analyzeBatch, hvalid, hsequential], ?_⟩
  rw [Collector.finish_foldl_accept config.graph config.extraction houtcomes]
  exact ⟨rfl, List.mergeSort_perm _ _, UnitFailure.pairwise_sort _, rfl, rfl, rfl,
    length_extractedUnits_add _ _, rfl, rfl⟩

/-- The class `A` has a field of type `B`, and `B` extends `A`. One worker gets `A`, a file that is
cut off, and `A` once more, the other one gets `B`, and the outcomes arrive in reverse. -/
theorem finish_eq_analyzeBatch_two_workers :
    let a : UnitInput := ⟨"A", [0xCA, 0xFE, 0xBA, 0xBE, 0, 0, 0, 52, 0, 5, 1, 0, 1, 65, 7, 0, 1,
      1, 0, 1, 102, 1, 0, 3, 76, 66, 59, 0, 0x21, 0, 2, 0, 0, 0, 0,
      0, 1, 0, 0, 0, 3, 0, 4, 0, 0, 0, 0, 0, 0]⟩
    let b : UnitInput := ⟨"B", [0xCA, 0xFE, 0xBA, 0xBE, 0, 0, 0, 52, 0, 5, 1, 0, 1, 66, 7, 0, 1,
      1, 0, 1, 65, 7, 0, 3, 0, 0x21, 0, 2, 0, 4, 0, 0, 0, 0, 0, 0, 0, 0]⟩
    let cut : UnitInput := ⟨"a/Cut", [0xCA, 0xFE, 0xBA, 0xBE, 0]⟩
    let config := AnalysisConfig.default
    let outcomes := [[a, cut, a], [b]].flatMap fun share =>
      (processAll config.extraction false share .empty).1
    config.validate = .ok () ∧
      ∃ result, (outcomes.reverse.foldl Collector.accept (.start config.graph)).finish = result ∧
        analyzeBatch config false [b, a, cut, a] = .ok result ∧
        result.failures.Perm (failedUnits config.extraction [b, a, cut, a]) ∧
        result.graph.edges =
          [⟨"A", "B", .fieldType, .ofNat 2⟩, ⟨"B", "A", .superclass, .ofNat 1⟩] ∧
        result.extractedCount = 3 ∧ result.failedCount = 1 ∧ result.duplicateCount = 1 := by
  intro a b cut config outcomes
  have hvalid : config.validate = .ok () := by decide
  have hshares : [[a, cut, a], [b]].flatten.Perm [b, a, cut, a] :=
    List.perm_append_singleton b [a, cut, a]
  obtain ⟨result, hfinish, hbatch, _, hfailures, _⟩ :=
    finish_eq_analyzeBatch hvalid hshares (List.reverse_perm outcomes)
  have hvalues : (analyzeBatch config false [b, a, cut, a]).toOption.map
      (fun r => (r.graph.edges, r.extractedCount, r.failedCount, r.duplicateCount)) =
        some ([⟨"A", "B", .fieldType, .ofNat 2⟩, ⟨"B", "A", .superclass, .ofNat 1⟩], 3, 1, 1) := by
    decide +kernel
  rw [hbatch, Except.toOption, Option.map_some, Option.some.injEq, Prod.mk.injEq, Prod.mk.injEq,
    Prod.mk.injEq] at hvalues
  exact ⟨hvalid, result, hfinish, hbatch, hfailures, hvalues⟩

end ClassAtlas
