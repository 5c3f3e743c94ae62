import ClassAtlas.Analysis.Batch
import ClassAtlas.Analysis.Closure
import ClassAtlas.Text.Decimal

/-!
# Journals

What an analysis reports about its course, as a list of events. The events are read off the inputs
and the results, so no analysis depends on them. Elapsed times are not kept.
-/

namespace ClassAtlas

/-- How important an event is. -/
inductive EventLevel where
  | debug
  | info
  | warn
  deriving DecidableEq

def EventLevel.label : EventLevel → String
  | debug => "DEBUG"
  | info => "INFO"
  | warn => "WARN"

/-- Something worth reporting. -/
structure Event where
  level : EventLevel
  text : String
  deriving DecidableEq

namespace Journal

/-- A unit supplied under `name` was decoded. -/
def decoded (name : String) (u : CompiledUnit) : List Event :=
  let hint := Name.normalize name
  let surprise : List Event :=
    if hint.isEmpty || hint == u.name then []
    else
      [⟨.warn,
        s!"Unit supplied as '{hint}' declares itself as '{u.name}'; using the declared name"⟩]
  surprise ++ [⟨.debug,
    s!"Decoded {u.name} (version {u.version.text}, {u.pool.size} pool entries, " ++
      s!"{u.classFile.fields.length} fields, {u.classFile.methods.length} methods)"⟩]

/-- The references of a unit were extracted. -/
def extracted (refs : UnitReferences) : Event :=
  ⟨.debug, s!"Extracted {refs.total} references to {refs.targets.length} units from {refs.unit}"⟩

/-- A unit was decoded, and its references were extracted if there are any. -/
def ofExtraction (name : String) (bytes : List UInt8) (refs? : Option UnitReferences) :
    List Event :=
  match CompiledUnit.decode bytes with
  | .error _ => []
  | .ok u => decoded name u ++ (refs?.map extracted).toList

/-- A unit failed. -/
def failed (f : UnitFailure) : Event := ⟨.warn, s!"Skipping unit {f.unit}: {f.message}"⟩

/-- Units were put into a graph one after the other; `seen` are the names of earlier ones. -/
def ingested (seen : List String) (refs : UnitReferences) : List Event :=
  if seen.contains refs.unit then
    [⟨.warn, s!"Unit {refs.unit} ingested more than once; merging its references"⟩]
  else []

/-- A graph was finished. -/
def finished (g : Graph) : Event :=
  ⟨.debug,
    s!"Finished graph: {g.nodeCount} nodes ({g.resolvedCount} resolved), {g.edgeCount} edges"⟩

/-- Units were put into a graph one after the other. -/
def ofIngests : List String → List UnitReferences → List Event
  | _, [] => []
  | seen, refs :: rest => ingested seen refs ++ ofIngests (refs.unit :: seen) rest

/-- A unit of a batch was processed and its outcome was collected. -/
def ofOutcome (seen : List String) (input : UnitInput) : UnitOutcome → List Event
  | .extracted refs => ofExtraction input.name input.bytes (some refs) ++ ingested seen refs
  | .failed f => ofExtraction input.name input.bytes none ++ [failed f]
  | .skipped _ => []

/-- The units of a batch were processed one after the other. -/
def ofOutcomes : List String → List (UnitInput × UnitOutcome) → List Event
  | _, [] => []
  | seen, (input, outcome) :: rest =>
    let seen' := match outcome with
      | .extracted refs => refs.unit :: seen
      | _ => seen
    ofOutcome seen input outcome ++ ofOutcomes seen' rest

/-- The analysis of a batch by one worker. -/
def ofBatch (config : AnalysisConfig) (cancelled : Bool) (units : List UnitInput) : List Event :=
  let (outcomes, cache) := processAll config.extraction cancelled units .empty
  let result := runBatch config cancelled units
  let workers := (config.work.effectiveWorkers?).getD 1
  [⟨.info,
    s!"Analyzing {units.length} units with {workers} workers ({config.preset.label} preset)"⟩] ++
    ofOutcomes [] (units.zip outcomes) ++
    [⟨.debug,
        s!"Descriptor cache: {cache.entries.size} entries, " ++
          s!"{Text.oneDecimal (cache.hitRate * 100.0)}% hit rate"⟩,
      finished result.graph,
      ⟨.info,
        s!"Analysis finished: {result.extractedCount} units extracted, " ++
          s!"{result.failedCount} failed, {result.skippedCount} skipped; " ++
          s!"{result.graph.nodeCount} nodes, {result.graph.edgeCount} edges in _ms"⟩]

/-- A name was looked up in an analysis from a root. -/
def ofVisit (library : Library) (v : Visit) : List Event :=
  let bytes := (library.get? v.name).getD []
  match v.finding with
  | .absent => [⟨.debug, s!"Closure: {v.name} not found"⟩]
  | .failed f => ofExtraction v.name bytes none ++ [failed f]
  | .loaded refs | .known refs =>
    ofExtraction v.name bytes (some refs) ++
      if refs.unit = v.name then []
      else
        [⟨.warn,
          s!"Closure: lookup for {v.name} returned {refs.unit}, treating {v.name} as missing"⟩]

/-- The analysis from a root. -/
def ofClosure (config : AnalysisConfig) (library : Library) (root : String) : List Event :=
  let visits := Search.visitsFrom config library (Name.normalize root)
  let result := analyzeClosure config library root
  visits.flatMap (ofVisit library) ++
    [finished result.graph,
      ⟨.info,
        s!"Closure of {result.root}: {result.loaded} loaded, {result.missing.length} missing, " ++
          s!"{result.failures.length} failed in _ms"⟩]

end Journal

end ClassAtlas
