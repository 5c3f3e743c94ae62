import ClassAtlas.Analysis.Failure
import ClassAtlas.Graph.Builder

/-!
# Analysis of a batch of units

Each unit is decoded and its references are extracted; the outcomes are collected into a graph and
lists of failures. A `Collector` takes outcomes in any order.

`analyzeBatch` processes the units one after the other with one cache of descriptors.
-/

namespace ClassAtlas

/-- A class file and the name it is supplied under. -/
structure UnitInput where
  name : String
  bytes : List UInt8

/-- What became of one unit. -/
inductive UnitOutcome where
  | extracted (refs : UnitReferences)
  | failed (failure : UnitFailure)
  /-- The unit was not looked at, because the analysis was cancelled. -/
  | skipped (name : String)

/-- The outcomes taken so far. -/
structure Collector where
  builder : GraphBuilder
  /-- The latest first. -/
  failures : List UnitFailure
  /-- The latest first. -/
  skipped : List String
  extractedCount : Nat
  failedCount : Nat
  skippedCount : Nat

/-- The result of an analysis. -/
structure BatchResult where
  graph : Graph
  /-- By unit and message. -/
  failures : List UnitFailure
  /-- In order. -/
  skipped : List String
  extractedCount : Nat
  failedCount : Nat
  skippedCount : Nat
  duplicateCount : Nat
  deriving DecidableEq

namespace Collector

def start (config : GraphConfig) : Collector := ⟨.start config, [], [], 0, 0, 0⟩

/-- Takes an outcome. -/
def accept (c : Collector) : UnitOutcome → Collector
  | .extracted refs =>
    { c with builder := c.builder.ingest refs, extractedCount := c.extractedCount + 1 }
  | .failed failure =>
    { c with failures := failure :: c.failures, failedCount := c.failedCount + 1 }
  | .skipped name => { c with skipped := name :: c.skipped, skippedCount := c.skippedCount + 1 }

/-- The result of all outcomes taken. Failures with the same unit and message stay in the order in
which they were taken. -/
def finish (c : Collector) : BatchResult where
  graph := c.builder.finish
  failures := c.failures.reverse.mergeSort UnitFailure.precedes
  skipped := c.skipped.mergeSort fun a b => (compare a b).isLE
  extractedCount := c.extractedCount
  failedCount := c.failedCount
  skippedCount := c.skippedCount
  duplicateCount := c.builder.duplicates

end Collector

namespace BatchResult

/-- Every unit is in the graph. -/
def isComplete (r : BatchResult) : Bool := r.failures.isEmpty && r.skipped.isEmpty

/-- The first failure of the unit that a given name stands for. -/
def failure? (r : BatchResult) (name : String) : Option UnitFailure :=
  r.failures.find? (·.unit = Name.normalize name)

end BatchResult

/-- The outcome of one unit, with the cache afterwards. -/
def processInput (config : ExtractionConfig) (cancelled : Bool) (input : UnitInput)
    (cache : DescriptorCache) : UnitOutcome × DescriptorCache :=
  if cancelled then (.skipped (Name.normalize input.name), cache)
  else
    match processUnit config input.name input.bytes cache with
    | (.ok refs, cache) => (.extracted refs, cache)
    | (.error (unit, e), cache) => (.failed (.ofError unit e), cache)

/-- The outcomes of units processed one after the other, with the cache afterwards. -/
def processAll (config : ExtractionConfig) (cancelled : Bool) :
    List UnitInput → DescriptorCache → List UnitOutcome × DescriptorCache
  | [], cache => ([], cache)
  | input :: rest, cache =>
    let (first, cache) := processInput config cancelled input cache
    let (others, cache) := processAll config cancelled rest cache
    (first :: others, cache)

/-- The result of an analysis of a batch under a valid configuration. -/
def runBatch (config : AnalysisConfig) (cancelled : Bool) (units : List UnitInput) : BatchResult :=
  let outcomes := (processAll config.extraction cancelled units .empty).1
  (outcomes.foldl Collector.accept (.start config.graph)).finish

/-- Analyses a batch of units; fails only on an invalid configuration. -/
def analyzeBatch (config : AnalysisConfig) (cancelled : Bool) (units : List UnitInput) :
    Except AnalysisError BatchResult :=
  match config.validate with
  | .ok () => .ok (runBatch config cancelled units)
  | .error e => .error (.config e)

end ClassAtlas
