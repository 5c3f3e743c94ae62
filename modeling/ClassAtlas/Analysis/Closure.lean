import ClassAtlas.Analysis.Failure
import ClassAtlas.Graph.Builder

/-!
# Analysis from a root

Starting from one unit, units are looked up by name as references to them are found, breadth first.
Names that cannot be found are missing. Only references that can become edges are followed.

The search is a list of `Visit`s, one for each name looked up, in order; the result is read off that
list. In each round the search passes over names that cannot be found and loads the next unit that
can. Every name is looked up once, so there are no more rounds than units to look up.
-/

namespace ClassAtlas

/-- The class files that can be looked up, by name. -/
abbrev Library := SortedMap String (List UInt8)

/-- What a look-up gave. -/
inductive Finding where
  | absent
  | failed (failure : UnitFailure)
  /-- A unit was loaded, whatever name it declares. -/
  | loaded (refs : UnitReferences)
  /-- A unit was found that had been loaded under another name. -/
  | known (refs : UnitReferences)

/-- A name that was looked up, and what came of it. -/
structure Visit where
  name : String
  finding : Finding

namespace Visit

/-- The name has no unit: nothing was found, or a unit that declares another name. -/
def isMissing (v : Visit) : Bool :=
  match v.finding with
  | .absent => true
  | .failed _ => false
  | .loaded refs | .known refs => refs.unit ≠ v.name

def failure? (v : Visit) : Option UnitFailure :=
  match v.finding with
  | .failed failure => some failure
  | _ => none

def loaded? (v : Visit) : Option UnitReferences :=
  match v.finding with
  | .loaded refs => some refs
  | _ => none

end Visit

/-- A search in progress. -/
structure Search where
  /-- The names still to be looked up, in order. -/
  queue : List String
  /-- The names that need not be queued again. -/
  queued : SortedSet String
  /-- The declared names of the units loaded. -/
  loaded : SortedSet String
  /-- What was looked up so far, the latest first. -/
  visits : List Visit
  cache : DescriptorCache

namespace Search

def start (root : String) : Search :=
  ⟨[root], SortedSet.ofElements [root], ∅, [], .empty⟩

/-- Puts a name at the end of the queue unless it was queued before. -/
def enqueue (s : Search) (name : String) : Search :=
  if s.queued.contains name then s
  else { s with queue := s.queue ++ [name], queued := s.queued.add name }

/-- The units that references lead to, as far as the configuration follows them. -/
def targets (config : GraphConfig) (refs : UnitReferences) : List String :=
  sortedDistinct <| ((refs.counts.keys.filter fun link => config.includes link.kind).map
    Link.unit).filter fun name => !config.excludes name

/-- Notes what a look-up gave. -/
def note (s : Search) (name : String) (finding : Finding) : Search :=
  { s with visits := ⟨name, finding⟩ :: s.visits }

/-- Looks at the unit found under `name`. -/
def load (config : AnalysisConfig) (name : String) (bytes : List UInt8) (s : Search) : Search :=
  let (outcome, cache) := processUnit config.extraction name bytes s.cache
  let s := { s with cache }
  match outcome with
  | .error (unit, e) => s.note name (.failed (.ofError unit e))
  | .ok refs =>
    if s.loaded.contains refs.unit then s.note name (.known refs)
    else
      let s := s.note name (.loaded refs)
      let s := { s with loaded := s.loaded.add refs.unit, queued := s.queued.add refs.unit }
      (targets config.graph refs).foldl enqueue s

/-- Passes over the names at the head of the queue that cannot be found. -/
def passAbsent (library : Library) (s : Search) : Search :=
  let absent := s.queue.takeWhile fun name => !library.contains name
  { s with
    queue := s.queue.dropWhile fun name => !library.contains name
    visits := (absent.map fun name => ⟨name, .absent⟩).reverse ++ s.visits }

/-- Makes at most so many rounds. -/
def run (config : AnalysisConfig) (library : Library) : Nat → Search → Search
  | 0, s => s
  | n + 1, s =>
    let s := s.passAbsent library
    match s.queue with
    | [] => s
    | name :: queue =>
      match library.get? name with
      | none => s
      | some bytes => run config library n (load config name bytes { s with queue })

/-- The visits of a whole search, in order. -/
def visitsFrom (config : AnalysisConfig) (library : Library) (root : String) : List Visit :=
  (run config library (library.size + 1) (start root)).visits.reverse

end Search

/-- The result of an analysis from a root. -/
structure ClosureResult where
  root : String
  graph : Graph
  /-- The names that were looked for and not found, in order. -/
  missing : List String
  /-- By unit; failures of one unit stay in the order of the search. -/
  failures : List UnitFailure
  /-- The number of units loaded. -/
  loaded : Nat
  deriving DecidableEq

namespace ClosureResult

/-- Nothing is missing and nothing failed. -/
def isClosed (r : ClosureResult) : Bool := r.missing.isEmpty && r.failures.isEmpty

/-- The result of a search. -/
def ofVisits (config : GraphConfig) (root : String) (visits : List Visit) : ClosureResult where
  root
  graph := ((GraphBuilder.start config).ingestAll (visits.filterMap Visit.loaded?)).finish
  missing := sortedDistinct ((visits.filter Visit.isMissing).map Visit.name)
  failures := (visits.filterMap Visit.failure?).mergeSort fun a b => (compare a.unit b.unit).isLE
  loaded := (visits.filterMap Visit.loaded?).length

end ClosureResult

/-- Analyses the units that can be reached from a root. -/
def analyzeClosure (config : AnalysisConfig) (library : Library) (root : String) : ClosureResult :=
  let root := Name.normalize root
  .ofVisits config.graph root (Search.visitsFrom config library root)

end ClassAtlas
