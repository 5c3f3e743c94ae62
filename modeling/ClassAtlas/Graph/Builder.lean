import ClassAtlas.Config.Basic
import ClassAtlas.Extraction.References
import ClassAtlas.Graph.Basic

/-!
# Building graphs

A `GraphBuilder` takes the references of units in any order. It only adds numbers up; what the
configuration leaves out is dropped at the end, when all supplied units are known.
-/

namespace ClassAtlas

/-- The references taken so far. -/
structure GraphBuilder where
  config : GraphConfig
  outgoing : SortedMap String (SortedMap Link Count)
  ingested : Nat
  /-- How many units came under a name that was there already. -/
  duplicates : Nat

namespace GraphBuilder

def start (config : GraphConfig) : GraphBuilder := ⟨config, ∅, 0, 0⟩

/-- Adds the references of a unit to those already known, without references to itself. -/
def merge (known : SortedMap Link Count) (refs : UnitReferences) : SortedMap Link Count :=
  (refs.counts.toList.filter fun e => e.1.unit ≠ refs.unit).foldl
    (fun m e => m.alter e.1 fun old => old.getD 0 + e.2) known

/-- Takes the references of a unit. -/
def ingest (b : GraphBuilder) (refs : UnitReferences) : GraphBuilder where
  config := b.config
  outgoing := b.outgoing.alter refs.unit fun known => merge (known.getD ∅) refs
  ingested := b.ingested + 1
  duplicates := if b.outgoing.contains refs.unit then b.duplicates + 1 else b.duplicates

/-- The supplied units that are not left out. -/
def kept (b : GraphBuilder) : SortedMap String (SortedMap Link Count) :=
  b.outgoing.filter fun name _ => !b.config.excludes name

/-- An edge is kept if its kind is included, its target is not left out, and the target was supplied
or unresolved targets are wanted. -/
def keepsEdge (b : GraphBuilder) (link : Link) : Bool :=
  b.config.includes link.kind && !b.config.excludes link.unit &&
    (b.config.unresolved = .leaf || b.kept.contains link.unit)

/-- The units of the finished graph with their edges. -/
def sources (b : GraphBuilder) : SortedMap String Source :=
  b.kept.mapValues fun _ outgoing => ⟨true, outgoing.filter fun link _ => b.keepsEdge link⟩

/-- The graph of all references taken. -/
def finish (b : GraphBuilder) : Graph := .ofSources b.sources

/-- Takes the references of several units. -/
def ingestAll (b : GraphBuilder) (units : List UnitReferences) : GraphBuilder :=
  units.foldl ingest b

end GraphBuilder

/-- The graph of some rows of source, target, kind and count, with everything kept. -/
def Graph.ofRows (rows : List Edge) : Graph :=
  let units : SortedMap String UnitReferences := rows.foldl
    (fun m row => m.alter row.source fun refs =>
      (refs.getD (.empty row.source)).addCount row.target row.kind row.count) SortedMap.empty
  ((GraphBuilder.start (.ofPreset .full)).ingestAll units.values).finish

end ClassAtlas
