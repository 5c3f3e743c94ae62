import ClassAtlas.EdgeKind
import ClassAtlas.Name

/-!
# Configurations

What an analysis looks at and what it keeps. A configuration has one section per activity:
extraction of references, building of the graph, and division of the work.

## Main definitions

* `Preset` names the three complete configurations to start from.
* `AnalysisConfig` is a configuration, `AnalysisConfig.ofPreset` the one of a preset.
-/

namespace ClassAtlas

/-- The complete configurations to start from. -/
inductive Preset where
  /-- Everything. -/
  | full
  /-- What running the code needs: no annotations, no generic signatures. -/
  | runtime
  /-- The class hierarchy. -/
  | structural
  deriving DecidableEq

namespace Preset

def all : List Preset := [full, runtime, structural]

def label : Preset → String
  | full => "full"
  | runtime => "runtime"
  | structural => "structural"

/-- The preset with a given name, in capital or small letters. No character outside ASCII has a
small letter that occurs in a label. -/
def ofLabel? (text : String) : Option Preset :=
  all.find? fun p => p.label.toList == text.toList.map Char.toLower

theorem ofLabel?_label (preset : Preset) : ofLabel? preset.label = some preset := by
  cases preset <;> decide

/-- What is reported for a text that names no preset. -/
def unknownMessage (text : String) : String :=
  s!"Unknown preset '{text}'. Valid presets: full, runtime, structural"

end Preset

/-- Which references are extracted from a unit. -/
structure ExtractionConfig where
  /-- Generic signatures are read beside descriptors. -/
  signatures : Bool
  /-- The values of annotations are read, not only their types. -/
  annotationValues : Bool
  /-- Annotations that are not visible at run time are read too. -/
  invisible : Bool
  deriving DecidableEq

def ExtractionConfig.ofPreset : Preset → ExtractionConfig
  | .full => ⟨true, true, true⟩
  | .runtime | .structural => ⟨false, false, false⟩

/-- What becomes of a reference to a unit that was not supplied. -/
inductive UnresolvedPolicy where
  /-- It leads to a node without references of its own. -/
  | leaf
  /-- It is dropped. -/
  | omit
  deriving DecidableEq

namespace UnresolvedPolicy

def label : UnresolvedPolicy → String
  | .leaf => "leaf"
  | .omit => "omit"

/-- The policy with a given label. -/
def ofLabel? (text : String) : Option UnresolvedPolicy := [.leaf, .omit].find? (·.label = text)

/-- The name of a policy for display. -/
def title : UnresolvedPolicy → String
  | .leaf => "Leaf"
  | .omit => "Omit"

end UnresolvedPolicy

/-- Which references become edges. -/
structure GraphConfig where
  kinds : SortedSet EdgeKind
  unresolved : UnresolvedPolicy
  /-- Units whose names start in one of these ways are left out. -/
  excluded : List String
  deriving DecidableEq

namespace GraphConfig

def presetKinds : Preset → List EdgeKind
  | .full => EdgeKind.all
  | .runtime => EdgeKind.all.filter (· ≠ .annotationRef)
  | .structural => [.superclass, .interface]

def ofPreset (preset : Preset) : GraphConfig :=
  ⟨SortedSet.ofElements (presetKinds preset), .leaf, []⟩

/-- References of this kind become edges. -/
def includes (config : GraphConfig) (kind : EdgeKind) : Bool := config.kinds.contains kind

/-- A unit with this name is left out. -/
def excludes (config : GraphConfig) (name : String) : Bool :=
  config.excluded.any fun start => start.toList.isPrefixOf name.toList

theorem includes_iff {config : GraphConfig} {kind : EdgeKind} :
    config.includes kind = true ↔ kind ∈ config.kinds.elements :=
  SortedSet.mem_elements.symm

theorem excludes_iff {config : GraphConfig} {name : String} : config.excludes name = true ↔
    ∃ start ∈ config.excluded, start.toList <+: name.toList := by
  simp [excludes]

/-- Keeps only the given kinds. -/
def withKinds (config : GraphConfig) (kinds : List EdgeKind) : GraphConfig :=
  { config with kinds := SortedSet.ofElements kinds }

/-- Drops a kind. -/
def withoutKind (config : GraphConfig) (kind : EdgeKind) : GraphConfig :=
  { config with kinds := config.kinds.filter fun k _ => k ≠ kind }

/-- Leaves out the units whose names start with the internal form of `start`. -/
def exclude (config : GraphConfig) (start : String) : GraphConfig :=
  { config with excluded := config.excluded ++ [Name.normalize start] }

theorem includes_ofPreset {preset : Preset} {kind : EdgeKind} :
    (ofPreset preset).includes kind = true ↔ kind ∈ presetKinds preset :=
  SortedSet.contains_ofElements _ _

theorem includes_withKinds {config : GraphConfig} {kinds : List EdgeKind} {kind : EdgeKind} :
    (config.withKinds kinds).includes kind = true ↔ kind ∈ kinds :=
  SortedSet.contains_ofElements _ _

theorem includes_withoutKind {config : GraphConfig} {dropped kind : EdgeKind} :
    (config.withoutKind dropped).includes kind = true ↔
      kind ≠ dropped ∧ config.includes kind = true := by
  simp only [includes, withoutKind, SortedMap.contains, SortedMap.get?_filter]
  cases config.kinds.get? kind <;> simp [Option.filter]

theorem excludes_exclude {config : GraphConfig} {start name : String} :
    (config.exclude start).excludes name = true ↔
      config.excludes name = true ∨ (Name.normalize start).toList <+: name.toList := by
  simp only [excludes_iff, exclude, List.mem_append, List.mem_singleton, or_and_right, exists_or,
    exists_eq_left]

end GraphConfig

/-- How the work is divided. -/
structure WorkConfig where
  /-- The number of workers; 0 asks for one per processor. -/
  workers : Nat
  /-- Work is divided at all. -/
  divided : Bool
  deriving DecidableEq

namespace WorkConfig

def default : WorkConfig := ⟨0, true⟩

/-- The number of workers, unless it is the number of processors. -/
def effectiveWorkers? (config : WorkConfig) : Option Nat :=
  if !config.divided then some 1 else if config.workers = 0 then none else some config.workers

end WorkConfig

/-- The configuration of an analysis. -/
structure AnalysisConfig where
  /-- The version of the layout of configuration files. -/
  version : Nat
  /-- The preset from which the sections started. -/
  preset : Preset
  graph : GraphConfig
  extraction : ExtractionConfig
  work : WorkConfig
  deriving DecidableEq

namespace AnalysisConfig

def ofPreset (preset : Preset) : AnalysisConfig :=
  ⟨1, preset, .ofPreset preset, .ofPreset preset, .default⟩

def default : AnalysisConfig := ofPreset .full

end AnalysisConfig

end ClassAtlas
