import ClassAtlas.Config.Validation

/-!
# Configuration documents

A configuration file names a version, a preset, and for each section the settings that differ from
the preset. What a file does not name stays as the preset has it.

## Main definitions

* `ConfigDocument` is the content of a configuration file.
* `ConfigDocument.resolve` is the configuration that a document describes.
* `ConfigDocument.ofConfig` is the document that names every setting of a configuration.
* `ConfigDocument.load` is the configuration that a text describes, for any way of reading
  documents.
-/

namespace ClassAtlas

/-- Changes to the section on the graph. -/
structure GraphPatch where
  /-- The labels of the kinds of edges to keep. -/
  kinds : Option (List String)
  unresolved : Option UnresolvedPolicy
  excluded : Option (List String)
  deriving DecidableEq

namespace GraphPatch

/-- The kinds with the given labels; the first label that names none is reported. -/
def kindsOfLabels (labels : List String) : Except ConfigError (List EdgeKind) :=
  labels.mapM fun label =>
    match EdgeKind.ofLabel? label with
    | some kind => .ok kind
    | none => .error (.unknownEdgeKind label)

/-- A section with the changes made. The starts of names are brought to internal form. -/
def apply (patch : GraphPatch) (config : GraphConfig) : Except ConfigError GraphConfig := do
  let kinds ← match patch.kinds with
    | some labels => SortedSet.ofElements <$> kindsOfLabels labels
    | none => pure config.kinds
  return {
    kinds
    unresolved := patch.unresolved.getD config.unresolved
    excluded := (patch.excluded.map (·.map Name.normalize)).getD config.excluded }

/-- Names every setting of a section. -/
def ofConfig (config : GraphConfig) : GraphPatch where
  kinds := some (config.kinds.elements.map EdgeKind.label)
  unresolved := some config.unresolved
  excluded := some config.excluded

end GraphPatch

/-- Changes to the section on extraction. -/
structure ExtractionPatch where
  signatures : Option Bool
  annotationValues : Option Bool
  invisible : Option Bool
  deriving DecidableEq

namespace ExtractionPatch

/-- A section with the changes made. -/
def apply (patch : ExtractionPatch) (config : ExtractionConfig) : ExtractionConfig where
  signatures := patch.signatures.getD config.signatures
  annotationValues := patch.annotationValues.getD config.annotationValues
  invisible := patch.invisible.getD config.invisible

/-- Names every setting of a section. -/
def ofConfig (config : ExtractionConfig) : ExtractionPatch :=
  ⟨some config.signatures, some config.annotationValues, some config.invisible⟩

end ExtractionPatch

/-- Changes to the section on the division of work. -/
structure WorkPatch where
  workers : Option Nat
  divided : Option Bool
  deriving DecidableEq

namespace WorkPatch

/-- A section with the changes made. -/
def apply (patch : WorkPatch) (config : WorkConfig) : WorkConfig where
  workers := patch.workers.getD config.workers
  divided := patch.divided.getD config.divided

/-- Names every setting of a section. -/
def ofConfig (config : WorkConfig) : WorkPatch := ⟨some config.workers, some config.divided⟩

end WorkPatch

/-- The content of a configuration file. -/
structure ConfigDocument where
  version : Option Nat
  preset : Option String
  graph : Option GraphPatch
  extraction : Option ExtractionPatch
  work : Option WorkPatch
  deriving DecidableEq

namespace ConfigDocument

/-- The preset that a document names, or else the one that keeps everything. -/
def presetOf (document : ConfigDocument) : Except ConfigError Preset :=
  match document.preset with
  | none => .ok .full
  | some name =>
    match Preset.ofLabel? name with
    | some preset => .ok preset
    | none => .error (.unknownPreset name)

/-- The configuration that a document describes, which has to be valid. -/
def resolve (document : ConfigDocument) : Except ConfigError AnalysisConfig := do
  let some version := document.version | throw .missingVersion
  if !supportedVersions.contains version then throw (.unsupportedVersion version)
  let base := AnalysisConfig.ofPreset (← document.presetOf)
  let graph ← match document.graph with
    | some patch => patch.apply base.graph
    | none => pure base.graph
  let config := {
    base with
    graph
    extraction := (document.extraction.map (·.apply base.extraction)).getD base.extraction
    work := (document.work.map (·.apply base.work)).getD base.work }
  config.validate
  return config

/-- The document that names every setting of a configuration. -/
def ofConfig (config : AnalysisConfig) : ConfigDocument where
  version := some config.version
  preset := some config.preset.label
  graph := some (.ofConfig config.graph)
  extraction := some (.ofConfig config.extraction)
  work := some (.ofConfig config.work)

/-- The configuration that a text describes, given how documents are read. -/
def load (read? : String → Option ConfigDocument) (text : String) :
    Except ConfigError AnalysisConfig :=
  match read? text with
  | some document => document.resolve
  | none => .error .unreadableText

end ConfigDocument

end ClassAtlas
