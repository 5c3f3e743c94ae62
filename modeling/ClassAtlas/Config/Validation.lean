import ClassAtlas.Config.Basic

/-!
# Valid configurations

What makes a configuration unusable. `AnalysisConfig.validate` reports the first fault, looking at
the version first and then at the sections in order.
-/

namespace ClassAtlas

/-- The versions of the layout of configuration files that are understood. -/
def supportedVersions : List Nat := [1]

/-- The largest number of workers. -/
def maxWorkers : Nat := 256

/-- Why the start of a name cannot be left out. -/
inductive ExclusionFault where
  | empty
  | dotted
  deriving DecidableEq

def ExclusionFault.message : ExclusionFault → String
  | empty => "an empty prefix would exclude every target"
  | dotted => "use internal form with '/' separators (e.g. 'java/')"

/-- Why a configuration is rejected. -/
inductive ConfigError where
  | tooManyWorkers (workers : Nat)
  | missingVersion
  | unsupportedVersion (version : Nat)
  | unknownPreset (name : String)
  | unknownEdgeKind (name : String)
  | badExclusion (start : String) (fault : ExclusionFault)
  | noKinds
  /-- The text is no document of the right layout. -/
  | unreadableText
  /-- The file cannot be read. -/
  | unreadableFile
  deriving DecidableEq

/-- The wording of an error. The two errors of reading have none of their own. -/
def ConfigError.message : ConfigError → String
  | tooManyWorkers workers =>
    s!"Invalid range for field 'num_workers': {workers} not in 0..={maxWorkers}. " ++
      "Number of workers must be reasonable (0=auto)"
  | missingVersion =>
    "Missing 'version' field in configuration file. Add 'version: 1' to the top of your YAML file."
  | unsupportedVersion version =>
    s!"Unsupported configuration version {version}. Supported versions: " ++
      ", ".intercalate (supportedVersions.map toString)
  | unknownPreset name => Preset.unknownMessage name
  | unknownEdgeKind name => EdgeKind.unknownMessage name
  | badExclusion start fault => s!"Invalid excluded prefix '{start}': {fault.message}"
  | noKinds => "Validation error: graph.included_kinds is empty; the graph would have no edges"
  | unreadableText => "YAML parsing error"
  | unreadableFile => "IO error"

/-- Checks the start of a name that is to be left out. -/
def checkExclusion (start : String) : Except ConfigError Unit :=
  if start.isEmpty then .error (.badExclusion start .empty)
  else if start.toList.contains '.' then .error (.badExclusion start .dotted)
  else .ok ()

/-- There has to be a kind of edges, and the exclusions have to be in internal form. -/
def GraphConfig.validate (config : GraphConfig) : Except ConfigError Unit :=
  if config.kinds.isEmpty then .error .noKinds else config.excluded.forM checkExclusion

/-- Every choice of references is valid. -/
def ExtractionConfig.validate (_ : ExtractionConfig) : Except ConfigError Unit := .ok ()

def WorkConfig.validate (config : WorkConfig) : Except ConfigError Unit :=
  if maxWorkers < config.workers then .error (.tooManyWorkers config.workers) else .ok ()

/-- The first fault of a configuration. -/
def AnalysisConfig.validate (config : AnalysisConfig) : Except ConfigError Unit := do
  if !supportedVersions.contains config.version then throw (.unsupportedVersion config.version)
  config.graph.validate
  config.extraction.validate
  config.work.validate

end ClassAtlas
