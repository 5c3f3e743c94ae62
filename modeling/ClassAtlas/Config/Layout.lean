import ClassAtlas.Config.Document
import ClassAtlas.Yaml.Reader
import ClassAtlas.Yaml.Writer

/-!
# The layout of configuration files

The keys of a configuration document in YAML, and the values that they take. A document is refused
if a key is unknown or occurs twice, or if a value is of the wrong kind. A value that stands for
nothing is the same as no entry.

## Main definitions

* `ConfigDocument.read?` reads a document, and `ConfigDocument.render` writes it.
* `AnalysisConfig.ofText` and `AnalysisConfig.toText` read and write a configuration.
-/

namespace ClassAtlas

open Yaml

/-! ## Keys -/

namespace Layout

def versionKey := "version"
def presetKey := "preset"
def graphKey := "graph"
def kindsKey := "included_kinds"
def unresolvedKey := "unresolved"
def excludedKey := "excluded_prefixes"
def extractionKey := "extraction"
def signaturesKey := "include_generic_signatures"
def annotationValuesKey := "include_annotation_values"
def invisibleKey := "include_invisible_annotations"
def workKey := "parallel"
def workersKey := "num_workers"
def dividedKey := "enable_rayon"

end Layout

/-! ## Reading -/

namespace Layout

/-- The scalar for which a node of a document stands. -/
def scalar? (document : Document) (node : Yaml.Node) : Option Scalar :=
  match document.follow node with
  | .scalar scalar => some scalar
  | _ => none

/-- A whole number below `bound`. -/
def readNat (bound : Nat) (document : Document) (node : Yaml.Node) : Option Nat := do
  ((← scalar? document node).nat?).filter (· < bound)

def readBool (document : Document) (node : Yaml.Node) : Option Bool := do
  (← scalar? document node).bool?

/-- A text, which is what every scalar has. -/
def readText (document : Document) (node : Yaml.Node) : Option String :=
  (scalar? document node).map Scalar.text

/-- A list of texts, which is empty if there is nothing but a tag. -/
def readTexts (document : Document) (node : Yaml.Node) : Option (List String) :=
  match document.follow node with
  | .sequence items => items.mapM (readText document)
  | .scalar scalar => if scalar.isBlank then some [] else none
  | _ => none

def readPolicy (document : Document) (node : Yaml.Node) : Option UnresolvedPolicy := do
  UnresolvedPolicy.ofLabel? (← (← scalar? document node).choice?)

/-- The entries of a mapping by the texts of their keys, which are among `keys` and differ. Nothing
but a tag is an empty mapping. -/
def entries? (keys : List String) (document : Document) (node : Yaml.Node) :
    Option (List (String × Yaml.Node)) :=
  match document.follow node with
  | .mapping entries => do
    let named ← entries.mapM fun (key, value) => return (← readText document key, value)
    let names := named.map Prod.fst
    if names.all keys.contains ∧ names.Nodup then some named else none
  | .scalar scalar => if scalar.isBlank then some [] else none
  | _ => none

/-- The value of an entry, if there is one and it does not stand for nothing. -/
def value? {α : Type} (read : Document → Yaml.Node → Option α) (document : Document)
    (entries : List (String × Yaml.Node)) (key : String) : Option (Option α) :=
  match entries.lookup key with
  | none => some none
  | some node =>
    match document.follow node with
    | .scalar scalar => do if ← scalar.isNothing? then return none else some <$> read document node
    | _ => some <$> read document node

end Layout

open Layout

/-- Reads the section on the graph. -/
def GraphPatch.ofNode? (document : Document) (node : Yaml.Node) : Option GraphPatch := do
  let es ← entries? [kindsKey, unresolvedKey, excludedKey] document node
  return ⟨← value? readTexts document es kindsKey, ← value? readPolicy document es unresolvedKey,
    ← value? readTexts document es excludedKey⟩

/-- Reads the section on extraction. -/
def ExtractionPatch.ofNode? (document : Document) (node : Yaml.Node) : Option ExtractionPatch := do
  let es ← entries? [signaturesKey, annotationValuesKey, invisibleKey] document node
  return ⟨← value? readBool document es signaturesKey,
    ← value? readBool document es annotationValuesKey, ← value? readBool document es invisibleKey⟩

/-- Reads the section on the division of work; the number of workers is a word of 64 bits. -/
def WorkPatch.ofNode? (document : Document) (node : Yaml.Node) : Option WorkPatch := do
  let es ← entries? [workersKey, dividedKey] document node
  return ⟨← value? (readNat (Nat.pow 2 64)) document es workersKey,
    ← value? readBool document es dividedKey⟩

/-- Reads a document; the version is a word of 32 bits. -/
def ConfigDocument.ofDocument? (document : Document) : Option ConfigDocument := do
  let es ← entries? [versionKey, presetKey, graphKey, extractionKey, workKey] document document.root
  return ⟨← value? (readNat (Nat.pow 2 32)) document es versionKey,
    ← value? readText document es presetKey, ← value? GraphPatch.ofNode? document es graphKey,
    ← value? ExtractionPatch.ofNode? document es extractionKey,
    ← value? WorkPatch.ofNode? document es workKey⟩

/-- The document that a text holds. -/
def ConfigDocument.read? (text : String) : Option ConfigDocument :=
  (Document.read? text).bind ConfigDocument.ofDocument?

/-! ## Writing -/

namespace Layout

/-- An entry, if there is a value. -/
def written {α : Type} (write : α → String) (value : Option α) : String := (value.map write).getD ""

def writeTexts (key : String) (texts : List String) : String :=
  listEntry 1 key (texts.map Scalar.ofText)

def writeBool (key : String) (value : Bool) : String := entry 1 key (.ofBool value)

end Layout

/-- The entries of the section on the graph. -/
def GraphPatch.render (patch : GraphPatch) : String :=
  written (writeTexts kindsKey) patch.kinds ++
    written (fun policy => entry 1 unresolvedKey (.ofText policy.label)) patch.unresolved ++
    written (writeTexts excludedKey) patch.excluded

/-- The entries of the section on extraction. -/
def ExtractionPatch.render (patch : ExtractionPatch) : String :=
  written (writeBool signaturesKey) patch.signatures ++
    written (writeBool annotationValuesKey) patch.annotationValues ++
    written (writeBool invisibleKey) patch.invisible

/-- The entries of the section on the division of work. -/
def WorkPatch.render (patch : WorkPatch) : String :=
  written (fun n => entry 1 workersKey (.ofNat n)) patch.workers ++
    written (writeBool dividedKey) patch.divided

/-- The text of a document. -/
def ConfigDocument.render (document : ConfigDocument) : String :=
  written (fun n => entry 0 versionKey (.ofNat n)) document.version ++
    written (fun name => entry 0 presetKey (.ofText name)) document.preset ++
    written (fun patch => nest 0 graphKey patch.render) document.graph ++
    written (fun patch => nest 0 extractionKey patch.render) document.extraction ++
    written (fun patch => nest 0 workKey patch.render) document.work

/-! ## Configurations -/

/-- The configuration that a text describes. -/
def AnalysisConfig.ofText (text : String) : Except ConfigError AnalysisConfig :=
  ConfigDocument.load ConfigDocument.read? text

/-- The configuration that a file describes, given the text of the file if it can be read. -/
def AnalysisConfig.ofFile : Option String → Except ConfigError AnalysisConfig
  | some text => ofText text
  | none => .error .unreadableFile

/-- The text that names every setting of a configuration. -/
def AnalysisConfig.toText (config : AnalysisConfig) : String :=
  (ConfigDocument.ofConfig config).render

end ClassAtlas
