import ClassAtlas.Config.Validation
import ClassAtlas.Extraction.Extractor

/-!
# Failures

A unit that cannot be decoded, or whose references cannot be extracted, is reported and left out;
the other units are not affected. A unit that cannot be decoded is reported under the name it was
supplied with, any other under the name it declares.
-/

namespace ClassAtlas

/-- Why a unit contributes nothing. -/
structure UnitFailure where
  unit : String
  /-- The class of the error. -/
  kind : String
  /-- The offending pool index, if the error is about one. -/
  index : Option UInt16
  /-- The offset at which data was missing, if the error is about that. -/
  offset : Option Nat
  message : String
  deriving DecidableEq

namespace UnitFailure

def ofError (unit : String) (error : DecodeError) : UnitFailure :=
  ⟨unit, error.kind, error.index?, error.offset?, error.message⟩

/-- Failures are listed by unit and message. -/
def precedes (a b : UnitFailure) : Bool :=
  ((compare a.unit b.unit).then (compare a.message b.message)).isLE

/-- One line about a failure. -/
def text (f : UnitFailure) : String := s!"{f.unit} [{f.kind}]: {f.message}"

end UnitFailure

/-- Why an analysis of one unit, or a whole analysis, could not be made. -/
inductive AnalysisError where
  | decode (unit : String) (error : DecodeError)
  | config (error : ConfigError)
  deriving DecidableEq

def AnalysisError.message : AnalysisError → String
  | decode unit error => s!"Decode error in {unit}: {error.message}"
  | config error => "Configuration error: " ++ error.message

/-- Decodes a unit supplied under `name` and extracts its references; an error comes with the name
under which it is reported. -/
def processUnit (config : ExtractionConfig) (name : String) (bytes : List UInt8)
    (cache : DescriptorCache) :
    Except (String × DecodeError) UnitReferences × DescriptorCache :=
  match CompiledUnit.decode bytes with
  | .error e => (.error (Name.normalize name, e), cache)
  | .ok u =>
    let (refs, cache) := extractUnit config u cache
    (refs.mapError fun e => (u.name, e), cache)

/-- The references of a single unit. -/
def extractReferences (config : ExtractionConfig) (name : String) (bytes : List UInt8) :
    Except AnalysisError UnitReferences :=
  (processUnit config name bytes .empty).1.mapError fun (unit, e) => .decode unit e

end ClassAtlas
