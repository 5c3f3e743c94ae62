import ClassAtlas.ClassFile.Decode
import ClassAtlas.Config.Basic
import ClassAtlas.Descriptor.Cache
import ClassAtlas.Extraction.Operand
import ClassAtlas.Extraction.References
import ClassAtlas.Extraction.Tally
import ClassAtlas.Signature.Parser

/-!
# Extraction of references

Every class that a unit mentions, by the way it is mentioned:

* the header: superclass and interfaces;
* fields and methods: descriptors, declared exceptions and, if asked for, generic signatures, the
  two views of a declaration joined by the larger number;
* bodies of code: one mention for each pool entry that instructions and handlers touch;
* annotations of all of these, and their values if asked for.

A malformed text or index anywhere makes the whole unit fail. Extraction looks descriptors up in a
cache, which outlives a unit and also keeps what was learnt from a unit that fails.

`Extract.unit` gives the mentions of a unit one after the other; `extractUnit` adds them up.
-/

namespace ClassAtlas

/-- A computation that looks descriptors up in a cache and may fail. -/
abbrev Extract (α : Type) := ExceptT DecodeError (StateM DescriptorCache) α

/-- Numbers of mentions, each under its link. -/
abbrev Mentions := List (Link × Nat)

namespace Extract

variable {α : Type}

/-- Lifts a result that needs no cache. -/
def ofExcept (result : Except DecodeError α) : Extract α := ExceptT.mk (pure result)

/-- Lifts the result of reading a type text. -/
def ofText (result : Except Malformed α) : Extract α := ofExcept (result.mapError .malformed)

/-- The type of a field, through the cache. -/
def fieldType (text : String) : Extract FieldType := do
  let (answer, cache) := (← get).field text
  set cache
  ofText answer

/-- The type of a method, through the cache. -/
def methodType (text : String) : Extract MethodType := do
  let (answer, cache) := (← get).method text
  set cache
  ofText answer

/-- The class that a class entry stands for. The name of an array has to be a descriptor. -/
def entryClass? (name : String) : Extract (Option String) := do
  if name.toList.head? = some '[' then let _ ← fieldType name
  return Name.elementClass? name

/-- One mention of each name. -/
def mentionAll (kind : EdgeKind) (names : List String) : Mentions :=
  names.map fun name => (⟨name, kind⟩, 1)

/-! ## Annotations -/

/-- The class of an annotation or an enumeration, given by its descriptor. -/
def typeMention (pool : Pool) (index : UInt16) : Extract Mentions := do
  let type ← fieldType (← ofExcept (pool.utf8 index))
  return mentionAll .annotationRef type.classLeaf?.toList

/-- The class of a class value, given by the descriptor of a result. -/
def classMention (pool : Pool) (index : UInt16) : Extract Mentions := do
  let type ← ofText (FieldType.parseResult (← ofExcept (pool.utf8 index)))
  return mentionAll .annotationRef (type.bind FieldType.classLeaf?).toList

mutual

/-- The mentions in an element value. An annotation inside it brings its type and its elements. -/
def elementValue (pool : Pool) : ElementValue → Extract Mentions
  | .const _ _ => return []
  | .enum type _ => typeMention pool type
  | .classInfo descriptor => classMention pool descriptor
  | .nested type elements => do
    let first ← typeMention pool type
    let others ← elementValues pool elements
    return first ++ others
  | .array values => arrayValues pool values

def elementValues (pool : Pool) : List (UInt16 × ElementValue) → Extract Mentions
  | [] => return []
  | (_, value) :: rest => do
    let first ← elementValue pool value
    let others ← elementValues pool rest
    return first ++ others

def arrayValues (pool : Pool) : List ElementValue → Extract Mentions
  | [] => return []
  | value :: rest => do
    let first ← elementValue pool value
    let others ← arrayValues pool rest
    return first ++ others

end

/-- The mentions in an annotation: its type, and its values if they are asked for. -/
def annotationInfo (config : ExtractionConfig) (pool : Pool) (info : AnnotationInfo) :
    Extract Mentions := do
  let first ← typeMention pool info.type
  let others ← if config.annotationValues then elementValues pool info.elements else pure []
  return first ++ others

/-- The mentions in parts taken one after the other. -/
def concat (part : α → Extract Mentions) (parts : List α) : Extract Mentions :=
  return (← parts.mapM part).flatten

/-- The mentions in annotations, if they are visible or invisible ones are asked for. -/
def annotationInfos (config : ExtractionConfig) (pool : Pool) (visible : Bool)
    (infos : List AnnotationInfo) : Extract Mentions :=
  if visible || config.invisible then concat (annotationInfo config pool) infos else return []

/-- The mentions in the annotations that an attribute holds. -/
def annotationsOf (config : ExtractionConfig) (pool : Pool) : Attribute → Extract Mentions
  | .annotations visible infos => annotationInfos config pool visible infos
  | .parameterAnnotations visible parameters =>
    annotationInfos config pool visible parameters.flatten
  | .typeAnnotations visible infos => annotationInfos config pool visible (infos.map (·.info))
  | .defaultValue value => if config.annotationValues then elementValue pool value else return []
  | .code _ | .exceptions _ | .signature _ | .other .. => return []

/-- The mentions in the annotations that an attribute of code holds. -/
def annotationsOfDetail (config : ExtractionConfig) (pool : Pool) : CodeDetail → Extract Mentions
  | .typeAnnotations visible infos => annotationInfos config pool visible (infos.map (·.info))
  | .other .. => return []

/-! ## Declarations -/

/-- Joins the tally of a declaration with that of its signature, if signatures are asked for and
there is one. -/
def withSignature (config : ExtractionConfig) (tally : Tally) (text? : Option String)
    (view : String → Except Malformed Tally) : Extract Mentions := do
  match config.signatures, text? with
  | true, some text => return (tally.mergeMax (← ofText (view text))).toList
  | _, _ => return tally.toList

/-- The tally of a class signature. The bounds of type parameters are no supertypes. -/
def classSignatureTally (text : String) : Except Malformed Tally := do
  let s ← ClassSignature.parse text
  return .ofNames [(.superclass, s.superclass.classNames),
    (.interface, s.interfaces.flatMap ClassType.classNames)]

/-- The tally of a field signature. -/
def fieldSignatureTally (text : String) : Except Malformed Tally := do
  let s ← RefType.parse text
  return .ofNames [(.fieldType, s.classNames)]

/-- The tally of a method signature. The bounds of type parameters count as parameters. -/
def methodSignatureTally (text : String) : Except Malformed Tally := do
  let s ← MethodSignature.parse text
  return .ofNames [
    (.methodParam,
      s.typeParams.flatMap TypeParam.classNames ++ s.params.flatMap SigType.classNames),
    (.methodReturn, s.result.elim [] SigType.classNames),
    (.methodThrows, s.throws.flatMap RefType.classNames)]

/-- The mentions in the header of a class. -/
def header (config : ExtractionConfig) (c : ClassFile) : Extract Mentions :=
  withSignature config
    (.ofNames [(.superclass, c.superclass.toList), (.interface, c.interfaces)])
    (signatureOf? c.attributes) classSignatureTally

/-- The mentions in a field. -/
def field (config : ExtractionConfig) (pool : Pool) (m : Member) : Extract Mentions := do
  let type ← fieldType m.descriptor
  let declared ← withSignature config (.ofNames [(.fieldType, type.classLeaf?.toList)])
    m.signature? fieldSignatureTally
  let annotations ← concat (annotationsOf config pool) m.attributes
  return declared ++ annotations

/-- The declared exceptions of a method, as pool indices. -/
def exceptionIndices (m : Member) : List UInt16 :=
  m.attributes.flatMap fun
    | .exceptions classes => classes
    | _ => []

/-- The class of a declared exception. -/
def thrownClass? (pool : Pool) (index : UInt16) : Extract (Option String) := do
  entryClass? (← ofExcept (pool.className index))

/-- The class entries that a body of code touches, by index; the first use of an index decides. -/
def touched (pool : Pool) (code : Code) :
    Except DecodeError (SortedMap UInt16 (Option String)) := do
  let refs ← scanCode code.bytes code.offset
  let operands ← refs.mapM fun ref => return (ref.index, ← pool.operandClass? ref)
  let caught := (code.handlers.map Handler.catchType).filter (· ≠ 0)
  let handlers ← caught.mapM fun index => return (index, some (← pool.className index))
  return (operands ++ handlers).foldl (fun m e => m.insertNew e.1 e.2) SortedMap.empty

/-- The mentions in a body of code: one for each entry that it touches. -/
def code (config : ExtractionConfig) (pool : Pool) (code : Code) : Extract Mentions := do
  let owners := (← ofExcept (touched pool code)).values.filterMap id
  let classes ← owners.mapM entryClass?
  let annotations ← concat (annotationsOfDetail config pool) code.details
  return mentionAll .instructionRef (classes.filterMap id) ++ annotations

/-- The mentions in a method. -/
def method (config : ExtractionConfig) (pool : Pool) (m : Member) : Extract Mentions := do
  let type ← methodType m.descriptor
  let thrown ← (exceptionIndices m).mapM (thrownClass? pool)
  let declared ← withSignature config
    (.ofNames [(.methodParam, type.params.filterMap FieldType.classLeaf?),
      (.methodReturn, (type.result.bind FieldType.classLeaf?).toList),
      (.methodThrows, thrown.filterMap id)])
    m.signature? methodSignatureTally
  let body ← match m.code? with
    | some body => code config pool body
    | none => pure []
  let annotations ← concat (annotationsOf config pool) m.attributes
  return declared ++ body ++ annotations

/-- The mentions in a unit. -/
def unit (config : ExtractionConfig) (u : CompiledUnit) : Extract Mentions := do
  let header ← header config u.classFile
  let annotations ← concat (annotationsOf config u.pool) u.classFile.attributes
  let fields ← concat (field config u.pool) u.classFile.fields
  let methods ← concat (method config u.pool) u.classFile.methods
  return header ++ annotations ++ fields ++ methods

end Extract

/-- The references of a unit, with the cache after the extraction. -/
def extractUnit (config : ExtractionConfig) (u : CompiledUnit) (cache : DescriptorCache) :
    Except DecodeError UnitReferences × DescriptorCache :=
  let (mentions, cache) := (Extract.unit config u).run.run cache
  ((UnitReferences.empty u.name).addAll <$> mentions, cache)

end ClassAtlas
