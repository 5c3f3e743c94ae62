import Mathlib.Data.List.Dedup
import ClassAtlas.Assembler.Spec
import ClassAtlas.Proofs.Assembler.Code
import ClassAtlas.Proofs.Extraction.Counting

/-!
# What a description of a class mentions

How often a class mentions another one, read off its description without any class file: no pool
indices, offsets or attributes occur here.

* A declaration has two views, its descriptors and its generic signature; of the two numbers the
  larger counts, if signatures are asked for.
* Each body of code mentions the classes of its distinct operands. Two instructions have the same
  operand if they name the same class, or the same member of the same kind.
* An annotation mentions its type, and the types of its values if they are asked for.

## Main definitions

* `ClassSpec.timesReferenced` is the number of mentions of a target under a kind.
* `ClassSpec.WellFormed` says that the texts of a description can be read.
-/

namespace ClassAtlas

open Name

/-! ## Annotations -/

/-- The class at the bottom of the type with a descriptor. -/
def descriptorClass (text : String) : List String :=
  ((FieldType.parse text).toOption.bind FieldType.classLeaf?).toList

/-- The class at the bottom of a type, or nothing for `V`. -/
def resultClass (text : String) : List String :=
  if text = "V" then [] else descriptorClass text

theorem allPlain_descriptorClass (text : String) : AllPlain (descriptorClass text) := by
  rw [descriptorClass]
  cases h : FieldType.parse text with
  | error e => exact allPlain_nil
  | ok t => simpa [Except.toOption] using FieldType.allPlain_of_parse h

theorem allPlain_resultClass (text : String) : AllPlain (resultClass text) := by
  rw [resultClass]
  split
  · exact allPlain_nil
  · exact allPlain_descriptorClass text

mutual

/-- The classes in a value from left to right. -/
def ElementSpec.classNames : ElementSpec → List String
  | .int _ | .str _ => []
  | .enum descriptor _ => descriptorClass descriptor
  | .classValue descriptor => resultClass descriptor
  | .nested descriptor elements =>
    descriptorClass descriptor ++ ElementSpec.namedClassNames elements
  | .array values => ElementSpec.allClassNames values

def ElementSpec.namedClassNames : List (String × ElementSpec) → List String
  | [] => []
  | (_, value) :: rest => value.classNames ++ ElementSpec.namedClassNames rest

def ElementSpec.allClassNames : List ElementSpec → List String
  | [] => []
  | value :: rest => value.classNames ++ ElementSpec.allClassNames rest

end

mutual

theorem ElementSpec.allPlain_classNames : (e : ElementSpec) → AllPlain e.classNames
  | .int _ | .str _ => by
    rw [ElementSpec.classNames]
    exact allPlain_nil
  | .enum descriptor _ => by
    rw [ElementSpec.classNames]
    exact allPlain_descriptorClass descriptor
  | .classValue descriptor => by
    rw [ElementSpec.classNames]
    exact allPlain_resultClass descriptor
  | .nested descriptor elements => by
    rw [ElementSpec.classNames]
    exact (allPlain_descriptorClass descriptor).append (allPlain_namedClassNames elements)
  | .array values => by
    rw [ElementSpec.classNames]
    exact allPlain_allClassNames values

theorem ElementSpec.allPlain_namedClassNames :
    (l : List (String × ElementSpec)) → AllPlain (ElementSpec.namedClassNames l)
  | [] => by
    rw [ElementSpec.namedClassNames]
    exact allPlain_nil
  | (_, value) :: rest => by
    rw [ElementSpec.namedClassNames]
    exact value.allPlain_classNames.append (allPlain_namedClassNames rest)

theorem ElementSpec.allPlain_allClassNames :
    (l : List ElementSpec) → AllPlain (ElementSpec.allClassNames l)
  | [] => by
    rw [ElementSpec.allClassNames]
    exact allPlain_nil
  | value :: rest => by
    rw [ElementSpec.allClassNames]
    exact value.allPlain_classNames.append (allPlain_allClassNames rest)

end

/-- The classes of an annotation, those in its values if they are asked for. -/
def AnnotationSpec.classNames (config : ExtractionConfig) (a : AnnotationSpec) : List String :=
  descriptorClass a.descriptor ++
    if config.annotationValues then ElementSpec.namedClassNames a.elements else []

/-- The classes of annotations, if they are visible or invisible ones are asked for. -/
def annotationClasses (config : ExtractionConfig) (visible : Bool) (l : List AnnotationSpec) :
    List String :=
  if visible || config.invisible then l.flatMap (AnnotationSpec.classNames config) else []

theorem allPlain_annotationClasses (config : ExtractionConfig) (visible : Bool)
    (l : List AnnotationSpec) : AllPlain (annotationClasses config visible l) := by
  rw [annotationClasses]
  split
  · refine .flatMap fun a _ => (allPlain_descriptorClass a.descriptor).append ?_
    split
    · exact ElementSpec.allPlain_namedClassNames a.elements
    · exact allPlain_nil
  · exact allPlain_nil

/-! ## Code -/

/-- What an instruction or a handler refers to. -/
inductive Operand where
  | classRef (name : String)
  | member (ref : MemberRef)
  deriving DecidableEq

/-- The class that is mentioned, or the name of an array type. -/
def Operand.owner : Operand → String
  | classRef name => name
  | member ref => ref.owner

/-- The operand of an instruction; strings and numbers mention no class. -/
def InsnSpec.operand? : InsnSpec → Option Operand
  | .onClass _ name | .multiNewArray name _ | .loadClass name => some (.classRef name)
  | .onMember op owner name descriptor => some (.member ⟨op.kind, owner, name, descriptor⟩)
  | .raw _ | .loadString _ | .loadLong _ | .returnVoid => none

/-- The operands of the instructions and the classes of the handlers. -/
def CodeSpec.operands (c : CodeSpec) : List Operand :=
  c.instructions.filterMap InsnSpec.operand? ++ c.catchTypes.map .classRef

/-- The classes of the distinct operands. -/
def CodeSpec.touchedClasses (c : CodeSpec) : List String :=
  c.operands.dedup.filterMap fun o => elementClass? o.owner

/-! ## Declarations -/

/-- How often a declaration names a class, where the larger number of its two views counts if
signatures are asked for. -/
def timesDeclared (config : ExtractionConfig) (declared : List (EdgeKind × List String))
    (signature : Option (List (EdgeKind × List String))) (target : String) (kind : EdgeKind) :
    Nat :=
  if config.signatures then
    max (timesNamed declared target kind) (timesNamed (signature.getD []) target kind)
  else timesNamed declared target kind

/-- The names in a class signature. -/
def classSignatureNames (text : String) : List (EdgeKind × List String) :=
  match ClassSignature.parse text with
  | .ok s => [(.superclass, s.superclass.classNames),
    (.interface, s.interfaces.flatMap ClassType.classNames)]
  | .error _ => []

/-- The names in a field signature. -/
def fieldSignatureNames (text : String) : List (EdgeKind × List String) :=
  match RefType.parse text with
  | .ok t => [(.fieldType, t.classNames)]
  | .error _ => []

/-- The names in a method signature. -/
def methodSignatureNames (text : String) : List (EdgeKind × List String) :=
  match MethodSignature.parse text with
  | .ok s => [(.methodParam,
      s.typeParams.flatMap TypeParam.classNames ++ s.params.flatMap SigType.classNames),
    (.methodReturn, s.result.elim [] SigType.classNames),
    (.methodThrows, s.throws.flatMap RefType.classNames)]
  | .error _ => []

namespace MemberSpec

/-- The names in the descriptor and the exceptions of a method. -/
def methodNames (m : MemberSpec) : List (EdgeKind × List String) :=
  match MethodType.parse m.descriptor with
  | .ok t => [(.methodParam, t.params.filterMap FieldType.classLeaf?),
    (.methodReturn, (t.result.bind FieldType.classLeaf?).toList),
    (.methodThrows, m.exceptions.filterMap elementClass?)]
  | .error _ => []

/-- The classes of the annotations that fields and methods have. -/
def annotationNames (config : ExtractionConfig) (m : MemberSpec) : List String :=
  annotationClasses config true m.annotations ++
    annotationClasses config false m.invisibleAnnotations ++
    annotationClasses config true m.typeAnnotations

/-- The classes of the annotations that only methods have, those of their code apart. -/
def methodAnnotationNames (config : ExtractionConfig) (m : MemberSpec) : List String :=
  annotationClasses config true m.parameterAnnotations.flatten ++
    if config.annotationValues then m.defaultValue.elim [] ElementSpec.classNames else []

/-- The classes of the annotations inside a body of code. -/
def codeAnnotationNames (config : ExtractionConfig) (m : MemberSpec) : List String :=
  m.code.elim [] fun c => annotationClasses config true c.typeAnnotations

/-- How often a field mentions a class. -/
def timesInField (config : ExtractionConfig) (m : MemberSpec) (target : String) (kind : EdgeKind) :
    Nat :=
  timesDeclared config [(.fieldType, descriptorClass m.descriptor)]
      (m.signature.map fieldSignatureNames) target kind +
    timesNamed [(.annotationRef, m.annotationNames config)] target kind

/-- How often a method mentions a class. -/
def timesInMethod (config : ExtractionConfig) (m : MemberSpec) (target : String)
    (kind : EdgeKind) : Nat :=
  timesDeclared config m.methodNames (m.signature.map methodSignatureNames) target kind +
    timesNamed [(.instructionRef, m.code.elim [] CodeSpec.touchedClasses),
      (.annotationRef, m.annotationNames config), (.annotationRef, m.methodAnnotationNames config),
      (.annotationRef, m.codeAnnotationNames config)] target kind

end MemberSpec

/-- How often a class mentions another one under a kind. -/
def ClassSpec.timesReferenced (config : ExtractionConfig) (c : ClassSpec) (target : String)
    (kind : EdgeKind) : Nat :=
  timesDeclared config [(.superclass, c.superclass.toList), (.interface, c.interfaces)]
      (c.signature.map classSignatureNames) target kind +
    timesNamed [(.annotationRef, annotationClasses config true c.annotations),
      (.annotationRef, annotationClasses config false c.invisibleAnnotations)] target kind +
    sumOf (fun m => m.timesInField config target kind) c.fields +
    sumOf (fun m => m.timesInMethod config target kind) c.methods

/-! ## Well-formed descriptions -/

mutual

/-- All descriptors in a value can be read. -/
def ElementSpec.wellFormed : ElementSpec → Bool
  | .int _ | .str _ => true
  | .enum descriptor _ => (FieldType.parse descriptor).isOk
  | .classValue descriptor => (FieldType.parseResult descriptor).isOk
  | .nested descriptor elements =>
    (FieldType.parse descriptor).isOk && ElementSpec.namedWellFormed elements
  | .array values => ElementSpec.allWellFormed values

def ElementSpec.namedWellFormed : List (String × ElementSpec) → Bool
  | [] => true
  | (_, value) :: rest => value.wellFormed && ElementSpec.namedWellFormed rest

def ElementSpec.allWellFormed : List ElementSpec → Bool
  | [] => true
  | value :: rest => value.wellFormed && ElementSpec.allWellFormed rest

end

def AnnotationSpec.wellFormed (a : AnnotationSpec) : Bool :=
  (FieldType.parse a.descriptor).isOk && ElementSpec.namedWellFormed a.elements

def CodeSpec.wellFormed (c : CodeSpec) : Bool :=
  c.operands.all (fun o => decide (IsEntryName o.owner)) &&
    c.typeAnnotations.all AnnotationSpec.wellFormed

namespace MemberSpec

def annotationsWellFormed (m : MemberSpec) : Bool :=
  m.annotations.all AnnotationSpec.wellFormed &&
    m.invisibleAnnotations.all AnnotationSpec.wellFormed &&
    m.typeAnnotations.all AnnotationSpec.wellFormed

/-- The texts of a field can be read. -/
def fieldWellFormed (m : MemberSpec) : Bool :=
  (FieldType.parse m.descriptor).isOk && m.signature.all (fun t => (RefType.parse t).isOk) &&
    m.annotationsWellFormed

/-- The texts of a method can be read. -/
def methodWellFormed (m : MemberSpec) : Bool :=
  (MethodType.parse m.descriptor).isOk &&
    m.signature.all (fun t => (MethodSignature.parse t).isOk) && m.annotationsWellFormed &&
    m.exceptions.all (fun name => decide (IsEntryName name)) &&
    m.parameterAnnotations.all (·.all AnnotationSpec.wellFormed) &&
    m.defaultValue.all ElementSpec.wellFormed && m.code.all CodeSpec.wellFormed

end MemberSpec

/-- All descriptors, signatures and names of arrays can be read, and no supertype is an array. -/
structure ClassSpec.WellFormed (c : ClassSpec) : Prop where
  superclass : ∀ name ∈ c.superclass, IsPlain name
  interfaces : AllPlain c.interfaces
  signature : c.signature.all (fun t => (ClassSignature.parse t).isOk) = true
  annotations : c.annotations.all AnnotationSpec.wellFormed = true
  invisibleAnnotations : c.invisibleAnnotations.all AnnotationSpec.wellFormed = true
  fields : c.fields.all MemberSpec.fieldWellFormed = true
  methods : c.methods.all MemberSpec.methodWellFormed = true

end ClassAtlas
