import ClassAtlas.Proofs.Extraction.Meaning

/-!
# What a decoded unit mentions

How often a decoded class mentions another one, read off its parts and its constant pool. Nothing is
said about how the parts are visited, about caches or about tallies.

* Of the two views of a declaration, its descriptors and its generic signature, the larger number
  counts if signatures are asked for. In the header the larger number is taken for each name as it
  is written, and the name of an array stands for its element class only afterwards.
* A body of code mentions the class of each pool entry that it touches once, whatever touches it.
* Annotations are a forest; each place in it that names a type is a mention.

## Main definitions

* `Pool.classAt?` is the class that a pool entry leads to.
* `ClassFile.timesInherited`, `Member.timesInField` and `Member.timesInMethod` count in
  declarations, `Code.timesTouched` in bodies and `CompiledUnit.typeUses` lists the places in
  annotations.
* `CompiledUnit.timesReferenced` is the number of mentions of a target under a kind.
* `CompiledUnit.SameUse` relates units that differ in the order and the number of instructions and
  handlers only.
-/

namespace ClassAtlas

open Name

/-! ## Code -/

namespace Pool

/-- The owner of the member at an index. -/
def memberOwner? (pool : Pool) (i : UInt16) : Option String :=
  (pool.memberRef i).toOption.map MemberRef.owner

/-- The name that the entry at an index leads to: that of a class, or that of the owner of a member.
A method handle leads where its member does. -/
def ownerAt? (pool : Pool) (i : UInt16) : Option String :=
  match pool.get i with
  | .ok (.classEntry _) => (pool.className i).toOption
  | .ok (.fieldRef ..) | .ok (.methodRef ..) | .ok (.interfaceMethodRef ..) => pool.memberOwner? i
  | .ok (.methodHandle _ member) => pool.memberOwner? member
  | _ => none

/-- The class that the entry at an index leads to. -/
def classAt? (pool : Pool) (i : UInt16) : Option String := (pool.ownerAt? i).bind elementClass?

end Pool

namespace Code

/-- The classes that handlers catch, as pool indices. -/
def caught (c : Code) : List UInt16 := (c.handlers.map Handler.catchType).filter (· ≠ 0)

/-- The pool indices that instructions and handlers touch. -/
def touchedIndices (c : Code) : List UInt16 :=
  ((scanCode c.bytes c.offset).toOption.getD []).map InstructionRef.index ++ c.caught

/-- How many of the distinct pool indices that a body touches lead to a class. -/
def timesTouched (pool : Pool) (c : Code) (target : String) : Nat :=
  c.touchedIndices.dedup.countP fun i => pool.classAt? i = some target

end Code

/-! ## Annotations -/

/-- A place in an annotation that names a type, by the pool index of its descriptor. -/
inductive TypeUse where
  | type (descriptor : UInt16)
  /-- A class value, which has the descriptor of a result. -/
  | result (descriptor : UInt16)
  deriving DecidableEq

/-- The class at the bottom of the type. -/
def TypeUse.class? (pool : Pool) : TypeUse → Option String
  | type i => (pool.utf8 i).toOption.bind fun text =>
    (FieldType.parse text).toOption.bind FieldType.classLeaf?
  | result i => (pool.utf8 i).toOption.bind fun text =>
    (FieldType.parseResult text).toOption.bind fun t => t.bind FieldType.classLeaf?

mutual

/-- The places in a value from left to right. -/
def ElementValue.typeUses : ElementValue → List TypeUse
  | .const _ _ => []
  | .enum type _ => [.type type]
  | .classInfo descriptor => [.result descriptor]
  | .nested type elements => .type type :: ElementValue.namedTypeUses elements
  | .array values => ElementValue.allTypeUses values

def ElementValue.namedTypeUses : List (UInt16 × ElementValue) → List TypeUse
  | [] => []
  | (_, value) :: rest => value.typeUses ++ ElementValue.namedTypeUses rest

def ElementValue.allTypeUses : List ElementValue → List TypeUse
  | [] => []
  | value :: rest => value.typeUses ++ ElementValue.allTypeUses rest

end

/-- The places in an annotation, those in its values if they are asked for. -/
def AnnotationInfo.typeUses (config : ExtractionConfig) (a : AnnotationInfo) : List TypeUse :=
  .type a.type :: if config.annotationValues then ElementValue.namedTypeUses a.elements else []

/-- The places in annotations, if they are visible or invisible ones are asked for. -/
def annotationUses (config : ExtractionConfig) (visible : Bool) (l : List AnnotationInfo) :
    List TypeUse :=
  if visible || config.invisible then l.flatMap (AnnotationInfo.typeUses config) else []

def Attribute.typeUses (config : ExtractionConfig) : Attribute → List TypeUse
  | .annotations visible l => annotationUses config visible l
  | .parameterAnnotations visible parameters => annotationUses config visible parameters.flatten
  | .typeAnnotations visible l => annotationUses config visible (l.map (·.info))
  | .defaultValue value => if config.annotationValues then value.typeUses else []
  | .code _ | .exceptions _ | .signature _ | .other .. => []

def CodeDetail.typeUses (config : ExtractionConfig) : CodeDetail → List TypeUse
  | .typeAnnotations visible l => annotationUses config visible (l.map (·.info))
  | .other .. => []

/-- The places in the annotations of a field. -/
def Member.fieldTypeUses (config : ExtractionConfig) (m : Member) : List TypeUse :=
  m.attributes.flatMap (Attribute.typeUses config)

/-- The places in the annotations of a method, those inside its body first. -/
def Member.methodTypeUses (config : ExtractionConfig) (m : Member) : List TypeUse :=
  m.code?.elim [] (fun c => c.details.flatMap (CodeDetail.typeUses config)) ++
    m.attributes.flatMap (Attribute.typeUses config)

/-- The places in all annotations of a unit. -/
def CompiledUnit.typeUses (config : ExtractionConfig) (u : CompiledUnit) : List TypeUse :=
  u.classFile.attributes.flatMap (Attribute.typeUses config) ++
    u.classFile.fields.flatMap (Member.fieldTypeUses config) ++
    u.classFile.methods.flatMap (Member.methodTypeUses config)

/-! ## Declarations -/

/-- How often a declaration stands for a class: the larger number of the two views is taken for each
of the names as they are written, before the names of arrays are reduced. -/
def timesReduced (config : ExtractionConfig) (declared : List (EdgeKind × List String))
    (signature : Option (List (EdgeKind × List String))) (target : String) (kind : EdgeKind) :
    Nat :=
  sumOf (fun name => timesDeclared config declared signature name kind)
    (((declared ++ signature.getD []).flatMap (·.2)).dedup.filter (elementClass? · = some target))

/-- How often the header of a class mentions another one. -/
def ClassFile.timesInherited (config : ExtractionConfig) (c : ClassFile) :
    String → EdgeKind → Nat :=
  timesReduced config [(.superclass, c.superclass.toList), (.interface, c.interfaces)]
    ((signatureOf? c.attributes).map classSignatureNames)

namespace Member

/-- How often the declaration of a field mentions a class. -/
def timesInField (config : ExtractionConfig) (m : Member) : String → EdgeKind → Nat :=
  timesDeclared config [(.fieldType, descriptorClass m.descriptor)]
    (m.signature?.map fieldSignatureNames)

/-- The classes of the declared exceptions of a method. -/
def thrownClasses (pool : Pool) (m : Member) : List String :=
  (Extract.exceptionIndices m).filterMap fun i => (pool.className i).toOption.bind elementClass?

/-- The names in the descriptor and the exceptions of a method. -/
def methodNames (pool : Pool) (m : Member) : List (EdgeKind × List String) :=
  match MethodType.parse m.descriptor with
  | .ok t => [(.methodParam, t.params.filterMap FieldType.classLeaf?),
    (.methodReturn, (t.result.bind FieldType.classLeaf?).toList),
    (.methodThrows, m.thrownClasses pool)]
  | .error _ => []

/-- How often the declaration of a method mentions a class. -/
def timesInMethod (config : ExtractionConfig) (pool : Pool) (m : Member) :
    String → EdgeKind → Nat :=
  timesDeclared config (m.methodNames pool) (m.signature?.map methodSignatureNames)

/-- How often the body of a method mentions a class. -/
def timesTouched (pool : Pool) (m : Member) (target : String) : Nat :=
  m.code?.elim 0 fun c => c.timesTouched pool target

end Member

/-- How often a unit mentions another one under a kind. -/
def CompiledUnit.timesReferenced (config : ExtractionConfig) (u : CompiledUnit) (target : String) :
    EdgeKind → Nat
  | .instructionRef => sumOf (fun m => m.timesTouched u.pool target) u.classFile.methods
  | .annotationRef => (u.typeUses config).countP fun use => use.class? u.pool = some target
  | kind => u.classFile.timesInherited config target kind +
      sumOf (fun m => m.timesInField config target kind) u.classFile.fields +
      sumOf (fun m => m.timesInMethod config u.pool target kind) u.classFile.methods

/-! ## Units that use the same entries -/

/-- What an instruction does with the pool entry at its index, wherever it stands. -/
def InstructionRef.use (ref : InstructionRef) : UInt8 × UInt16 := (ref.opcode, ref.index)

/-- The instructions are the same up to their order and number as far as they refer to the pool, and
so are the caught classes; the attributes of the two bodies are equal. -/
structure Code.SameUse (c c' : Code) : Prop where
  instructions : ∃ refs refs', scanCode c.bytes c.offset = .ok refs ∧
    scanCode c'.bytes c'.offset = .ok refs' ∧
    ∀ use, use ∈ refs.map InstructionRef.use ↔ use ∈ refs'.map InstructionRef.use
  handlers : ∀ i, i ∈ c.handlers.map Handler.catchType ↔ i ∈ c'.handlers.map Handler.catchType
  details : c.details = c'.details

/-- The attributes are equal, or bodies of the same use. -/
inductive Attribute.SameUse : Attribute → Attribute → Prop
  | code {c c' : Code} (h : c.SameUse c') : Attribute.SameUse (.code c) (.code c')
  | refl (a : Attribute) : Attribute.SameUse a a

/-- The members are equal up to attributes of the same use. -/
def Member.SameUse (m m' : Member) : Prop :=
  ∃ attributes, m' = { m with attributes } ∧
    List.Forall₂ Attribute.SameUse m.attributes attributes

/-- The units are equal up to bodies of the same use. -/
def CompiledUnit.SameUse (u u' : CompiledUnit) : Prop :=
  ∃ methods, u' = { u with classFile := { u.classFile with methods } } ∧
    List.Forall₂ Member.SameUse u.classFile.methods methods

end ClassAtlas
