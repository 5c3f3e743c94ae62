import ClassAtlas.Binary.Reader

/-!
# Annotations

Annotations and their element values as class files hold them; every name stays a pool index.

Element values nest at most `maxElementDepth` deep. Their decoder is a recursion on the number of
levels that are left, so `ElementValue.decode n` accepts a value with at most `n` levels.
-/

namespace ClassAtlas

/-- The value of an element of an annotation. -/
inductive ElementValue where
  /-- A constant; the tag says of which type. -/
  | const (tag : UInt8) (index : UInt16)
  | enum (type name : UInt16)
  /-- A class, given by the descriptor of a result. -/
  | classInfo (descriptor : UInt16)
  /-- An annotation inside an annotation. -/
  | nested (type : UInt16) (elements : List (UInt16 × ElementValue))
  | array (values : List ElementValue)

/-- An annotation: the descriptor of its type, and its elements by name. -/
structure AnnotationInfo where
  type : UInt16
  elements : List (UInt16 × ElementValue)

/-- Which part of a declaration or a body a type annotation belongs to. -/
inductive AnnotationTarget where
  | typeParameter (index : UInt8)
  | supertype (index : UInt16)
  | typeParameterBound (parameter bound : UInt8)
  | empty
  | formalParameter (index : UInt8)
  | throws (index : UInt16)
  /-- A local variable with a table of so many ranges. -/
  | localVariable (entries : UInt16)
  | handler (index : UInt16)
  | offset (offset : UInt16)
  | typeArgument (offset : UInt16) (index : UInt8)
  deriving DecidableEq

/-- An annotation of a use of a type. -/
structure TypeAnnotationInfo where
  targetType : UInt8
  target : AnnotationTarget
  /-- The number of steps that lead to the annotated part of the type. -/
  pathLength : UInt8
  info : AnnotationInfo

namespace ElementValue

/-- The tags of constants. -/
def constTags : List UInt8 := "BCDFIJSZs".toList.map fun c => UInt8.ofNat c.toNat

/-- The elements of an annotation, given a decoder of their values. -/
def elements (value : Decoder ElementValue) : Decoder (List (UInt16 × ElementValue)) :=
  Decoder.counted do
    let name ← Decoder.uint16
    let value ← value
    return (name, value)

/-- What follows a tag, which stands at `offset`, given a decoder of inner values. -/
def body (inner : Decoder ElementValue) (tag : UInt8) (offset : Nat) : Decoder ElementValue := do
  if constTags.contains tag then return .const tag (← Decoder.uint16)
  match Char.ofNat tag.toNat with
  | 'e' => return .enum (← Decoder.uint16) (← Decoder.uint16)
  | 'c' => return .classInfo (← Decoder.uint16)
  | '@' => return .nested (← Decoder.uint16) (← elements inner)
  | '[' => return .array (← Decoder.counted inner)
  | _ => Decoder.fail (.unknownElementTag tag offset)

/-- An element value with at most so many levels. -/
def decode : Nat → Decoder ElementValue
  | 0 => do Decoder.fail (.elementsTooDeep (← Decoder.position))
  | levels + 1 => do
    let offset ← Decoder.position
    let tag ← Decoder.uint8
    body (decode levels) tag offset

end ElementValue

def AnnotationInfo.decode : Decoder AnnotationInfo := do
  let type ← Decoder.uint16
  let elements ← ElementValue.elements (ElementValue.decode maxElementDepth)
  return ⟨type, elements⟩

/-- What follows the kind of a target, which stands at `offset`. -/
def AnnotationTarget.body (kind : UInt8) (offset : Nat) : Decoder AnnotationTarget := do
  if kind ≤ 0x01 then return .typeParameter (← Decoder.uint8)
  else if kind = 0x10 then return .supertype (← Decoder.uint16)
  else if kind = 0x11 ∨ kind = 0x12 then
    return .typeParameterBound (← Decoder.uint8) (← Decoder.uint8)
  else if 0x13 ≤ kind ∧ kind ≤ 0x15 then return .empty
  else if kind = 0x16 then return .formalParameter (← Decoder.uint8)
  else if kind = 0x17 then return .throws (← Decoder.uint16)
  else if kind = 0x40 ∨ kind = 0x41 then
    let entries ← Decoder.uint16
    Decoder.skip (entries.toNat * 6)
    return .localVariable entries
  else if kind = 0x42 then return .handler (← Decoder.uint16)
  else if 0x43 ≤ kind ∧ kind ≤ 0x46 then return .offset (← Decoder.uint16)
  else if 0x47 ≤ kind ∧ kind ≤ 0x4B then return .typeArgument (← Decoder.uint16) (← Decoder.uint8)
  else Decoder.fail (.unknownTarget kind offset)

def TypeAnnotationInfo.decode : Decoder TypeAnnotationInfo := do
  let offset ← Decoder.position
  let kind ← Decoder.uint8
  let target ← AnnotationTarget.body kind offset
  let pathLength ← Decoder.uint8
  Decoder.skip (pathLength.toNat * 2)
  let info ← AnnotationInfo.decode
  return ⟨kind, target, pathLength, info⟩

end ClassAtlas
