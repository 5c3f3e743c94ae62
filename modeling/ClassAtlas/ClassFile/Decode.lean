import ClassAtlas.ClassFile.Basic

/-!
# Decoding class files

An attribute is decoded by its name and by where it stands: on a class, a field or a method, or on a
body of code. Its content has to end exactly where its declared length says. Bytes after the
attributes of the class are ignored.
-/

namespace ClassAtlas

/-- What an attribute belongs to. -/
inductive Place where
  | onClass
  | onField
  | onMethod
  deriving DecidableEq

/-- One attribute: `content?` decodes the names it knows, `other` keeps the rest. -/
def attributeWith {α : Type} (pool : Pool) (content? : String → Option (Decoder α))
    (other : String → UInt32 → α) : Decoder α := do
  let name ← Decoder.ofExcept (pool.utf8 (← Decoder.uint16))
  let length ← Decoder.uint32
  let body ← Decoder.part length.toNat
  match content? name with
  | none => return other name length
  | some content =>
    let (value, left) ← Decoder.within body content
    if !left.isEmpty then
      Decoder.fail (.attributeTooLong name length left.remaining left.position)
    return value

namespace CodeDetail

/-- The attributes of code that are interpreted. -/
def content? : String → Option (Decoder CodeDetail)
  | "RuntimeVisibleTypeAnnotations" =>
    some (typeAnnotations true <$> Decoder.counted TypeAnnotationInfo.decode)
  | "RuntimeInvisibleTypeAnnotations" =>
    some (typeAnnotations false <$> Decoder.counted TypeAnnotationInfo.decode)
  | _ => none

end CodeDetail

def Handler.decode : Decoder Handler :=
  return ⟨← Decoder.uint16, ← Decoder.uint16, ← Decoder.uint16, ← Decoder.uint16⟩

def Code.decode (pool : Pool) : Decoder Code := do
  let maxStack ← Decoder.uint16
  let maxLocals ← Decoder.uint16
  let length ← Decoder.uint32
  let offset ← Decoder.position
  let bytes ← Decoder.take length.toNat
  let handlers ← Decoder.counted Handler.decode
  let details ← Decoder.counted (attributeWith pool CodeDetail.content? .other)
  return ⟨maxStack, maxLocals, offset, bytes, handlers, details⟩

namespace Attribute

/-- Annotations of each parameter, preceded by the number of parameters in one byte. -/
def parameterLists : Decoder (List (List AnnotationInfo)) := do
  Decoder.replicate (Decoder.counted AnnotationInfo.decode) (← Decoder.uint8).toNat

/-- The attributes that are interpreted at a place. -/
def content? (pool : Pool) (place : Place) (name : String) : Option (Decoder Attribute) :=
  match name, place with
  | "Code", .onMethod => some (code <$> Code.decode pool)
  | "Exceptions", .onMethod => some (exceptions <$> Decoder.counted Decoder.uint16)
  | "Signature", _ => some (signature <$> (do Decoder.ofExcept (pool.utf8 (← Decoder.uint16))))
  | "RuntimeVisibleAnnotations", _ =>
    some (annotations true <$> Decoder.counted AnnotationInfo.decode)
  | "RuntimeInvisibleAnnotations", _ =>
    some (annotations false <$> Decoder.counted AnnotationInfo.decode)
  | "RuntimeVisibleParameterAnnotations", .onMethod =>
    some (parameterAnnotations true <$> parameterLists)
  | "RuntimeInvisibleParameterAnnotations", .onMethod =>
    some (parameterAnnotations false <$> parameterLists)
  | "RuntimeVisibleTypeAnnotations", _ =>
    some (typeAnnotations true <$> Decoder.counted TypeAnnotationInfo.decode)
  | "RuntimeInvisibleTypeAnnotations", _ =>
    some (typeAnnotations false <$> Decoder.counted TypeAnnotationInfo.decode)
  | "AnnotationDefault", .onMethod => some (defaultValue <$> ElementValue.decode maxElementDepth)
  | _, _ => none

/-- The attributes of something that stands at a place. -/
def decodeAll (pool : Pool) (place : Place) : Decoder (List Attribute) :=
  Decoder.counted (attributeWith pool (content? pool place) .other)

end Attribute

def Member.decode (pool : Pool) (place : Place) : Decoder Member := do
  let accessFlags ← Decoder.uint16
  let name ← Decoder.ofExcept (pool.utf8 (← Decoder.uint16))
  let descriptor ← Decoder.ofExcept (pool.utf8 (← Decoder.uint16))
  let attributes ← Attribute.decodeAll pool place
  return ⟨accessFlags, name, descriptor, attributes⟩

namespace ClassFile

/-- The name of a class, given by the index of its entry. -/
def classRef (pool : Pool) : Decoder String := do
  Decoder.ofExcept (pool.className (← Decoder.uint16))

/-- The superclass; index 0 stands for none. -/
def superclassRef (pool : Pool) : Decoder (Option String) := do
  let index ← Decoder.uint16
  if index = 0 then return none
  return some (← Decoder.ofExcept (pool.className index))

/-- The decoder of everything after the constant pool. -/
def decoder (pool : Pool) : Decoder ClassFile := do
  let accessFlags ← Decoder.uint16
  let thisClass ← classRef pool
  let superclass ← superclassRef pool
  let interfaces ← Decoder.counted (classRef pool)
  let fields ← Decoder.counted (Member.decode pool .onField)
  let methods ← Decoder.counted (Member.decode pool .onMethod)
  let attributes ← Attribute.decodeAll pool .onClass
  return ⟨accessFlags, thisClass, superclass, interfaces, fields, methods, attributes⟩

/-- Decodes the part of a file that starts at an offset. -/
def decodeAt (pool : Pool) (bytes : List UInt8) (offset : Nat) : Except DecodeError ClassFile :=
  if bytes.length < offset then
    .error (.unexpectedEnd bytes.length (offset - bytes.length) 0)
  else (decoder pool).run' (.ofBytes (bytes.drop offset) offset)

end ClassFile

/-- Decodes a class file. -/
def CompiledUnit.decode (bytes : List UInt8) : Except DecodeError CompiledUnit := do
  let header ← PoolHeader.decode bytes
  let classFile ← ClassFile.decodeAt header.pool bytes header.sectionsOffset
  return ⟨header.version, header.pool, classFile⟩

end ClassAtlas
