import ClassAtlas.Assembler.PoolWriter
import ClassAtlas.Assembler.Spec
import ClassAtlas.Binary.DecodeError

/-!
# Assembling class files

`ClassSpec.assemble` writes the class file of a description. The name of the class is always the
first entry of the constant pool and its class entry the second. The names of attributes are
collected after the bodies of all attributes of the same list.
-/

namespace ClassAtlas

namespace Assemble

/-- Two bytes of a length. -/
def length16 {α : Type} (l : List α) : List UInt8 := Binary.toBigEndian 2 l.length

/-- Written parts one after the other. -/
def concat {α : Type} (part : α → Assemble (List UInt8)) (parts : List α) :
    Assemble (List UInt8) := return (← parts.mapM part).flatten

/-- Written parts preceded by their number. -/
def counted {α : Type} (part : α → Assemble (List UInt8)) (parts : List α) :
    Assemble (List UInt8) := return length16 parts ++ (← concat part parts)

/-- The class entry of a name. -/
def classIndex (name : String) : Assemble (List UInt8) := return Binary.word16 (← classEntry name)

/-- The text entry of a text. -/
def textIndex (text : String) : Assemble (List UInt8) := return Binary.word16 (← utf8 text)

/-- Attributes with written bodies, preceded by their number. -/
def attributes (attrs : List (String × List UInt8)) : Assemble (List UInt8) :=
  counted (fun (name, body) =>
    return (← textIndex name) ++ Binary.toBigEndian 4 body.length ++ body) attrs

/-- An attribute that is written only if the list it is made from has elements. -/
def unlessEmpty {α : Type} (name : String) (l : List α) (body : List α → Assemble (List UInt8)) :
    Assemble (List (String × List UInt8)) :=
  if l.isEmpty then return [] else return [(name, ← body l)]

/-- An attribute that is written only if there is something to write. -/
def ifSome {α : Type} (name : String) (o : Option α) (body : α → Assemble (List UInt8)) :
    Assemble (List (String × List UInt8)) :=
  match o with
  | none => return []
  | some a => return [(name, ← body a)]

/-! ## Annotations -/

mutual

def element : ElementSpec → Assemble (List UInt8)
  | .int value => return 'I'.toUInt8 :: Binary.word16 (← intern (.integer value))
  | .str text => return 's'.toUInt8 :: (← textIndex text)
  | .enum descriptor constant =>
    return 'e'.toUInt8 :: (← textIndex descriptor) ++ (← textIndex constant)
  | .classValue descriptor => return 'c'.toUInt8 :: (← textIndex descriptor)
  | .nested descriptor values => do
    let type ← textIndex descriptor
    return '@'.toUInt8 :: type ++ length16 values ++ (← namedElements values)
  | .array values => return '['.toUInt8 :: length16 values ++ (← elements values)

def namedElements : List (String × ElementSpec) → Assemble (List UInt8)
  | [] => return []
  | (name, value) :: rest => do
    let name ← textIndex name
    let value ← element value
    return name ++ value ++ (← namedElements rest)

def elements : List ElementSpec → Assemble (List UInt8)
  | [] => return []
  | value :: rest => return (← element value) ++ (← elements rest)

end

def annotationSpec (a : AnnotationSpec) : Assemble (List UInt8) := do
  let type ← textIndex a.descriptor
  return type ++ length16 a.elements ++ (← namedElements a.elements)

/-- Annotations preceded by their number. -/
def annotationSpecs (l : List AnnotationSpec) : Assemble (List UInt8) := counted annotationSpec l

/-- Type annotations preceded by their number; each has the same target and an empty path. -/
def typeAnnotations (target : List UInt8) (l : List AnnotationSpec) : Assemble (List UInt8) :=
  counted (fun a => return target ++ (← annotationSpec a)) l

/-! ## Code -/

/-- An opcode with a pool index of two bytes. -/
def indexed (opcode : UInt8) (index : UInt16) : List UInt8 := opcode :: Binary.word16 index

/-- Loads a constant with the shortest instruction. -/
def load (index : UInt16) : List UInt8 :=
  if index.toNat ≤ 255 then [0x12, index.toUInt8] else indexed 0x13 index

/-- The kind of reference that an instruction needs. -/
def memberEntry : MemberOp → UInt16 → UInt16 → PoolEntry
  | .getStatic | .putStatic | .getField | .putField => .fieldRef
  | .invokeVirtual | .invokeSpecial | .invokeStatic => .methodRef
  | .invokeInterface => .interfaceMethodRef

/-- What follows the pool index of a member. -/
def memberExtra : MemberOp → List UInt8
  | .invokeInterface => [1, 0]
  | _ => []

def instruction : InsnSpec → Assemble (List UInt8)
  | .raw bytes => return bytes
  | .onClass op name => return indexed op.opcode (← classEntry name)
  | .multiNewArray name dims => return indexed 0xc5 (← classEntry name) ++ [dims]
  | .onMember op owner name descriptor =>
    return indexed op.opcode (← member (memberEntry op) owner name descriptor) ++ memberExtra op
  | .loadClass name => return load (← classEntry name)
  | .loadString text => return load (← string text)
  | .loadLong value => return indexed 0x14 (← intern (.long value))
  | .returnVoid => return [0xb1]

/-- The body of the `Code` attribute. -/
def code (c : CodeSpec) : Assemble (List UInt8) := do
  let bytecode ← concat instruction c.instructions
  let handlers ← counted (fun name =>
    return Binary.word16 0 ++ length16 bytecode ++ Binary.word16 0 ++ (← classIndex name))
    c.catchTypes
  let marks ← unlessEmpty "RuntimeVisibleTypeAnnotations" c.typeAnnotations
    (typeAnnotations [0x47, 0, 0, 0, 0])
  let attrs ← attributes marks
  return Binary.word16 4 ++ Binary.word16 4 ++ Binary.toBigEndian 4 bytecode.length ++ bytecode ++
    handlers ++ attrs

/-! ## Members and classes -/

/-- Annotations of each parameter, preceded by the number of parameters in one byte. -/
def parameterAnnotations (parameters : List (List AnnotationSpec)) : Assemble (List UInt8) :=
  return UInt8.ofNat parameters.length :: (← concat annotationSpecs parameters)

/-- The attributes of a member with their bodies, in their fixed order. -/
def memberAttributes (m : MemberSpec) : Assemble (List (String × List UInt8)) := do
  let code ← ifSome "Code" m.code code
  let exceptions ← unlessEmpty "Exceptions" m.exceptions (counted classIndex)
  let signature ← ifSome "Signature" m.signature textIndex
  let visible ← unlessEmpty "RuntimeVisibleAnnotations" m.annotations annotationSpecs
  let invisible ← unlessEmpty "RuntimeInvisibleAnnotations" m.invisibleAnnotations annotationSpecs
  let parameters ← unlessEmpty "RuntimeVisibleParameterAnnotations" m.parameterAnnotations
    parameterAnnotations
  let types ← unlessEmpty "RuntimeVisibleTypeAnnotations" m.typeAnnotations
    (typeAnnotations [0x13, 0])
  let default ← ifSome "AnnotationDefault" m.defaultValue element
  return code ++ exceptions ++ signature ++ visible ++ invisible ++ parameters ++ types ++ default

def memberSpec (m : MemberSpec) : Assemble (List UInt8) := do
  let name ← textIndex m.name
  let descriptor ← textIndex m.descriptor
  let attrs ← attributes (← memberAttributes m)
  return Binary.word16 m.accessFlags ++ name ++ descriptor ++ attrs

/-- The superclass; index 0 stands for none. -/
def superclassIndex : Option String → Assemble (List UInt8)
  | none => return Binary.word16 0
  | some name => classIndex name

/-- Everything after the constant pool. -/
def classBody (c : ClassSpec) : Assemble (List UInt8) := do
  let thisClass ← classIndex c.name
  let superclass ← superclassIndex c.superclass
  let interfaces ← counted classIndex c.interfaces
  let fields ← counted memberSpec c.fields
  let methods ← counted memberSpec c.methods
  let signature ← ifSome "Signature" c.signature textIndex
  let visible ← unlessEmpty "RuntimeVisibleAnnotations" c.annotations annotationSpecs
  let invisible ← unlessEmpty "RuntimeInvisibleAnnotations" c.invisibleAnnotations annotationSpecs
  let attrs ← attributes (signature ++ visible ++ invisible ++ c.rawAttributes)
  return Binary.word16 c.accessFlags ++ thisClass ++ superclass ++ interfaces ++ fields ++
    methods ++ attrs

end Assemble

/-- The class file of a description. -/
def ClassSpec.assemble (c : ClassSpec) : List UInt8 :=
  let (body, pool) := (Assemble.classBody c).run .empty
  Binary.word32 classFileMagic ++ Binary.word16 0 ++ Binary.word16 c.major ++
    Binary.word16 pool.next ++ pool.bytes ++ body

end ClassAtlas
