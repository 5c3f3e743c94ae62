import ClassAtlas.ClassFile.Annotations
import ClassAtlas.Pool.Decode

/-!
# Class files

What follows the constant pool of a class file: the class itself, its fields and methods, and their
attributes. Names of classes and members are resolved; indices inside attributes stay as they are.

Only the attributes that mention other classes are interpreted. Any other is kept as its name and
its length.
-/

namespace ClassAtlas

/-- A range of code with the class of exceptions it handles; class 0 handles all. -/
structure Handler where
  startPc : UInt16
  endPc : UInt16
  handlerPc : UInt16
  catchType : UInt16
  deriving DecidableEq

/-- An attribute of a body of code. -/
inductive CodeDetail where
  | typeAnnotations (visible : Bool) (annotations : List TypeAnnotationInfo)
  | other (name : String) (length : UInt32)

/-- The body of a method. -/
structure Code where
  maxStack : UInt16
  maxLocals : UInt16
  /-- The absolute offset of the first instruction. -/
  offset : Nat
  bytes : List UInt8
  handlers : List Handler
  details : List CodeDetail

/-- An attribute of a class, a field or a method. -/
inductive Attribute where
  | code (body : Code)
  /-- The classes of the declared exceptions. -/
  | exceptions (classes : List UInt16)
  | signature (text : String)
  | annotations (visible : Bool) (annotations : List AnnotationInfo)
  | parameterAnnotations (visible : Bool) (parameters : List (List AnnotationInfo))
  | typeAnnotations (visible : Bool) (annotations : List TypeAnnotationInfo)
  | defaultValue (value : ElementValue)
  | other (name : String) (length : UInt32)

/-- A field or a method. -/
structure Member where
  accessFlags : UInt16
  name : String
  descriptor : String
  attributes : List Attribute

/-- The part of a class file after its constant pool. -/
structure ClassFile where
  accessFlags : UInt16
  thisClass : String
  superclass : Option String
  interfaces : List String
  fields : List Member
  methods : List Member
  attributes : List Attribute

/-- A decoded class file. -/
structure CompiledUnit where
  version : ClassVersion
  pool : Pool
  classFile : ClassFile

namespace Attribute

def code? : Attribute → Option Code
  | code body => some body
  | _ => none

def signature? : Attribute → Option String
  | signature text => some text
  | _ => none

end Attribute

/-- The text of the first signature among attributes. -/
def signatureOf? (attributes : List Attribute) : Option String :=
  attributes.findSome? Attribute.signature?

/-- The body of a method. -/
def Member.code? (m : Member) : Option Code := m.attributes.findSome? Attribute.code?

def Member.signature? (m : Member) : Option String := signatureOf? m.attributes

def ClassFile.isInterface (c : ClassFile) : Bool := c.accessFlags &&& 0x0200 != 0

def ClassFile.isModule (c : ClassFile) : Bool := c.accessFlags &&& 0x8000 != 0

/-- A unit has the name that it declares. -/
def CompiledUnit.name (unit : CompiledUnit) : String := unit.classFile.thisClass

end ClassAtlas
