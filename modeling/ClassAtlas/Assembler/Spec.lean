/-!
# Descriptions of class files

What a class file is to contain, in names rather than pool indices.
-/

namespace ClassAtlas

/-- An instruction with a class operand. -/
inductive ClassOp where
  | newObject
  | newArray
  | checkCast
  | instanceOf
  deriving DecidableEq

def ClassOp.opcode : ClassOp → UInt8
  | newObject => 0xbb
  | newArray => 0xbd
  | checkCast => 0xc0
  | instanceOf => 0xc1

/-- An instruction with a member operand. -/
inductive MemberOp where
  | getStatic
  | putStatic
  | getField
  | putField
  | invokeVirtual
  | invokeSpecial
  | invokeStatic
  | invokeInterface
  deriving DecidableEq

def MemberOp.opcode : MemberOp → UInt8
  | getStatic => 0xb2
  | putStatic => 0xb3
  | getField => 0xb4
  | putField => 0xb5
  | invokeVirtual => 0xb6
  | invokeSpecial => 0xb7
  | invokeStatic => 0xb8
  | invokeInterface => 0xb9

/-- An instruction of a body. -/
inductive InsnSpec where
  /-- Bytes as they are. -/
  | raw (bytes : List UInt8)
  | onClass (op : ClassOp) (name : String)
  | multiNewArray (name : String) (dims : UInt8)
  | onMember (op : MemberOp) (owner name descriptor : String)
  | loadClass (name : String)
  | loadString (text : String)
  | loadLong (value : Int64)
  | returnVoid

/-- The value of an element of an annotation. -/
inductive ElementSpec where
  | int (value : Int32)
  | str (text : String)
  | enum (descriptor constant : String)
  /-- A class, given by the descriptor of a result. -/
  | classValue (descriptor : String)
  | nested (descriptor : String) (elements : List (String × ElementSpec))
  | array (values : List ElementSpec)

/-- An annotation, given by the descriptor of its type. -/
structure AnnotationSpec where
  descriptor : String
  elements : List (String × ElementSpec)

/-- The descriptor of a class. -/
def classDescriptor (name : String) : String := "L" ++ name ++ ";"

/-- A body of code. -/
structure CodeSpec where
  instructions : List InsnSpec
  /-- One handler of the whole body for each class. -/
  catchTypes : List String
  typeAnnotations : List AnnotationSpec

/-- A field or a method. -/
structure MemberSpec where
  accessFlags : UInt16
  name : String
  descriptor : String
  signature : Option String
  exceptions : List String
  annotations : List AnnotationSpec
  invisibleAnnotations : List AnnotationSpec
  parameterAnnotations : List (List AnnotationSpec)
  typeAnnotations : List AnnotationSpec
  defaultValue : Option ElementSpec
  code : Option CodeSpec

/-- Adds an annotation to the list of a parameter; lists for the parameters before it are added as
needed. -/
def annotateParameter (parameters : List (List AnnotationSpec)) (parameter : Nat)
    (a : AnnotationSpec) : List (List AnnotationSpec) :=
  let padded := parameters ++ List.replicate (parameter + 1 - parameters.length) []
  padded.modify parameter (· ++ [a])

/-- A class file. -/
structure ClassSpec where
  name : String
  major : UInt16
  accessFlags : UInt16
  superclass : Option String
  interfaces : List String
  fields : List MemberSpec
  methods : List MemberSpec
  signature : Option String
  annotations : List AnnotationSpec
  invisibleAnnotations : List AnnotationSpec
  /-- Attributes written as they are, by name. -/
  rawAttributes : List (String × List UInt8)

end ClassAtlas
