import ClassAtlas.Descriptor.Fault

/-!
# Descriptors

The type of a field or a method as class files write it (`[Ljava/lang/String;`, `(IJ)V`).

## Main definitions

* `FieldType` is an element type under a number of array dimensions, so an array of arrays has one
  form only.
* `MethodType` is a list of parameters with a result.
* `FieldType.chars`, `MethodType.chars` and `Descriptor.chars` write them down.
-/

namespace ClassAtlas

/-- The primitive types. -/
inductive Primitive where
  | byte | char | double | float | int | long | short | boolean
  deriving DecidableEq, Repr

namespace Primitive

def all : List Primitive := [byte, char, double, float, int, long, short, boolean]

/-- The letter of a primitive type in descriptors. -/
def code : Primitive → Char
  | byte => 'B'
  | char => 'C'
  | double => 'D'
  | float => 'F'
  | int => 'I'
  | long => 'J'
  | short => 'S'
  | boolean => 'Z'

/-- The keyword of a primitive type. -/
def keyword : Primitive → String
  | byte => "byte"
  | char => "char"
  | double => "double"
  | float => "float"
  | int => "int"
  | long => "long"
  | short => "short"
  | boolean => "boolean"

/-- The primitive type with a given letter. -/
def ofCode? (c : Char) : Option Primitive := all.find? fun p => p.code == c

theorem ofCode?_code (p : Primitive) : ofCode? p.code = some p := by cases p <;> decide

end Primitive

/-- A type that is no array. -/
inductive ElementType where
  | primitive (type : Primitive)
  | object (name : String)
  deriving DecidableEq, Repr

/-- The type of a field, a parameter or a result. -/
structure FieldType where
  /-- The number of array dimensions. -/
  dims : Nat
  element : ElementType
  deriving DecidableEq, Repr

/-- The type of a method; `none` is the result of a method that returns nothing. -/
structure MethodType where
  params : List FieldType
  result : Option FieldType
  deriving DecidableEq, Repr

/-- The type of a field or a method. -/
inductive Descriptor where
  | field (type : FieldType)
  | method (type : MethodType)
  deriving DecidableEq, Repr

/-! ## Written form -/

def ElementType.chars : ElementType → List Char
  | primitive p => [p.code]
  | object name => 'L' :: (name.toList ++ [';'])

def FieldType.chars (t : FieldType) : List Char := List.replicate t.dims '[' ++ t.element.chars

/-- The written form of a result; `V` stands for none. -/
def resultChars : Option FieldType → List Char
  | none => ['V']
  | some t => t.chars

def MethodType.chars (m : MethodType) : List Char :=
  '(' :: (m.params.flatMap FieldType.chars ++ ')' :: resultChars m.result)

def Descriptor.chars : Descriptor → List Char
  | field t => t.chars
  | method m => m.chars

def FieldType.text (t : FieldType) : String := String.ofList t.chars

def Descriptor.text (d : Descriptor) : String := String.ofList d.chars

/-! ## Classes mentioned -/

/-- The class at the bottom of a type, below any array dimensions. -/
def FieldType.classLeaf? (t : FieldType) : Option String :=
  match t.element with
  | .primitive _ => none
  | .object name => some name

/-- The classes of a method type from left to right, the parameters before the result. -/
def MethodType.classNames (m : MethodType) : List String :=
  m.params.filterMap FieldType.classLeaf? ++ (m.result.bind FieldType.classLeaf?).toList

/-- The classes of a descriptor from left to right. -/
def Descriptor.classNames : Descriptor → List String
  | field t => t.classLeaf?.toList
  | method m => m.classNames

end ClassAtlas
