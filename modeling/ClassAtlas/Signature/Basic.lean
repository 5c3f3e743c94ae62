import ClassAtlas.Descriptor.Basic

/-!
# Generic signatures

Types with type variables and type arguments, as the `Signature` attribute holds them.

## Main definitions

* `RefType` is a class with type arguments, a type variable or an array; `SigType` also has the
  primitive types.
* `ClassSignature` and `MethodSignature` are the signatures of classes and methods; the signature
  of a field is a `RefType`.
* `classNames` lists the classes that a part mentions, from left to right, also inside type
  arguments.
-/

namespace ClassAtlas

mutual

/-- A reference type. -/
inductive RefType where
  /-- A class; inner classes are joined to the outer one by `$`, and the type arguments of all
  parts stand one after the other. -/
  | object (name : String) (args : List TypeArg)
  | var (name : String)
  | array (element : SigType)

/-- A primitive or reference type. -/
inductive SigType where
  | primitive (type : Primitive)
  | ref (type : RefType)

/-- A type argument. -/
inductive TypeArg where
  | any
  | upTo (bound : RefType)
  | downTo (bound : RefType)
  | exactly (type : RefType)

end

/-- A class with type arguments. -/
structure ClassType where
  name : String
  args : List TypeArg

/-- A type parameter with its bounds. -/
structure TypeParam where
  name : String
  classBound : Option RefType
  interfaceBounds : List RefType

/-- The signature of a class. -/
structure ClassSignature where
  params : List TypeParam
  superclass : ClassType
  interfaces : List ClassType

/-- The signature of a method; `none` is the result of a method that returns nothing. -/
structure MethodSignature where
  typeParams : List TypeParam
  params : List SigType
  result : Option SigType
  throws : List RefType

/-- A class type as a reference type. -/
def ClassType.toRef (t : ClassType) : RefType := .object t.name t.args

/-! ## Classes mentioned -/

mutual

def RefType.classNames : RefType → List String
  | .object name args => name :: TypeArg.allClassNames args
  | .var _ => []
  | .array element => element.classNames

def SigType.classNames : SigType → List String
  | .primitive _ => []
  | .ref type => type.classNames

def TypeArg.classNames : TypeArg → List String
  | .any => []
  | .upTo bound => bound.classNames
  | .downTo bound => bound.classNames
  | .exactly type => type.classNames

def TypeArg.allClassNames : List TypeArg → List String
  | [] => []
  | arg :: rest => arg.classNames ++ TypeArg.allClassNames rest

end

def ClassType.classNames (t : ClassType) : List String := t.toRef.classNames

def TypeParam.classNames (p : TypeParam) : List String :=
  (p.classBound.elim [] RefType.classNames) ++ p.interfaceBounds.flatMap RefType.classNames

end ClassAtlas
