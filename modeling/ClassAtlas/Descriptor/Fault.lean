/-!
# Malformed type texts

Why a text is neither a descriptor nor a generic signature, with the wording of each reason.
-/

namespace ClassAtlas

/-- The largest number of dimensions of an array type. -/
def maxDimensions : Nat := 255

/-- The reason why a type text is rejected. -/
inductive Fault where
  | tooManyDimensions (dims : Nat)
  | illegalNameCharacter
  | unterminatedClass
  | emptyClassName
  | misplacedVoid
  /-- No primitive has this code; the first byte of the character is shown. -/
  | unknownPrimitive (lead : Nat)
  | endOfDescriptor
  | missingParameterList
  | unbalancedParameters
  | missingReturnType
  | trailingCharacters
  | missingTypeParameterName
  | missingTypeParameterColon
  | unterminatedTypeParameters
  | missingTypeVariableName
  | unterminatedTypeVariable
  | missingReferenceType
  | endOfSignature
  /-- No type starts with this character; its first byte is shown. -/
  | unknownType (lead : Nat)
  | missingClassType
  | missingClassName
  | missingInnerName
  | unclosedClassType
  | emptyTypeArguments
  | typeArgumentsTooDeep
  | unterminatedTypeArguments
  | missingThrownType
  deriving DecidableEq, Repr

/-- The wording of a reason. -/
def Fault.message : Fault → String
  | tooManyDimensions dims => s!"array has {dims} dimensions, limit is {maxDimensions}"
  | illegalNameCharacter => "illegal character in class name"
  | unterminatedClass => "unterminated class reference"
  | emptyClassName => "empty class name"
  | misplacedVoid => "void is only legal as a return type"
  | unknownPrimitive lead => "unknown primitive code '" ++ String.singleton (Char.ofNat lead) ++ "'"
  | endOfDescriptor => "unexpected end of descriptor"
  | missingParameterList => "expected '(' to open the parameter list"
  | unbalancedParameters => "unbalanced parameter list"
  | missingReturnType => "missing return type"
  | trailingCharacters => "trailing characters after descriptor"
  | missingTypeParameterName => "expected type parameter name"
  | missingTypeParameterColon => "expected ':' after type parameter name"
  | unterminatedTypeParameters => "unterminated type parameter list"
  | missingTypeVariableName => "expected type variable name"
  | unterminatedTypeVariable => "expected ';' after type variable"
  | missingReferenceType => "expected reference type"
  | endOfSignature => "unexpected end of signature"
  | unknownType lead => "unknown type code '" ++ String.singleton (Char.ofNat lead) ++ "'"
  | missingClassType => "expected 'L' to open a class type"
  | missingClassName => "expected class name"
  | missingInnerName => "expected inner class name"
  | unclosedClassType => "expected ';' to close the class type"
  | emptyTypeArguments => "empty type argument list"
  | typeArgumentsTooDeep => "type arguments nested too deeply"
  | unterminatedTypeArguments => "unterminated type argument list"
  | missingThrownType => "expected class or type variable after '^'"

/-- A rejected text, the byte position of the first offending character, and the reason. -/
structure Malformed where
  input : String
  position : Nat
  fault : Fault
  deriving DecidableEq

def Malformed.message (e : Malformed) : String :=
  s!"Malformed descriptor '{e.input}' at position {e.position}: {e.fault.message}"

end ClassAtlas
