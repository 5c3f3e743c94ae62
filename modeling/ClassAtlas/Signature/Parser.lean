import ClassAtlas.Descriptor.Parser
import ClassAtlas.Signature.Basic

/-!
# Reading generic signatures

```text
ClassSignature  := TypeParams? ClassType ClassType*
MethodSignature := TypeParams? '(' SigType* ')' (SigType | 'V') ('^' Thrown)*
FieldSignature  := RefType
TypeParams      := '<' (Ident ':' RefType? (':' RefType)*)+ '>'
RefType         := ClassType | 'T' Ident ';' | '['+ SigType
ClassType       := 'L' Path TypeArgs? ('.' Ident TypeArgs?)* ';'
TypeArgs        := '<' ('*' | ('+' | '-')? RefType)+ '>'
```

Lists of type arguments nest at most `maxArgumentDepth` deep. The reader of a reference type is
therefore a recursion on the number of levels that are left: `Scan.refType n` can still open `n`
lists inside one another.
-/

namespace ClassAtlas

/-- The deepest nesting of lists of type arguments. -/
def maxArgumentDepth : Nat := 64

namespace Scan

/-- The characters that end an identifier. -/
def identStops : List Char := ['.', ';', '[', '/', '<', '>', ':']

/-- The characters that end the path of a class. -/
def pathStops : List Char := ['.', ';', '[', '<', '>', ':']

/-- A non-empty identifier. -/
def identifier (fault : Fault) : Scan (List Char) := do
  let ident ← takeUntil identStops
  if ident.isEmpty then fail fault
  return ident

/-- There is a next character, and it does not close a list in angle brackets. -/
def moreInAngles : Option Char → Bool
  | none => false
  | some c => c != '>'

/-- One type argument, given a reader of reference types. -/
def typeArg (ref : Scan RefType) : Scan TypeArg := do
  match ← peek with
  | some '*' =>
    advance
    return .any
  | some '+' =>
    advance
    return .upTo (← ref)
  | some '-' =>
    advance
    return .downTo (← ref)
  | _ => return .exactly (← ref)

/-- The type arguments after the opening `<`, given a reader of reference types. -/
def typeArgList (ref : Scan RefType) : Scan (List TypeArg) := do
  let args ← repeatWhile moreInAngles (typeArg ref)
  expect '>' .unterminatedTypeArguments
  return args

/-- A list of type arguments or nothing; `list` reads what follows the `<`. -/
def typeArgs (list : Scan (List TypeArg)) : Scan (List TypeArg) := do
  if !(← eat '<') then return []
  if (← peek) = some '>' then fail .emptyTypeArguments
  list

/-- The parts of a class type after its first: the names of inner classes with their arguments. -/
def innerParts (list : Scan (List TypeArg)) : Scan (List (List Char × List TypeArg)) :=
  repeatWhile (· == some '.') do
    advance
    let name ← identifier .missingInnerName
    let args ← typeArgs list
    return (name, args)

/-- A class type, given a reader of lists of type arguments. -/
def classTypeWith (list : Scan (List TypeArg)) : Scan ClassType := do
  let start ← position
  expect 'L' .missingClassType
  let path ← takeUntil pathStops
  if path.isEmpty || path.getLast? == some '/' then fail .missingClassName
  let args ← typeArgs list
  let inner ← innerParts list
  if (← peek).isNone then failAt start .unterminatedClass
  expect ';' .unclosedClassType
  return ⟨String.ofList (path ++ inner.flatMap fun part => '$' :: part.1),
    args ++ inner.flatMap (·.2)⟩

/-- A type variable. -/
def typeVariable : Scan RefType := do
  advance
  let name ← identifier .missingTypeVariableName
  expect ';' .unterminatedTypeVariable
  return .var (String.ofList name)

/-- A type that is no array, given a reader of lists of type arguments. -/
def plainType (list : Scan (List TypeArg)) : Scan SigType := do
  match ← peek with
  | some 'L' => return .ref (← classTypeWith list).toRef
  | some 'T' => return .ref (← typeVariable)
  | some 'V' => fail .misplacedVoid
  | some c =>
    match Primitive.ofCode? c with
    | some p =>
      advance
      return .primitive p
    | none => fail (.unknownType (leadByte c))
  | none => fail .endOfSignature

/-- The reference type of an array with one more dimension than `dims`. -/
def arrayOf (element : SigType) : Nat → RefType
  | 0 => .array element
  | dims + 1 => .array (.ref (arrayOf element dims))

/-- A reference type, given a reader of lists of type arguments. -/
def refTypeWith (list : Scan (List TypeArg)) : Scan RefType := do
  match ← peek with
  | some 'L' => return (← classTypeWith list).toRef
  | some 'T' => typeVariable
  | some '[' =>
    let dims ← dimensions
    return arrayOf (← plainType list) (dims - 1)
  | some _ => fail .missingReferenceType
  | none => fail .endOfSignature

/-- The type arguments after the opening `<` where `n` levels of nesting are left. -/
def nestedArgs : Nat → Scan (List TypeArg)
  | 0 => fail .typeArgumentsTooDeep
  | n + 1 => typeArgList (refTypeWith (nestedArgs n))

/-- A reference type. -/
def refType : Scan RefType := refTypeWith (nestedArgs maxArgumentDepth)

/-- A class type. -/
def classType : Scan ClassType := classTypeWith (nestedArgs maxArgumentDepth)

/-- A primitive or reference type. -/
def sigType : Scan SigType := do
  match ← peek with
  | some '[' => return .ref (← refType)
  | _ => plainType (nestedArgs maxArgumentDepth)

/-- The character opens a reference type. -/
def opensRefType : Option Char → Bool
  | some c => c == 'L' || c == 'T' || c == '['
  | none => false

/-- A type parameter with its bounds. -/
def typeParam : Scan TypeParam := do
  let name ← identifier .missingTypeParameterName
  expect ':' .missingTypeParameterColon
  let classBound ← if opensRefType (← peek) then some <$> refType else pure none
  let interfaceBounds ← repeatWhile (· == some ':') (advance *> refType)
  return ⟨String.ofList name, classBound, interfaceBounds⟩

/-- A list of type parameters or nothing. -/
def typeParams : Scan (List TypeParam) := do
  if !(← eat '<') then return []
  let first ← typeParam
  let others ← repeatWhile moreInAngles typeParam
  expect '>' .unterminatedTypeParameters
  return first :: others

/-- A declared exception after its `^`. -/
def thrownType : Scan RefType := do
  advance
  match ← peek with
  | some 'L' | some 'T' => refType
  | _ => fail .missingThrownType

def classSignature : Scan ClassSignature := do
  let params ← typeParams
  let superclass ← classType
  let interfaces ← repeatWhile (·.isSome) classType
  return ⟨params, superclass, interfaces⟩

def methodSignature : Scan MethodSignature := do
  let typeParams ← typeParams
  expect '(' .missingParameterList
  let params ← repeatWhile moreParameters sigType
  expect ')' .unbalancedParameters
  let result ← if ← eat 'V' then pure none else some <$> sigType
  let throws ← repeatWhile (· == some '^') thrownType
  finish
  return ⟨typeParams, params, result, throws⟩

end Scan

/-- Reads the signature of a class. -/
def ClassSignature.parse (text : String) : Except Malformed ClassSignature :=
  Scan.run Scan.classSignature text

/-- Reads the signature of a method. -/
def MethodSignature.parse (text : String) : Except Malformed MethodSignature :=
  Scan.run Scan.methodSignature text

/-- Reads the signature of a field. -/
def RefType.parse (text : String) : Except Malformed RefType :=
  Scan.run (Scan.refType <* Scan.finish) text

end ClassAtlas
