import ClassAtlas.Descriptor.Basic
import ClassAtlas.Descriptor.Cursor

/-!
# Reading descriptors

`FieldType.parse`, `MethodType.parse` and `Descriptor.parse` read a whole text;
`FieldType.parseResult` also knows `V`, the result of a method that returns nothing.
-/

namespace ClassAtlas

namespace Scan

/-- Passes over `[` characters and counts them. -/
def dimensions : Scan Nat := do
  let start ← position
  let dims := ((← get).rest.takeWhile (· = '[')).length
  modify (·.drop dims)
  if maxDimensions < dims then failAt start (.tooManyDimensions dims)
  return dims

/-- The characters that end a class name. -/
def classNameStops : List Char := [';', '[', '.', '<', '(']

/-- The name of a class after its `L`, which stands at `start`, and the `;` that ends it. -/
def className (start : Nat) : Scan String := do
  let name ← takeUntil classNameStops
  match ← peek with
  | some ';' =>
    if name.isEmpty then fail .emptyClassName
    advance
    return String.ofList name
  | some _ => fail .illegalNameCharacter
  | none => failAt start .unterminatedClass

def elementType : Scan ElementType := do
  let start ← position
  match ← peek with
  | some 'L' =>
    advance
    return .object (← className start)
  | some 'V' => fail .misplacedVoid
  | some c =>
    match Primitive.ofCode? c with
    | some p =>
      advance
      return .primitive p
    | none => fail (.unknownPrimitive (leadByte c))
  | none => fail .endOfDescriptor

def fieldType : Scan FieldType := do
  let dims ← dimensions
  let element ← elementType
  return ⟨dims, element⟩

/-- There is a next character, and it does not close the list of parameters. -/
def moreParameters : Option Char → Bool
  | none => false
  | some c => c != ')'

/-- The result of a method; `V` stands for none. -/
def resultType : Scan (Option FieldType) := do
  if ← eat 'V' then return none
  if (← peek).isNone then fail .missingReturnType
  return some (← fieldType)

def methodType : Scan MethodType := do
  expect '(' .missingParameterList
  let params ← repeatWhile moreParameters fieldType
  expect ')' .unbalancedParameters
  return ⟨params, ← resultType⟩

end Scan

/-- Reads the type of a field. -/
def FieldType.parse (text : String) : Except Malformed FieldType :=
  Scan.run (Scan.fieldType <* Scan.finish) text

/-- Reads the type of a field, or `V` for the absence of a value. -/
def FieldType.parseResult (text : String) : Except Malformed (Option FieldType) :=
  if text = "V" then .ok none else some <$> FieldType.parse text

/-- Reads the type of a method. -/
def MethodType.parse (text : String) : Except Malformed MethodType :=
  Scan.run (Scan.methodType <* Scan.finish) text

/-- Reads the type of a method if the text starts with `(`, else that of a field. -/
def Descriptor.parse (text : String) : Except Malformed Descriptor :=
  if text.toList.head? = some '(' then .method <$> MethodType.parse text
  else .field <$> FieldType.parse text

end ClassAtlas
