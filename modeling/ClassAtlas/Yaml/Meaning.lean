import ClassAtlas.Yaml.Node

/-!
# What scalars stand for

A scalar without quotes can stand for nothing, for a truth value or for a number. The writer puts
quotes around every text that would otherwise be taken for one of these.

## Main definitions

* `isNull`, `bool?` and `nat?` say what the text of a plain scalar stands for.
* `Scalar.isNothing?`, `Scalar.bool?` and `Scalar.nat?` say what a scalar stands for.
* `isAmbiguous` holds of the texts that need quotes because of what they could stand for.
-/

namespace ClassAtlas.Yaml

/-- Stands for nothing. -/
def isNull (text : String) : Bool := ["", "~", "null", "Null", "NULL"].contains text

/-- The truth value for which a text stands. -/
def bool? (text : String) : Option Bool :=
  if ["true", "True", "TRUE"].contains text then some true
  else if ["false", "False", "FALSE"].contains text then some false
  else none

/-! ## Whole numbers -/

/-- The value of a digit to base at most sixteen. -/
def digit? (base : Nat) (c : Char) : Option Nat :=
  let value? :=
    if c.isDigit then some (c.toNat - '0'.toNat)
    else if 'a' ≤ c ∧ c ≤ 'f' then some (c.toNat - 'a'.toNat + 10)
    else if 'A' ≤ c ∧ c ≤ 'F' then some (c.toNat - 'A'.toNat + 10)
    else none
  value?.filter (· < base)

/-- The value of a numeral, which has at least one digit. -/
def numeral? (base : Nat) (digits : List Char) : Option Nat :=
  if digits.isEmpty then none
  else digits.foldlM (fun value c => return value * base + (← digit? base c)) 0

/-- Digits that start with a needless zero. Such a text is no number. -/
def hasLeadingZero : List Char → Bool
  | '0' :: c :: rest => (c :: rest).all Char.isDigit
  | _ => false

/-- The value of a numeral without sign, to base ten or to the base that its start names. -/
def magnitude? : List Char → Option Nat
  | '0' :: 'x' :: digits => numeral? 16 digits
  | '0' :: 'o' :: digits => numeral? 8 digits
  | '0' :: 'b' :: digits => numeral? 2 digits
  | digits => if hasLeadingZero digits then none else numeral? 10 digits

/-- A text without one plus sign at its start. -/
def dropPlus : List Char → List Char
  | '+' :: rest => rest
  | rest => rest

/-- The number for which a text stands, if it is a whole number and not negative. -/
def nat? (text : String) : Option Nat := magnitude? (dropPlus text.toList)

/-- Stands for a whole number of at most 128 bits. -/
def isInteger (cs : List Char) : Bool :=
  match cs with
  | '-' :: rest => (magnitude? rest).any (· ≤ Nat.pow 2 127)
  | _ => (magnitude? (dropPlus cs)).any (· < Nat.pow 2 128)

/-! ## Fractions -/

/-- The number `digits * 10 ^ power` is rounded to a finite floating-point number of 64 bits. -/
def isFinite (digits : Nat) (power : Int) : Bool :=
  let size : Int := (Nat.toDigits 10 digits).length + power
  if digits = 0 ∨ size ≤ 308 then true
  else if 309 < size then false
  else
    digits * Nat.pow 10 power.toNat <
      (Nat.pow 2 1024 - Nat.pow 2 970) * Nat.pow 10 (-power).toNat

/-- The value of an exponent, which may have a sign. -/
def exponent? : List Char → Option Int
  | '-' :: digits => (numeral? 10 digits).map fun n => -(n : Int)
  | '+' :: digits => (numeral? 10 digits).map Int.ofNat
  | digits => (numeral? 10 digits).map Int.ofNat

/-- A number without sign, with a point or an exponent or neither, that is finite. -/
def isDecimal (cs : List Char) : Bool :=
  let whole := cs.takeWhile Char.isDigit
  let rest := cs.dropWhile Char.isDigit
  let (part, rest) := match rest with
    | '.' :: rest => (rest.takeWhile Char.isDigit, rest.dropWhile Char.isDigit)
    | _ => ([], rest)
  let power? := match rest with
    | [] => some 0
    | c :: rest => if c = 'e' ∨ c = 'E' then exponent? rest else none
  match numeral? 10 (whole ++ part), power? with
  | some digits, some power => isFinite digits (power - part.length)
  | _, _ => false

/-- Stands for a floating-point number. -/
def isFraction (cs : List Char) : Bool :=
  let body := dropPlus cs
  [".inf", ".Inf", ".INF"].contains (String.ofList body) ||
    ["-.inf", "-.Inf", "-.INF", ".nan", ".NaN", ".NAN"].contains (String.ofList cs) ||
    (match body with
      | '-' :: rest => body.length = cs.length && isDecimal rest
      | _ => isDecimal body)

/-! ## Ambiguous texts -/

/-- A text without one sign at its start. -/
def dropSign : List Char → List Char
  | '-' :: rest => rest
  | cs => dropPlus cs

/-- Could be taken for something other than a text. -/
def isAmbiguous (text : String) : Bool :=
  isNull text || (bool? text).isSome || isInteger text.toList ||
    hasLeadingZero (dropSign text.toList) || isFraction text.toList

/-! ## Scalars -/

namespace Scalar

/-- Nothing is written, except perhaps a tag. -/
def isBlank (scalar : Scalar) : Bool := scalar.style = .plain && scalar.text.isEmpty

/-- Stands for nothing. The tag for nothing fits only a text that spells it, and every other tag
says that there is something. -/
def isNothing? (scalar : Scalar) : Option Bool :=
  match scalar.style, scalar.tag with
  | .plain, none => some (isNull scalar.text)
  | .plain, some tag =>
    if tag ≠ Tag.core "null" then some false
    else if isNull scalar.text && !scalar.text.isEmpty then some true
    else none
  | _, _ => some false

/-- The text, if it may stand for something else: if it is plain, or literal with the tag `tag`. -/
def valueText? (tag : Tag) (scalar : Scalar) : Option String :=
  if scalar.style = .plain ∨ scalar.style = .literal ∧ scalar.tag = some tag then some scalar.text
  else none

/-- The truth value for which a scalar stands. -/
def bool? (scalar : Scalar) : Option Bool := (scalar.valueText? (Tag.core "bool")).bind Yaml.bool?

/-- The number for which a scalar stands, if it is a whole number and not negative. -/
def nat? (scalar : Scalar) : Option Nat := (scalar.valueText? (Tag.core "int")).bind Yaml.nat?

/-- The text that names one of several choices. A tag with an exclamation mark names a choice by
itself and comes before nothing. -/
def choice? (scalar : Scalar) : Option String :=
  match scalar.tag.bind Tag.localName? with
  | some name => if scalar.style = .plain ∧ isNull scalar.text then some name else none
  | none => some scalar.text

end Scalar

end ClassAtlas.Yaml
