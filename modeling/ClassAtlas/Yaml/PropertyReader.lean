import ClassAtlas.Yaml.Meaning
import ClassAtlas.Yaml.Place
import ClassAtlas.Yaml.Token

/-!
# Reading names, tags and directives

A node can have a name and a tag. A tag is written in full between angle brackets, or with a handle
that stands for its start. A directive at the head of a document gives the version of the language
or the meaning of a handle.
-/

namespace ClassAtlas.Yaml

namespace Reader

/-! ## Names -/

/-- The characters besides blanks that may follow a name. -/
def nameFollowers : List Char := ['?', ':', ',', ']', '\x7d', '%', '@', '\x60']

/-- Reads the name of a node, after the character that introduces it. -/
def name : Reader String := do
  advance 1
  let chars ← takeWhile isNameChar
  let rest := (← get).rest
  if chars.isEmpty || !(endsWord rest || rest.head?.any nameFollowers.contains) then failure
  return String.ofList chars

/-! ## Tags -/

/-- Reads the byte that a percent sign and two hexadecimal digits name. -/
def escapedByte : Reader UInt8 := do
  if !(← eat '%') then failure
  let digits := (← get).rest.take 2
  if digits.length ≠ 2 then failure
  let n ← numeral? 16 digits
  advance 2
  return UInt8.ofNat n

/-- The number of bytes for a character of which `b` is the first. -/
def byteCount? (b : UInt8) : Option Nat :=
  if b < 0x80 then some 1
  else if b < 0xC0 then none
  else if b < 0xE0 then some 2
  else if b < 0xF0 then some 3
  else if b < 0xF8 then some 4
  else none

/-- Reads the escaped bytes of one character. -/
def escapedChar : Reader (List UInt8) := do
  let first ← escapedByte
  let count ← byteCount? first
  let others ← (List.range (count - 1)).mapM fun _ => do
    let b ← escapedByte
    if (Text.continuation? b).isNone then failure
    return b
  return first :: others

/-- Reads the longest start that may be part of a tag. -/
def tagRun (bracketing : Bool) : Nat → Reader (List UInt8)
  | 0 => failure
  | fuel + 1 => do
    match ← peek with
    | none => return []
    | some c =>
      if c = '%' then
        let bytes ← escapedChar
        return bytes ++ (← tagRun bracketing fuel)
      if !isTagChar bracketing c then return []
      advance 1
      return UInt8.ofNat c.toNat :: (← tagRun bracketing fuel)

/-- Reads a part of a tag after the characters `head`. A part has at least one character, and a zero
byte ends it. -/
def tagPart (bracketing : Bool) (head : List Char) : Reader Tag := do
  let before := (← get).rest.length
  let bytes ← tagRun bracketing (before + 1)
  if head.isEmpty && (← get).rest.length = before then failure
  return (Text.utf8Encode (head.drop 1) ++ bytes).takeWhile (· ≠ 0)

/-- Reads an exclamation mark, the name after it, and the exclamation mark after that, if it is
there. -/
def handle : Reader (List Char) := do
  if !(← eat '!') then failure
  let chars ← takeWhile isNameChar
  if ← eat '!' then return '!' :: chars ++ ['!']
  return '!' :: chars

/-- The characters of a handle end with a second exclamation mark. -/
def isClosed (handle : List Char) : Bool := 1 < handle.length && handle.getLast? = some '!'

/-- Reads the handle and the rest of a tag. A lone exclamation mark is a tag of its own. -/
def handleAndRest : Reader (String × Tag) := do
  let chars ← handle
  if isClosed chars then return (String.ofList chars, ← tagPart false [])
  let rest ← tagPart false chars
  return if rest.isEmpty then ("", Tag.ofText "!") else ("!", rest)

/-- Reads a tag. -/
def tag (bracketed : Bool) : Reader Token := do
  let p ← get
  let (handle, rest) ← match p.rest with
    | '!' :: '<' :: _ => do
      advance 2
      let rest ← tagPart true []
      if !(← eat '>') then failure
      pure ("", rest)
    | _ => handleAndRest
  let after := (← get).rest
  if !(endsWord after || (bracketed && after.head? = some ',')) then failure
  return .tag handle rest

/-! ## Directives -/

/-- Reads a part of the number of a version, which has at most nine digits. -/
def versionNumber : Reader Nat := do
  let digits ← takeWhile Char.isDigit
  if 9 < digits.length then failure
  numeral? 10 digits

/-- Reads what follows the name of a directive on the version. -/
def versionDirective : Reader Token := do
  let _ ← takeWhile isSpace
  let major ← versionNumber
  if !(← eat '.') then failure
  return .version major (← versionNumber)

/-- Reads what follows the name of a directive on a handle. -/
def handleDirective : Reader Token := do
  let _ ← takeWhile isSpace
  let chars ← handle
  if chars ≠ ['!'] && !isClosed chars then failure
  if (← takeWhile isSpace).isEmpty then failure
  let start ← tagPart true []
  if !endsWord (← get).rest then failure
  return .handle (String.ofList chars) start

/-- Reads a directive and the end of its line. -/
def directive : Reader Token := do
  advance 1
  let name ← takeWhile isNameChar
  if !endsWord (← get).rest then failure
  let token ←
    if name = "YAML".toList then versionDirective
    else if name = "TAG".toList then handleDirective
    else failure
  endLine
  return token

end Reader

end ClassAtlas.Yaml
