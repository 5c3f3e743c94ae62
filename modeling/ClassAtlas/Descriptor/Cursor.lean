import ClassAtlas.Descriptor.Fault
import ClassAtlas.Sum

/-!
# Scanning type texts

A `Cursor` is the part of a text that is still to be read, with its position. Positions count the
bytes of the UTF-8 form, so every position is the start of a character or the end of the text.

A `Scan` reads from a cursor and either gives a value and the cursor after it, or a position and a
`Fault`.
-/

namespace ClassAtlas

/-- The unread part of a text and the byte position at which it starts. -/
structure Cursor where
  position : Nat
  rest : List Char
  deriving DecidableEq

/-- The number of bytes of a text in UTF-8. -/
def utf8Length (cs : List Char) : Nat := sumOf Char.utf8Size cs

/-- The cursor after the next `n` characters. -/
def Cursor.drop (c : Cursor) (n : Nat) : Cursor :=
  ⟨c.position + utf8Length (c.rest.take n), c.rest.drop n⟩

/-- The first byte of a character in UTF-8. -/
def leadByte (c : Char) : Nat :=
  let n := c.toNat
  if n < 0x80 then n
  else if n < 0x800 then 0xC0 + n / 0x40
  else if n < 0x10000 then 0xE0 + n / 0x1000
  else 0xF0 + n / 0x40000

/-- A reader of type texts. -/
abbrev Scan (α : Type) := StateT Cursor (Except (Nat × Fault)) α

namespace Scan

variable {α : Type}

/-- Rejects the text at a given position. -/
def failAt (position : Nat) (fault : Fault) : Scan α := throw (position, fault)

/-- Rejects the text at the current position. -/
def fail (fault : Fault) : Scan α := do failAt (← get).position fault

/-- The current position. -/
def position : Scan Nat := return (← get).position

/-- The next character, which stays unread. -/
def peek : Scan (Option Char) := return (← get).rest.head?

/-- Passes over the next character. -/
def advance : Scan Unit := modify (·.drop 1)

/-- Passes over the next character if it is `c`. -/
def eat (c : Char) : Scan Bool := do
  if (← peek) = some c then
    advance
    return true
  return false

/-- Passes over the next character, which has to be `c`. -/
def expect (c : Char) (fault : Fault) : Scan Unit := do
  if !(← eat c) then fail fault

/-- Reads up to the first of the characters `stops`, which stays unread, or to the end. -/
def takeUntil (stops : List Char) : Scan (List Char) := do
  let taken := (← get).rest.takeWhile fun c => !stops.contains c
  modify (·.drop taken.length)
  return taken

/-- Reads `item` again and again while the next character satisfies `more`, at most `n` times. -/
def repeatUpTo (more : Option Char → Bool) (item : Scan α) : Nat → Scan (List α)
  | 0 => return []
  | n + 1 => do
    if more (← peek) then
      let first ← item
      let others ← repeatUpTo more item n
      return first :: others
    return []

/-- Reads `item` again and again while the next character satisfies `more`. An item has at least one
character, so the unread characters bound the number of items. -/
def repeatWhile (more : Option Char → Bool) (item : Scan α) : Scan (List α) := do
  repeatUpTo more item (← get).rest.length

/-- The whole text has to be read. -/
def finish : Scan Unit := do
  if (← peek).isSome then fail .trailingCharacters

/-- Reads a text from its start. -/
def run (scan : Scan α) (text : String) : Except Malformed α :=
  match StateT.run scan ⟨0, text.toList⟩ with
  | .ok (a, _) => .ok a
  | .error (position, fault) => .error ⟨text, position, fault⟩

end Scan

end ClassAtlas
