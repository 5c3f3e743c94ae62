import ClassAtlas.Yaml.Chars

/-!
# Places in a document

A `Place` is the part of a document that is still to be read, with the line and the column at which
it starts. Indentation decides what belongs together, so the column matters everywhere. A place is
*fresh* where a key may start: after the indentation of a line and after a dash, for instance, but
not after a colon.

A `Reader` reads from a place and gives a value and the place after it, or fails. Reading does not
say why it failed.
-/

namespace ClassAtlas.Yaml

/-- The unread part of a document. -/
structure Place where
  line : Nat
  column : Nat
  fresh : Bool
  rest : List Char

namespace Place

/-- The place at which reading starts. -/
def start (cs : List Char) : Place := ⟨0, 0, true, cs⟩

/-- The place after the next `n` characters, which hold no line break. -/
def drop (p : Place) (n : Nat) : Place := ⟨p.line, p.column + n, false, p.rest.drop n⟩

/-- A mark for the bounds of a document stands here. -/
def atMarker (p : Place) : Bool := p.column = 0 && isMarker p.rest

/-- The document ends here. -/
def atEnd (p : Place) : Bool := p.rest.isEmpty || p.atMarker

/-- Passes over blanks, comments and line breaks. Between brackets every blank counts; otherwise a
tab is no indentation, so that a fresh place is not moved over it. The first character of a line may
be a mark for the byte order. `comment` says that a comment is being passed over. -/
def skipGap (bracketed comment : Bool) (line column : Nat) (fresh : Bool) : List Char → Place
  | [] => ⟨line, column, fresh, []⟩
  | c :: rest =>
    if isBreak c then skipGap bracketed false (line + 1) 0 (fresh || !bracketed) rest
    else if comment || c = ' ' || (c = '\t' && (bracketed || !fresh)) ||
        (c = '\ufeff' && column = 0) then
      skipGap bracketed comment line (column + 1) fresh rest
    else if c = '#' then skipGap bracketed true line (column + 1) fresh rest
    else ⟨line, column, fresh, c :: rest⟩

/-- The place after blanks, comments and line breaks. -/
def afterGap (bracketed : Bool) (p : Place) : Place :=
  skipGap bracketed false p.line p.column p.fresh p.rest

end Place

/-- A reader of a part of a document. -/
abbrev Reader (α : Type) := StateT Place Option α

namespace Reader

/-- The next character, which stays unread. -/
def peek : Reader (Option Char) := return (← get).rest.head?

/-- Passes over the next `n` characters. -/
def advance (n : Nat) : Reader Unit := modify (·.drop n)

/-- Passes over the next character if it is `c`. -/
def eat (c : Char) : Reader Bool := do
  if (← peek) = some c then
    advance 1
    return true
  return false

/-- Reads the longest start of which all characters are as `accepts` says. -/
def takeWhile (accepts : Char → Bool) : Reader (List Char) := do
  let taken := (← get).rest.takeWhile accepts
  advance taken.length
  return taken

/-- Reads one line break, if there is one. -/
def lineBreak : Reader (List Char) := do
  let p ← get
  match p.rest with
  | c :: rest =>
    if isBreak c then
      set (Place.mk (p.line + 1) 0 true rest)
      return [c]
    return []
  | [] => return []

/-- Passes over the blanks and the comment at the end of a line, and over its break. Nothing else
may be there. -/
def endLine : Reader Unit := do
  let _ ← takeWhile isSpace
  if (← peek) = some '#' then
    let _ ← takeWhile fun c => !isBreak c
  if (← get).rest.isEmpty then return
  if (← lineBreak).isEmpty then failure

end Reader

end ClassAtlas.Yaml
