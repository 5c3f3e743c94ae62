import ClassAtlas.Yaml.Node
import ClassAtlas.Yaml.Meaning
import ClassAtlas.Yaml.Place

/-!
# Reading scalars

Plain and quoted scalars may extend over several lines. A single line break within them is read as a
space, and of several line breaks the first is dropped. In double quotes a backslash introduces an
escape. A literal scalar keeps its lines as they are, without their indentation, and a folded scalar
joins them.
-/

namespace ClassAtlas.Yaml

/-! ## Line breaks within a scalar -/

/-- Blanks and line breaks within a scalar. -/
structure Fold where
  /-- The blanks before the first line break. -/
  blanks : List Char
  breaks : List Char
  /-- The place after them. -/
  place : Place

/-- What blanks and line breaks within a scalar are read as. -/
def Fold.text (fold : Fold) : List Char :=
  match fold.breaks with
  | [] => fold.blanks
  | ['\n'] => [' ']
  | '\n' :: more => more
  | breaks => breaks

/-- Collects blanks and line breaks. The indentation of a further line has no tab before column
`floor`. `crossed` says that a line break has been passed. -/
def takeFold (floor line column : Nat) (crossed : Bool) : List Char → Option Fold
  | [] => some ⟨[], [], ⟨line, column, crossed, []⟩⟩
  | c :: rest =>
    if isBreak c then do
      let fold ← takeFold floor (line + 1) 0 true rest
      return { fold with breaks := c :: fold.breaks }
    else if isSpace c then
      if crossed then
        if c = '\t' ∧ column < floor then none else takeFold floor line (column + 1) true rest
      else do
        let fold ← takeFold floor line (column + 1) false rest
        return { fold with blanks := c :: fold.blanks }
    else some ⟨[], [], ⟨line, column, crossed, c :: rest⟩⟩

namespace Reader

/-- Passes over blanks and line breaks within a scalar and gives what they are read as. -/
def fold (floor : Nat) : Reader (List Char) := do
  let p ← get
  let fold ← takeFold floor p.line p.column false p.rest
  set fold.place
  return fold.text

/-! ## Plain scalars -/

/-- A plain scalar may start here. -/
def startsPlain (bracketed : Bool) : List Char → Bool
  | [] => false
  | c :: rest =>
    if c = '-' then !endsWord rest
    else if c = '?' ∨ c = ':' then !bracketed && !endsWord rest
    else !isIndicator c && !isSpace c && !isBreak c

/-- The longest start without blanks that belongs to a plain scalar. Between brackets a colon may
not touch a bracket or a comma. -/
def plainRun (bracketed : Bool) : List Char → Option (List Char)
  | [] => some []
  | c :: rest =>
    if bracketed && c = ':' && rest.head?.any (fun d => isBracketing d || d = '?') then none
    else if endsWord (c :: rest) || (c = ':' && endsWord rest) || (bracketed && isBracketing c) then
      some []
    else return c :: (← plainRun bracketed rest)

/-- Reads such a start. -/
def plainWord (bracketed : Bool) : Reader (List Char) := do
  let word ← plainRun bracketed (← get).rest
  advance word.length
  return word

/-- Reads the further words of a plain scalar. A word on a further line starts at column `floor` or
later. -/
def plainMore (bracketed : Bool) (floor : Nat) : Nat → Reader (List Char)
  | 0 => return []
  | fuel + 1 => do
    if !endsWord (← get).rest then return []
    let between ← fold floor
    let p ← get
    if p.atEnd || p.rest.head? = some '#' || (!bracketed && p.column < floor) then return []
    let plain ← plainRun bracketed p.rest
    if plain.isEmpty then return []
    let word ← plainWord bracketed
    return between ++ word ++ (← plainMore bracketed floor fuel)

/-- Reads a plain scalar. -/
def plain (bracketed : Bool) (floor : Nat) : Reader String := do
  let p ← get
  if !startsPlain bracketed p.rest then failure
  let word ← plainWord bracketed
  let more ← plainMore bracketed floor p.rest.length
  return String.ofList (word ++ more)

/-! ## Quoted scalars -/

/-- Reads up to the closing single quote. A quote inside is written twice. -/
def singleBody : Nat → Reader (List Char)
  | 0 => failure
  | fuel + 1 => do
    let p ← get
    if p.atEnd then failure
    match p.rest with
    | '\x27' :: '\x27' :: _ => do
      advance 2
      return '\x27' :: (← singleBody fuel)
    | '\x27' :: _ => do
      advance 1
      return []
    | rest => do
      if endsWord rest then
        let between ← fold 0
        return between ++ (← singleBody fuel)
      advance 1
      return rest.take 1 ++ (← singleBody fuel)

/-- The character for which a letter stands after a backslash. -/
def escapes : List (Char × Char) :=
  [('0', '\x00'), ('a', '\x07'), ('b', '\x08'), ('t', '\t'), ('\t', '\t'), ('n', '\n'),
    ('v', '\x0b'), ('f', '\x0c'), ('r', '\r'), ('e', '\x1b'), (' ', ' '), ('\x22', '\x22'),
    ('/', '/'), ('\\', '\\'), ('N', '\u0085'), ('_', '\u00a0'), ('L', '\u2028'), ('P', '\u2029')]

/-- The number of hexadecimal digits after a backslash and a letter. -/
def escapeWidths : List (Char × Nat) := [('x', 2), ('u', 4), ('U', 8)]

/-- The character that the digits `digits` name. -/
def scalarValue? (width : Nat) (digits : List Char) : Option Char := do
  if digits.length ≠ width then none
  let n ← numeral? 16 digits
  if n.isValidChar then some (Char.ofNat n) else none

/-- Reads what follows a backslash. -/
def escape : Reader (List Char) := do
  let p ← get
  match p.rest with
  | [] => failure
  | c :: rest =>
    if isBreak c then
      let fold ← takeFold 0 (p.line + 1) 0 true rest
      set fold.place
      return fold.breaks
    match escapes.lookup c, escapeWidths.lookup c with
    | some d, _ => do
      advance 1
      return [d]
    | none, some width => do
      let d ← scalarValue? width (rest.take width)
      advance (width + 1)
      return [d]
    | none, none => failure

/-- Reads up to the closing double quote. -/
def doubleBody : Nat → Reader (List Char)
  | 0 => failure
  | fuel + 1 => do
    let p ← get
    if p.atEnd then failure
    match p.rest with
    | '\x22' :: _ => do
      advance 1
      return []
    | '\\' :: _ => do
      advance 1
      let escaped ← escape
      return escaped ++ (← doubleBody fuel)
    | rest => do
      if endsWord rest then
        let between ← fold 0
        return between ++ (← doubleBody fuel)
      advance 1
      return rest.take 1 ++ (← doubleBody fuel)

/-- Reads a scalar in single quotes. -/
def single : Reader String := do
  let p ← get
  advance 1
  return String.ofList (← singleBody p.rest.length)

/-- Reads a scalar in double quotes. -/
def double : Reader String := do
  let p ← get
  advance 1
  return String.ofList (← doubleBody p.rest.length)

/-! ## Scalars of lines -/

/-- What becomes of the line breaks at the end of a scalar of lines. -/
inductive Chomp where
  | strip
  | clip
  | keep
  deriving DecidableEq

def chomp? : List Char → Option Chomp
  | '-' :: _ => some .strip
  | '+' :: _ => some .keep
  | _ => none

def depth? : List Char → Option Nat
  | c :: _ => if '1' ≤ c ∧ c ≤ '9' then some (c.toNat - '0'.toNat) else none
  | [] => none

/-- Reads the two marks before the lines, which may come in either order: what becomes of the line
breaks at the end, and the depth of the indentation. -/
def lineMarks : Reader (Chomp × Option Nat) := do
  let first := chomp? (← get).rest
  if first.isSome then advance 1
  let depth := depth? (← get).rest
  if depth.isSome then advance 1
  let second := chomp? (← get).rest
  if first.isNone && depth.isSome && second.isSome then advance 1
  return ((first.or (depth.bind fun _ => second)).getD .clip, depth)

/-- Passes over indentation and empty lines up to column `indent`, or over all of it if `indent` is
zero. Gives the line breaks, the deepest column, and the place after them. -/
def takeEmptyLines (indent deepest line column : Nat) :
    List Char → Option (List Char × Nat × Place)
  | [] => some ([], deepest, ⟨line, column, true, []⟩)
  | c :: rest =>
    let indented := indent = 0 ∨ column < indent
    if c = ' ' ∧ indented then
      takeEmptyLines indent (max deepest (column + 1)) line (column + 1) rest
    else if c = '\t' ∧ indented then none
    else if isBreak c then do
      let (breaks, deepest, p) ← takeEmptyLines indent deepest (line + 1) 0 rest
      return (c :: breaks, deepest, p)
    else some ([], deepest, ⟨line, column, true, c :: rest⟩)

/-- The line breaks between two lines of a scalar of lines. -/
structure LineGap where
  /-- The break at the end of the line before. -/
  ending : List Char
  /-- The breaks of empty lines. -/
  empty : List Char
  /-- The line before starts with a blank. -/
  blank : Bool

/-- What the breaks are read as before a line that starts with a blank or not. A folded scalar joins
two lines by a space, unless one of them starts with a blank. -/
def LineGap.text (gap : LineGap) (folded blank : Bool) : List Char :=
  if folded && gap.ending = ['\n'] && !gap.blank && !blank then
    if gap.empty.isEmpty then [' '] else gap.empty
  else gap.ending ++ gap.empty

/-- Reads the lines of a scalar of lines, after the breaks `gap`. The breaks after the last line are
given apart. -/
def lines (folded : Bool) (indent : Nat) (gap : LineGap) : Nat → Reader (List Char × LineGap)
  | 0 => failure
  | fuel + 1 => do
    let p ← get
    if p.rest.isEmpty || p.column ≠ indent then return ([], gap)
    let blank := p.rest.head?.any isSpace
    let line ← takeWhile fun c => !isBreak c
    let ending ← lineBreak
    let p ← get
    let (breaks, _, p) ← takeEmptyLines indent 0 p.line p.column p.rest
    set p
    let (more, last) ← lines folded indent ⟨ending, breaks, blank⟩ fuel
    return (gap.text folded blank ++ line ++ more, last)

/-- Reads a scalar of lines, which start at column `floor` or later. -/
def block (folded : Bool) (floor : Nat) : Reader String := do
  let p ← get
  let fuel := p.rest.length
  advance 1
  let (chomp, depth) ← lineMarks
  endLine
  let p ← get
  let indent := (depth.map (floor - 1 + ·)).getD 0
  let (breaks, deepest, p) ← takeEmptyLines indent 0 p.line p.column p.rest
  set p
  let indent := if indent = 0 then max deepest (max floor 1) else indent
  let (text, last) ← lines folded indent ⟨[], breaks, false⟩ fuel
  let ending := match chomp with
    | .strip => []
    | .clip => last.ending
    | .keep => last.ending ++ last.empty
  return String.ofList (text ++ ending)

end Reader

end ClassAtlas.Yaml
