import ClassAtlas.Yaml.PropertyReader
import ClassAtlas.Yaml.ScalarReader

/-!
# Dividing a text into tokens

Outside brackets the columns decide what belongs together. The keys of a mapping stand at one
column, the dashes of a sequence stand at one column, and what belongs to an entry stands further
right. A collection starts with the first key or dash of a larger column, and ends before the first
token of a smaller one.

That a node is a key shows only at the colon after it. The colon stands on the line on which the key
starts, and at most 1024 columns further right. So every place where a key may have started is kept
until then, one for the text outside brackets and one for each open bracket.

## Main definitions

* `Scan` is the state of the division.
* `Scan.next` reads a token, with those that the layout puts before it.
* `Token.scan?` divides a text.
-/

namespace ClassAtlas.Yaml

/-- A place where a key may have started. -/
structure KeyStart where
  line : Nat
  column : Nat
  /-- The number of tokens before it. -/
  before : Nat
  /-- Nothing but a key may start here. -/
  required : Bool

/-- The farthest column at which the colon may stand, counted from the start of the key. -/
def keyReach : Nat := 1024

/-- The colon of the key can no longer follow at `p`. -/
def KeyStart.isOver (key : KeyStart) (p : Place) : Bool :=
  key.line < p.line || key.column + keyReach < p.column

/-- The state of the division of a text into tokens. -/
structure Scan where
  /-- The text that is left. -/
  place : Place
  /-- The tokens so far, of which the last comes first. -/
  tokens : List Token
  /-- The columns of the open collections without brackets, of which the innermost comes first. -/
  columns : List Nat
  /-- Where a key may have started since the innermost open bracket. -/
  key : Option KeyStart
  /-- Where keys may have started before each open bracket, of which the innermost comes first. -/
  outer : List (Option KeyStart)

namespace Scan

/-- The state before the first token. -/
def start (cs : List Char) : Scan := ⟨.start cs, [], [], none, []⟩

/-- A bracket is open. -/
def bracketed (s : Scan) : Bool := !s.outer.isEmpty

/-- The first column that belongs to the innermost collection without brackets. -/
def floor (s : Scan) : Nat :=
  match s.columns with
  | [] => 0
  | column :: _ => column + 1

/-! ## Tokens of the layout -/

/-- Adds a token before the last `count` tokens. -/
def insert (count : Nat) (token : Token) (s : Scan) : Scan :=
  { s with tokens := s.tokens.take count ++ token :: s.tokens.drop count }

/-- Adds a token. -/
def push (token : Token) (s : Scan) : Scan := { s with tokens := token :: s.tokens }

/-- Ends the innermost `count` collections. -/
def close (count : Nat) (s : Scan) : Scan :=
  { s with
    columns := s.columns.drop count
    tokens := List.replicate count .collectionEnd ++ s.tokens }

/-- Ends the collections that stand to the right of the place. -/
def closeToPlace (s : Scan) : Scan :=
  if s.bracketed then s else s.close (s.columns.takeWhile (s.place.column < ·)).length

/-- Ends all collections. -/
def closeAll (s : Scan) : Scan := if s.bracketed then s else s.close s.columns.length

/-- Starts a collection at column `column`, unless it is the column of the innermost one. The start
comes before the last `count` tokens. -/
def openAt (column count : Nat) (token : Token) (s : Scan) : Scan :=
  if s.bracketed || column < s.floor then s
  else { s.insert count token with columns := column :: s.columns }

/-! ## Starts of keys -/

/-- Forgets where a key may have started. There has to be a key at a required place. -/
def dropKey (s : Scan) : Option Scan :=
  if s.key.any (·.required) then none else some { s with key := none }

/-- Notes that a key may start here. -/
def startKey (s : Scan) : Option Scan := do
  let p := s.place
  if !p.fresh then return s
  let s ← s.dropKey
  let required := !s.bracketed && s.columns.head? = some p.column
  return { s with key := some ⟨p.line, p.column, s.tokens.length, required⟩ }

/-- Forgets the starts of keys whose colon can no longer follow. -/
def dropOldKeys (s : Scan) : Option Scan :=
  let isOver (key : KeyStart) := key.isOver s.place
  if (s.key :: s.outer).any (·.any fun key => key.required && isOver key) then none
  else
    some { s with
      key := s.key.filter (!isOver ·)
      outer := s.outer.map (·.filter (!isOver ·)) }

end Scan

/-- A step of the division of a text. -/
abbrev Scanner (α : Type) := StateT Scan Option α

namespace Scan

/-- Applies a step that may fail. -/
def apply (step : Scan → Option Scan) : Scanner Unit := do set (← step (← get))

/-- Reads from the text. -/
def read {α : Type} (reader : Reader α) : Scanner α := do
  let s ← get
  let (value, place) ← reader.run s.place
  set { s with place }
  return value

/-- Says whether a key may start next. -/
def setFresh (fresh : Bool) : Scanner Unit :=
  modify fun s => { s with place := { s.place with fresh } }

/-- Reads a token of `length` characters, after which a key may start or not. -/
def mark (length : Nat) (token : Token) (fresh : Bool) : Scanner Unit := do
  read (Reader.advance length)
  setFresh fresh
  modify (push token)

/-! ## Marks -/

/-- Reads an opening bracket. -/
def opening (token : Token) : Scanner Unit := do
  apply startKey
  mark 1 token true
  modify fun s => { s with key := none, outer := s.key :: s.outer }

/-- Reads a closing bracket. -/
def closing (token : Token) : Scanner Unit := do
  apply dropKey
  match (← get).outer with
  | [] => failure
  | key :: outer =>
    mark 1 token false
    modify fun s => { s with key, outer }

/-- Reads a comma. -/
def comma : Scanner Unit := do
  apply dropKey
  mark 1 .comma true

/-- Starts a collection here. Outside brackets a key has to be allowed. -/
def openHere (token : Token) : Scanner Unit := do
  let s ← get
  if !s.bracketed && !s.place.fresh then failure
  set (s.openAt s.place.column 0 token)

/-- Reads a dash. -/
def dash : Scanner Unit := do
  openHere .sequenceStart
  apply dropKey
  mark 1 .dash true

/-- Reads a question mark that announces a key. -/
def questionMark : Scanner Unit := do
  openHere .mappingStart
  apply dropKey
  mark 1 .key (!(← get).bracketed)

/-- Reads a colon. What comes before it is a key, if one may have started; otherwise the key was
announced. -/
def colon : Scanner Unit := do
  let s ← get
  match s.key with
  | some key =>
    let count := s.tokens.length - key.before
    set ({ s with key := none }.insert count .key |>.openAt key.column (count + 1) .mappingStart)
    mark 1 .colon false
  | none =>
    openHere .mappingStart
    mark 1 .colon (!s.bracketed)

/-- Reads three dashes or three dots. -/
def bound (token : Token) : Scanner Unit := do
  modify closeAll
  apply dropKey
  mark 3 token false

/-- Reads a directive. -/
def directive : Scanner Unit := do
  modify closeAll
  apply dropKey
  let token ← read Reader.directive
  setFresh false
  modify (push token)

/-! ## Content -/

/-- Reads a token that may be the first of a key. -/
def content (reader : Reader Token) : Scanner Unit := do
  apply startKey
  let token ← read reader
  modify (push token)

/-- Reads a scalar of lines, which cannot be a key. -/
def block (style : Style) : Scanner Unit := do
  apply dropKey
  let text ← read (Reader.block (style = .folded) (← get).floor)
  setFresh true
  modify (push (.scalar style text))

/-- Reads the token that starts with the character `c` before `rest`. -/
def token (c : Char) (rest : List Char) : Scanner Unit := do
  let s ← get
  let isMark := s.bracketed || endsWord rest
  if c = '[' then opening .openBracket
  else if c = '\x7b' then opening .openBrace
  else if c = ']' then closing .closeBracket
  else if c = '\x7d' then closing .closeBrace
  else if c = ',' then comma
  else if c = '-' && endsWord rest then dash
  else if c = '?' && isMark then questionMark
  else if c = ':' && isMark then colon
  else if c = '*' then content (.reference <$> Reader.name)
  else if c = '&' then content (.anchor <$> Reader.name)
  else if c = '!' then content (Reader.tag s.bracketed)
  else if c = '|' && !s.bracketed then block .literal
  else if c = '>' && !s.bracketed then block .folded
  else if c = '\x27' then content (.scalar .single <$> Reader.single)
  else if c = '\x22' then content (.scalar .double <$> Reader.double)
  else content (.scalar .plain <$> Reader.plain s.bracketed s.floor)

/-- Reads the next token, with those that the layout puts before it. Says whether there was one. -/
def next : Scanner Bool := do
  modify fun s => { s with place := s.place.afterGap s.bracketed }
  apply dropOldKeys
  modify closeToPlace
  let p := (← get).place
  match p.rest with
  | [] =>
    modify closeAll
    apply dropKey
    return false
  | c :: rest =>
    if p.column = 0 && c = '%' then directive
    else if p.atMarker then bound (if c = '-' then .documentStart else .documentEnd)
    else token c rest
    return true

/-- Reads all tokens, at most `fuel` of them. -/
def all : Nat → Scanner Unit
  | 0 => failure
  | fuel + 1 => do if ← next then all fuel

end Scan

/-- The tokens of a text. Every token has at least one character, so there are not more of them than
characters. -/
def Token.scan? (cs : List Char) : Option (List Token) := do
  let (_, s) ← (Scan.all (cs.length + 1)).run (.start cs)
  return s.tokens.reverse

end ClassAtlas.Yaml
