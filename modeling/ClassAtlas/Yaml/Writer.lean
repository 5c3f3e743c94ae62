import ClassAtlas.Text.Hex
import ClassAtlas.Yaml.Chars
import ClassAtlas.Yaml.Meaning
import ClassAtlas.Yaml.Node

/-!
# Writing documents

A text is written in the plainest style that keeps it: a text of several lines as a literal scalar;
otherwise without quotes, if it would then be read as this text; otherwise in single quotes; and in
double quotes only if it holds a character that has to be escaped.

Collections are written in block style. Every entry is a text that ends with a line break.

## Main definitions

* `Scalar.ofText` chooses the style for a text.
* `Scalar.render` writes a scalar.
* `entry`, `listEntry` and `nest` write the entries of a mapping.
-/

namespace ClassAtlas.Yaml

/-! ## Choice of a style -/

/-- Every pair of neighbouring characters, with the end of the text as the last neighbour. -/
def pairs : List Char → List (Char × Option Char)
  | [] => []
  | [c] => [(c, none)]
  | c :: d :: rest => (c, some d) :: pairs (d :: rest)

/-- A space stands next to a line break, in this order. -/
def hasSpaceBreak (cs : List Char) : Bool :=
  (pairs cs).any fun (c, d) => c = ' ' && d.any isBreak

/-- A line break stands next to a space, in this order. -/
def hasBreakSpace (cs : List Char) : Bool :=
  (pairs cs).any fun (c, d) => isBreak c && d = some ' '

/-- The end of the text, a blank or a line break. -/
def isWordEnd (d : Option Char) : Bool := d.all fun c => isSpace c || isBreak c

/-- A colon ends a word or a number sign starts one: without quotes this would be the end of a key
or the start of a comment. -/
def hasInnerMark (cs : List Char) : Bool :=
  (pairs cs).any fun (c, d) =>
    (c = ':' && isWordEnd d) || ((isSpace c || isBreak c) && d = some '#')

/-- The first characters would be read as something other than a scalar without quotes. -/
def startsAsMark : List Char → Bool
  | '-' :: '-' :: '-' :: _ => true
  | '.' :: '.' :: '.' :: _ => true
  | [] => false
  | c :: rest => isIndicator c || ((c = '?' || c = ':' || c = '-') && endsWord rest)

/-- May be written without quotes. -/
def allowsPlain (cs : List Char) : Bool :=
  cs.all isPrintable && !cs.any isBreak && cs.head? != some ' ' && cs.getLast? != some ' ' &&
    !startsAsMark cs && !hasInnerMark cs

/-- May be written in single quotes. -/
def allowsSingle (cs : List Char) : Bool :=
  cs.all isPrintable && !hasBreakSpace cs && !hasSpaceBreak cs

/-- May be written as a literal scalar. -/
def allowsLiteral (cs : List Char) : Bool :=
  cs.all isPrintable && cs.getLast? != some ' ' && !hasSpaceBreak cs

/-- The style in which a text is written. -/
def Style.ofText (text : String) : Style :=
  let cs := text.toList
  if cs.contains '\n' then
    if allowsLiteral cs then .literal else .double
  else if allowsPlain cs && !isAmbiguous text then .plain
  else if allowsSingle cs then .single
  else .double

/-- The scalar for a text. -/
def Scalar.ofText (text : String) : Scalar := { style := Style.ofText text, text }

/-- The scalar for a number. -/
def Scalar.ofNat (n : Nat) : Scalar := { style := .plain, text := toString n }

/-- The scalar for a truth value. -/
def Scalar.ofBool (b : Bool) : Scalar :=
  { style := .plain, text := if b then "true" else "false" }

/-! ## Scalars -/

/-- The letters that stand for characters after a backslash. -/
def escapeLetters : List (Char × Char) :=
  [('\x00', '0'), ('\x07', 'a'), ('\x08', 'b'), ('\t', 't'), ('\n', 'n'), ('\x0b', 'v'),
    ('\x0c', 'f'), ('\r', 'r'), ('\x1b', 'e'), ('\x22', '\x22'), ('\\', '\\'), ('\u0085', 'N'),
    ('\u2028', 'L'), ('\u2029', 'P')]

/-- A character in double quotes. -/
def escapeChar (c : Char) : List Char :=
  match escapeLetters.lookup c with
  | some letter => ['\\', letter]
  | none =>
    let n := c.toNat
    if isPrintable c then [c]
    else if n ≤ 0xFF then "\\x".toList ++ (Text.hexUpper 2 n).toList
    else if n ≤ 0xFFFF then "\\u".toList ++ (Text.hexUpper 4 n).toList
    else "\\U".toList ++ (Text.hexUpper 8 n).toList

/-- The text of a scalar in single quotes. A quote inside is written twice, and a line break is
followed by the indentation of the next line. -/
def singleChars (indent : Nat) : List Char → List Char
  | [] => []
  | '\x27' :: rest => '\x27' :: '\x27' :: singleChars indent rest
  | c :: rest =>
    if isBreak c && !rest.head?.any isBreak then
      c :: List.replicate indent ' ' ++ singleChars indent rest
    else c :: singleChars indent rest

/-- The mark for the line breaks at the end of a literal scalar. -/
def chompMark (cs : List Char) : String :=
  match cs.reverse with
  | c :: rest =>
    if !isBreak c then "-" else if rest.head?.all isBreak then "+" else ""
  | [] => "-"

/-- The mark for the indentation of a literal scalar, which is needed if its first line starts with
a space or is empty. -/
def depthMark (cs : List Char) : String :=
  if cs.head?.any fun c => c = ' ' || isBreak c then "2" else ""

/-- The lines of a literal scalar. Every line that is not empty is indented; `starts` says that a
line starts here. -/
def literalChars (indent : Nat) (starts : Bool) : List Char → List Char
  | [] => []
  | c :: rest =>
    if isBreak c then c :: literalChars indent true rest
    else List.replicate (if starts then indent else 0) ' ' ++ c :: literalChars indent false rest

/-- A scalar behind a key or a dash, with the line break after it. Further lines are indented by
`indent`. A folded scalar is written as a literal one, and a tag is left out. -/
def Scalar.render (indent : Nat) (scalar : Scalar) : String :=
  let cs := scalar.text.toList
  match scalar.style with
  | .plain => scalar.text ++ "\n"
  | .single => "'" ++ String.ofList (singleChars indent cs) ++ "'\n"
  | .double => "\"" ++ String.ofList (cs.flatMap escapeChar) ++ "\"\n"
  | .literal | .folded =>
    "|" ++ depthMark cs ++ chompMark cs ++ "\n" ++ String.ofList (literalChars indent true cs) ++
      if cs.getLast?.any isBreak then "" else "\n"

/-! ## Entries -/

/-- An indentation by `depth` steps of two columns. -/
def indentation (depth : Nat) : String := String.ofList (List.replicate (2 * depth) ' ')

/-- An entry whose value is a scalar. -/
def entry (depth : Nat) (key : String) (value : Scalar) : String :=
  s!"{indentation depth}{key}: {value.render (2 * depth + 2)}"

/-- An item of a list. -/
def item (depth : Nat) (value : Scalar) : String :=
  s!"{indentation depth}- {value.render (2 * depth + 2)}"

/-- An entry whose value is a list of scalars. The dashes stand below the key. -/
def listEntry (depth : Nat) (key : String) (values : List Scalar) : String :=
  if values.isEmpty then s!"{indentation depth}{key}: []\n"
  else s!"{indentation depth}{key}:\n" ++ String.join (values.map (item depth))

/-- An entry whose value is the mapping with the given entries. -/
def nest (depth : Nat) (key : String) (entries : String) : String :=
  if entries.isEmpty then s!"{indentation depth}{key}: \x7b\x7d\n"
  else s!"{indentation depth}{key}:\n{entries}"

end ClassAtlas.Yaml
