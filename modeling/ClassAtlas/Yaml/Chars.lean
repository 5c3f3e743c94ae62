/-!
# Characters of YAML

The classes of characters that reading and writing distinguish.
-/

namespace ClassAtlas.Yaml

/-- Ends a line: a line feed, a carriage return, and the three separators of Unicode. -/
def isBreak (c : Char) : Bool :=
  ['\n', '\r', '\u0085', '\u2028', '\u2029'].contains c

/-- A blank within a line. -/
def isSpace (c : Char) : Bool := c = ' ' || c = '\t'

/-- The text ends here, or a blank or the end of a line comes next. -/
def endsWord : List Char → Bool
  | [] => true
  | c :: _ => isSpace c || isBreak c

/-- May occur in a document at all. -/
def isAllowed (c : Char) : Bool :=
  let n := c.toNat
  ['\t', '\n', '\r', '\u0085'].contains c || (0x20 ≤ n && n ≤ 0x7E) || (0xA0 ≤ n && n ≤ 0xFFFD) ||
    0x10000 ≤ n

/-- Is written as itself outside double quotes. -/
def isPrintable (c : Char) : Bool :=
  let n := c.toNat
  c = '\n' || (0x20 ≤ n && n ≤ 0x7E) || (0xA0 ≤ n && n ≤ 0xFFFD && n ≠ 0xFEFF) ||
    0x10000 ≤ n

/-- Has a meaning of its own at the start of a node. -/
def isIndicator (c : Char) : Bool :=
  [',', '[', ']', '\x7b', '\x7d', '#', '&', '*', '!', '|', '>', '\x27', '\x22', '%', '@',
    '\x60'].contains c

/-- Ends a plain scalar inside brackets. -/
def isBracketing (c : Char) : Bool := [',', '[', ']', '\x7b', '\x7d'].contains c

/-- May occur in the name of a node, of a directive or of a handle. -/
def isNameChar (c : Char) : Bool := c.isAlphanum || c = '_' || c = '-'

/-- May occur in a tag. Commas and square brackets may do so only in some places. -/
def isTagChar (bracketing : Bool) (c : Char) : Bool :=
  let marks :=
    [';', '/', '?', ':', '@', '&', '=', '+', '$', '.', '%', '!', '~', '*', '\x27', '(', ')']
  isNameChar c || marks.contains c || (bracketing && [',', '[', ']'].contains c)

/-- Starts with three dashes or three dots that mark the bounds of a document. -/
def isMarker : List Char → Bool
  | '-' :: '-' :: '-' :: rest => endsWord rest
  | '.' :: '.' :: '.' :: rest => endsWord rest
  | _ => false

end ClassAtlas.Yaml
