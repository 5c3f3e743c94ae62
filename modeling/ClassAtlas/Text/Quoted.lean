import ClassAtlas.Text.Hex
import ClassAtlas.Text.Shown

/-!
# Quoted texts

A text in double quotes for display. Quotes, backslashes and the usual control characters are
written with a backslash, and a character that does not show by its number in braces.
-/

namespace ClassAtlas.Text

/-- The letters that stand for characters after a backslash. -/
def quotedLetters : List (Char × Char) :=
  [('\x00', '0'), ('\t', 't'), ('\n', 'n'), ('\r', 'r'), ('\x22', '\x22'), ('\\', '\\')]

/-- A character inside quotes. -/
def quotedChar (c : Char) : String :=
  match quotedLetters.lookup c with
  | some letter => String.ofList ['\\', letter]
  | none =>
    if shows c then String.ofList [c] else "\\u\x7b" ++ hexLower 1 c.toNat ++ "\x7d"

/-- A text in quotes. -/
def quoted (text : String) : String :=
  "\"" ++ String.join (text.toList.map quotedChar) ++ "\""

/-- A list of texts in quotes. -/
def quotedList (texts : List String) : String := "[" ++ ", ".intercalate (texts.map quoted) ++ "]"

end ClassAtlas.Text
