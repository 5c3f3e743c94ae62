/-!
# Hexadecimal numerals
-/

namespace ClassAtlas.Text

/-- A numeral to base sixteen with lower-case letters, filled up with zeros to `width` digits. -/
def hexLower (width n : Nat) : String :=
  let digits := Nat.toDigits 16 n
  String.ofList (List.replicate (width - digits.length) '0' ++ digits)

/-- A numeral to base sixteen with upper-case letters, filled up with zeros to `width` digits. -/
def hexUpper (width n : Nat) : String :=
  String.ofList ((hexLower width n).toList.map Char.toUpper)

end ClassAtlas.Text
