/-!
# Decimal numerals

Writing a floating-point number with one decimal place. The exact value is rounded, and a tie goes
to the even neighbour.
-/

namespace ClassAtlas.Text

/-- The nearest whole number to `num / den`; a tie goes to the even neighbour. -/
def roundDiv (num den : Nat) : Nat :=
  let q := num / den
  let twice := 2 * (num % den)
  if den < twice ∨ (twice = den ∧ q % 2 = 1) then q + 1 else q

/-- A non-negative finite number as `num / den`, given by its 64 bits. -/
def fractionOfBits (bits : UInt64) : Nat × Nat :=
  let n := bits.toNat % Nat.pow 2 63
  let exponent := n / Nat.pow 2 52
  let mantissa := n % Nat.pow 2 52
  if exponent = 0 then (mantissa, Nat.pow 2 1074)
  else if 1075 ≤ exponent then ((mantissa + Nat.pow 2 52) * Nat.pow 2 (exponent - 1075), 1)
  else (mantissa + Nat.pow 2 52, Nat.pow 2 (1075 - exponent))

/-- A non-negative finite number with one decimal place. -/
def oneDecimal (x : Float) : String :=
  let (num, den) := fractionOfBits x.toBits
  let tenths := roundDiv (num * 10) den
  s!"{tenths / 10}.{tenths % 10}"

end ClassAtlas.Text
