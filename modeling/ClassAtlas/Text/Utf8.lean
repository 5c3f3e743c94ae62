/-!
# UTF-8 and its class file variant

Class files write a text in *modified* UTF-8: NUL as `C0 80`, and a supplementary character as the
two three-byte groups of its UTF-16 surrogates. Both this form and plain UTF-8 are read.

## Main definitions

* `utf8Decode?` reads strict UTF-8.
* `groupUnits?` splits bytes into one-, two- and three-byte groups, each a UTF-16 unit.
* `utf16Decode?` pairs surrogates.
* `modifiedDecode?` reads plain UTF-8 or else the class file variant.
-/

namespace ClassAtlas.Text

/-- The six bits of a continuation byte. -/
def continuation? (b : UInt8) : Option Nat :=
  if 0x80 ≤ b ∧ b < 0xC0 then some (b.toNat - 0x80) else none

/-- The scalar value `n`, if it is one and at least `least`. -/
def scalar? (least n : Nat) : Option Char :=
  if n.isValidChar ∧ least ≤ n then some (Char.ofNat n) else none

/-- Strict UTF-8: shortest forms of scalar values only. -/
def utf8Decode? : List UInt8 → Option (List Char)
  | [] => some []
  | a :: rest =>
    if a < 0x80 then return Char.ofNat a.toNat :: (← utf8Decode? rest)
    else if a < 0xC0 then none
    else if a < 0xE0 then
      match rest with
      | b :: rest => do
        let x ← continuation? b
        let c ← scalar? 0x80 ((a.toNat - 0xC0) * 64 + x)
        return c :: (← utf8Decode? rest)
      | _ => none
    else if a < 0xF0 then
      match rest with
      | b :: c :: rest => do
        let x ← continuation? b
        let y ← continuation? c
        let c ← scalar? 0x800 (((a.toNat - 0xE0) * 64 + x) * 64 + y)
        return c :: (← utf8Decode? rest)
      | _ => none
    else if a < 0xF8 then
      match rest with
      | b :: c :: d :: rest => do
        let x ← continuation? b
        let y ← continuation? c
        let z ← continuation? d
        let c ← scalar? 0x10000 ((((a.toNat - 0xF0) * 64 + x) * 64 + y) * 64 + z)
        return c :: (← utf8Decode? rest)
      | _ => none
    else none

/-- Splits bytes into one-, two- and three-byte groups and gives the value of each. Longer forms
than needed are accepted. -/
def groupUnits? : List UInt8 → Option (List Nat)
  | [] => some []
  | a :: rest =>
    if a < 0x80 then return a.toNat :: (← groupUnits? rest)
    else if a < 0xC0 then none
    else if a < 0xE0 then
      match rest with
      | b :: rest => do
        let x ← continuation? b
        return ((a.toNat - 0xC0) * 64 + x) :: (← groupUnits? rest)
      | _ => none
    else if a < 0xF0 then
      match rest with
      | b :: c :: rest => do
        let x ← continuation? b
        let y ← continuation? c
        return (((a.toNat - 0xE0) * 64 + x) * 64 + y) :: (← groupUnits? rest)
      | _ => none
    else none

/-- The unit is the first of a pair. -/
def isHighSurrogate (u : Nat) : Bool := 0xD800 ≤ u && u < 0xDC00

/-- The unit is the second of a pair. -/
def isLowSurrogate (u : Nat) : Bool := 0xDC00 ≤ u && u < 0xE000

/-- Reads UTF-16; surrogates have to come in pairs. -/
def utf16Decode? : List Nat → Option (List Char)
  | [] => some []
  | u :: rest =>
    if isHighSurrogate u then
      match rest with
      | v :: rest =>
        if isLowSurrogate v then do
          let c ← scalar? 0x10000 (0x10000 + (u - 0xD800) * 0x400 + (v - 0xDC00))
          return c :: (← utf16Decode? rest)
        else none
      | [] => none
    else do
      let c ← scalar? 0 u
      return c :: (← utf16Decode? rest)

/-- Reads the class file variant of UTF-8. -/
def modifiedUnitsDecode? (bytes : List UInt8) : Option (List Char) :=
  (groupUnits? bytes).bind utf16Decode?

/-- Reads plain UTF-8, or else its class file variant. -/
def modifiedDecode? (bytes : List UInt8) : Option (List Char) :=
  (utf8Decode? bytes).or (modifiedUnitsDecode? bytes)

/-- Plain UTF-8. -/
def utf8Encode (cs : List Char) : List UInt8 := cs.flatMap String.utf8EncodeChar

end ClassAtlas.Text
