import ClassAtlas.Text.Utf8

/-!
# UTF-8 is read back

A text in plain UTF-8 is read back as it was, also by the reader of the class file variant, which
tries plain UTF-8 first.
-/

namespace ClassAtlas.Text

theorem continuation?_ofNat (n : Nat) :
    continuation? (UInt8.ofNat (n % 64 + 128)) = some (n % 64) := by
  have hlt : n % 64 < 64 := Nat.mod_lt _ (by decide)
  have hnat : (UInt8.ofNat (n % 64 + 128)).toNat = n % 64 + 128 := by
    rw [UInt8.toNat_ofNat']
    omega
  have hge : (0x80 : UInt8) ≤ UInt8.ofNat (n % 64 + 128) := by
    rw [UInt8.le_iff_toNat_le, hnat]
    simp
  have hlt' : UInt8.ofNat (n % 64 + 128) < 0xC0 := by
    rw [UInt8.lt_iff_toNat_lt, hnat]
    simp
    omega
  rw [continuation?, if_pos ⟨hge, hlt'⟩, hnat, Nat.add_sub_cancel]

theorem scalar?_toNat {least : Nat} {c : Char} (h : least ≤ c.toNat) :
    scalar? least c.toNat = some c := by
  rw [scalar?, if_pos ⟨c.valid, h⟩, Char.ofNat_toNat]

theorem toNat_ofNat_of_lt {n : Nat} (h : n < 256) : (UInt8.ofNat n).toNat = n := by
  rw [UInt8.toNat_ofNat']
  omega

/-! The four forms of a character, by the value of its first byte. -/

theorem utf8Decode?_one {a : UInt8} (rest : List UInt8) (h : a.toNat < 0x80) :
    utf8Decode? (a :: rest) = (utf8Decode? rest).map (Char.ofNat a.toNat :: ·) := by
  have ha : a < 0x80 := by simpa [UInt8.lt_iff_toNat_lt] using h
  rw [utf8Decode?.eq_def]
  dsimp only
  rw [if_pos ha]
  cases utf8Decode? rest <;> rfl

theorem utf8Decode?_two {a b : UInt8} {x : Nat} (rest : List UInt8) (hlow : 0xC0 ≤ a.toNat)
    (hhigh : a.toNat < 0xE0) (hx : continuation? b = some x) :
    utf8Decode? (a :: b :: rest) = (scalar? 0x80 ((a.toNat - 0xC0) * 64 + x)).bind
      fun c => (utf8Decode? rest).map (c :: ·) := by
  have h₁ : ¬a < 0x80 := by simp [UInt8.lt_iff_toNat_lt]; omega
  have h₂ : ¬a < 0xC0 := by simp [UInt8.lt_iff_toNat_lt]; omega
  have h₃ : a < 0xE0 := by simpa [UInt8.lt_iff_toNat_lt] using hhigh
  rw [utf8Decode?, if_neg h₁, if_neg h₂, if_pos h₃]
  simp only [hx, bind, Option.bind_some]
  cases utf8Decode? rest <;> rfl

theorem utf8Decode?_three {a b b' : UInt8} {x y : Nat} (rest : List UInt8) (hlow : 0xE0 ≤ a.toNat)
    (hhigh : a.toNat < 0xF0) (hx : continuation? b = some x) (hy : continuation? b' = some y) :
    utf8Decode? (a :: b :: b' :: rest) =
      (scalar? 0x800 (((a.toNat - 0xE0) * 64 + x) * 64 + y)).bind
        fun c => (utf8Decode? rest).map (c :: ·) := by
  have h₁ : ¬a < 0x80 := by simp [UInt8.lt_iff_toNat_lt]; omega
  have h₂ : ¬a < 0xC0 := by simp [UInt8.lt_iff_toNat_lt]; omega
  have h₃ : ¬a < 0xE0 := by simp [UInt8.lt_iff_toNat_lt]; omega
  have h₄ : a < 0xF0 := by simpa [UInt8.lt_iff_toNat_lt] using hhigh
  rw [utf8Decode?, if_neg h₁, if_neg h₂, if_neg h₃, if_pos h₄]
  simp only [hx, hy, bind, Option.bind_some]
  cases utf8Decode? rest <;> rfl

theorem utf8Decode?_four {a b b' b'' : UInt8} {x y z : Nat} (rest : List UInt8)
    (hlow : 0xF0 ≤ a.toNat) (hhigh : a.toNat < 0xF8) (hx : continuation? b = some x)
    (hy : continuation? b' = some y) (hz : continuation? b'' = some z) :
    utf8Decode? (a :: b :: b' :: b'' :: rest) =
      (scalar? 0x10000 ((((a.toNat - 0xF0) * 64 + x) * 64 + y) * 64 + z)).bind
        fun c => (utf8Decode? rest).map (c :: ·) := by
  have h₁ : ¬a < 0x80 := by simp [UInt8.lt_iff_toNat_lt]; omega
  have h₂ : ¬a < 0xC0 := by simp [UInt8.lt_iff_toNat_lt]; omega
  have h₃ : ¬a < 0xE0 := by simp [UInt8.lt_iff_toNat_lt]; omega
  have h₄ : ¬a < 0xF0 := by simp [UInt8.lt_iff_toNat_lt]; omega
  have h₅ : a < 0xF8 := by simpa [UInt8.lt_iff_toNat_lt] using hhigh
  rw [utf8Decode?, if_neg h₁, if_neg h₂, if_neg h₃, if_neg h₄, if_pos h₅]
  simp only [hx, hy, hz, bind, Option.bind_some]
  cases utf8Decode? rest <;> rfl

theorem toNat_lt_of_char (c : Char) : c.toNat < 0x110000 := by
  have hvalid : c.toNat.isValidChar := c.valid
  rw [Nat.isValidChar] at hvalid
  omega

theorem utf8EncodeChar_eq (c : Char) : String.utf8EncodeChar c =
    if c.toNat ≤ 0x7f then [UInt8.ofNat c.toNat]
    else if c.toNat ≤ 0x7ff then
      [UInt8.ofNat (c.toNat / 64 % 32 + 192), UInt8.ofNat (c.toNat % 64 + 128)]
    else if c.toNat ≤ 0xffff then
      [UInt8.ofNat (c.toNat / 4096 % 16 + 224), UInt8.ofNat (c.toNat / 64 % 64 + 128),
        UInt8.ofNat (c.toNat % 64 + 128)]
    else
      [UInt8.ofNat (c.toNat / 262144 % 8 + 240), UInt8.ofNat (c.toNat / 4096 % 64 + 128),
        UInt8.ofNat (c.toNat / 64 % 64 + 128), UInt8.ofNat (c.toNat % 64 + 128)] := rfl

theorem utf8Decode?_append (c : Char) (rest : List UInt8) :
    utf8Decode? (String.utf8EncodeChar c ++ rest) = (utf8Decode? rest).map (c :: ·) := by
  have hmax := toNat_lt_of_char c
  rw [utf8EncodeChar_eq]
  split
  · next h =>
    have ha := toNat_ofNat_of_lt (n := c.toNat) (by omega)
    have hone := utf8Decode?_one rest (a := UInt8.ofNat c.toNat) (by omega)
    rwa [ha, Char.ofNat_toNat] at hone
  · split
    · next h =>
      have ha := toNat_ofNat_of_lt (n := c.toNat / 64 % 32 + 192) (by omega)
      have hsum : (c.toNat / 64 % 32 + 192 - 0xC0) * 64 + c.toNat % 64 = c.toNat := by omega
      refine (utf8Decode?_two rest (by omega) (by omega) (continuation?_ofNat _)).trans ?_
      rw [ha, hsum, scalar?_toNat (by omega)]
      rfl
    · split
      · next h =>
        have ha := toNat_ofNat_of_lt (n := c.toNat / 4096 % 16 + 224) (by omega)
        have hsum : ((c.toNat / 4096 % 16 + 224 - 0xE0) * 64 + c.toNat / 64 % 64) * 64 +
            c.toNat % 64 = c.toNat := by omega
        refine (utf8Decode?_three rest (by omega) (by omega) (continuation?_ofNat _)
          (continuation?_ofNat _)).trans ?_
        rw [ha, hsum, scalar?_toNat (by omega)]
        rfl
      · have ha := toNat_ofNat_of_lt (n := c.toNat / 262144 % 8 + 240) (by omega)
        have hsum : (((c.toNat / 262144 % 8 + 240 - 0xF0) * 64 + c.toNat / 4096 % 64) * 64 +
            c.toNat / 64 % 64) * 64 + c.toNat % 64 = c.toNat := by omega
        refine (utf8Decode?_four rest (by omega) (by omega) (continuation?_ofNat _)
          (continuation?_ofNat _) (continuation?_ofNat _)).trans ?_
        rw [ha, hsum, scalar?_toNat (by omega)]
        rfl

theorem utf8Decode?_utf8Encode (cs : List Char) : utf8Decode? (utf8Encode cs) = some cs := by
  induction cs with
  | nil => rfl
  | cons c cs ih =>
    rw [utf8Encode, List.flatMap_cons, utf8Decode?_append, ← utf8Encode, ih]
    rfl

theorem modifiedDecode?_utf8Encode (cs : List Char) :
    modifiedDecode? (utf8Encode cs) = some cs := by
  rw [modifiedDecode?, utf8Decode?_utf8Encode]
  rfl

end ClassAtlas.Text
