import ClassAtlas.Proofs.Text.Utf8

/-!
# The class file variant of UTF-8 is read back

The variant writes the UTF-16 units of a text, each as if it were a character, and NUL in two bytes.
The reader tries plain UTF-8 first. That does no harm: a text in the variant is plain UTF-8 only if
it has neither NUL nor supplementary characters, and then both forms are the same.

## Main definitions

* `utf16Units` are the units of a character, a pair of surrogates if it is supplementary.
* `modifiedEncode` writes a text in the variant.
* `Group` relates a group of bytes to its unit, by the bits of the bytes.

## Main results

* `modifiedUnitsDecode?_modifiedEncode`: the reader of the variant undoes `modifiedEncode`.
* `modifiedDecode?_modifiedEncode`: so does the reader that tries plain UTF-8 first.
-/

namespace ClassAtlas.Text

/-- The UTF-16 units of a character. -/
def utf16Units (c : Char) : List Nat :=
  if c.toNat < 0x10000 then [c.toNat]
  else [0xD800 + (c.toNat - 0x10000) / 0x400, 0xDC00 + (c.toNat - 0x10000) % 0x400]

/-- A unit in one, two or three bytes; 0 takes two. -/
def unitBytes (u : Nat) : List UInt8 :=
  if u ≠ 0 ∧ u < 0x80 then [UInt8.ofNat u]
  else if u < 0x800 then [UInt8.ofNat (u / 64 + 192), UInt8.ofNat (u % 64 + 128)]
  else [UInt8.ofNat (u / 4096 + 224), UInt8.ofNat (u / 64 % 64 + 128), UInt8.ofNat (u % 64 + 128)]

/-- A text in the class file variant of UTF-8. -/
def modifiedEncode (cs : List Char) : List UInt8 :=
  (cs.flatMap utf16Units).flatMap unitBytes

theorem modifiedEncode_cons (c : Char) (cs : List Char) :
    modifiedEncode (c :: cs) = (utf16Units c).flatMap unitBytes ++ modifiedEncode cs := by
  simp [modifiedEncode]

/-! ## Units -/

theorem lt_of_mem_utf16Units {c : Char} {u : Nat} (h : u ∈ utf16Units c) : u < 0x10000 := by
  have hmax := toNat_lt_of_char c
  unfold utf16Units at h
  split at h <;> simp at h <;> omega

/-- No character is a surrogate. -/
theorem not_surrogate (c : Char) : c.toNat < 0xD800 ∨ 0xE000 ≤ c.toNat := by
  have hvalid : c.toNat.isValidChar := c.valid
  unfold Nat.isValidChar at hvalid
  omega

theorem utf16Decode?_append (c : Char) (rest : List Nat) :
    utf16Decode? (utf16Units c ++ rest) = (utf16Decode? rest).map (c :: ·) := by
  have hmax := toNat_lt_of_char c
  unfold utf16Units
  split
  · have hplain : isHighSurrogate c.toNat = false := by
      have := not_surrogate c
      simp [isHighSurrogate]
      omega
    rw [List.cons_append, List.nil_append, utf16Decode?.eq_def]
    simp only [hplain, Bool.false_eq_true, if_false, scalar?_toNat (Nat.zero_le _), bind,
      Option.bind_some]
    cases utf16Decode? rest <;> rfl
  · next hlarge =>
    have hhigh : isHighSurrogate (0xD800 + (c.toNat - 0x10000) / 0x400) = true := by
      simp [isHighSurrogate]
      omega
    have hlow : isLowSurrogate (0xDC00 + (c.toNat - 0x10000) % 0x400) = true := by
      simp [isLowSurrogate]
      omega
    have hpair : 0x10000 + (0xD800 + (c.toNat - 0x10000) / 0x400 - 0xD800) * 0x400 +
        (0xDC00 + (c.toNat - 0x10000) % 0x400 - 0xDC00) = c.toNat := by omega
    have hscalar : scalar? 0x10000 c.toNat = some c := scalar?_toNat (by omega)
    simp only [List.cons_append, List.nil_append, utf16Decode?, hhigh, hlow, if_true, hpair,
      hscalar]
    cases utf16Decode? rest <;> rfl

/-! ## Groups -/

/-- A group of bytes and the unit it stands for, put together from the bits behind the marks of its
bytes. -/
inductive Group : List UInt8 → Nat → Prop where
  | one {a : UInt8} (ha : a &&& 0x80 = 0) : Group [a] a.toNat
  | two {a b : UInt8} (ha : a &&& 0xE0 = 0xC0) (hb : b &&& 0xC0 = 0x80) :
    Group [a, b] ((a &&& 0x1F).toNat <<< 6 ||| (b &&& 0x3F).toNat)
  | three {a b c : UInt8} (ha : a &&& 0xF0 = 0xE0) (hb : b &&& 0xC0 = 0x80)
    (hc : c &&& 0xC0 = 0x80) :
    Group [a, b, c]
      ((a &&& 0x0F).toNat <<< 12 ||| (b &&& 0x3F).toNat <<< 6 ||| (c &&& 0x3F).toNat)

/-- The marks of a first byte as bounds. -/
theorem marks_iff (a : UInt8) :
    (a &&& 0x80 = 0 ↔ a.toNat < 0x80) ∧
      (a &&& 0xE0 = 0xC0 ↔ 0xC0 ≤ a.toNat ∧ a.toNat < 0xE0) ∧
      (a &&& 0xF0 = 0xE0 ↔ 0xE0 ≤ a.toNat ∧ a.toNat < 0xF0) := by
  have hall : ∀ v : BitVec 8, (UInt8.ofBitVec v &&& 0x80 = 0 ↔ v.toNat < 0x80) ∧
      (UInt8.ofBitVec v &&& 0xE0 = 0xC0 ↔ 0xC0 ≤ v.toNat ∧ v.toNat < 0xE0) ∧
      (UInt8.ofBitVec v &&& 0xF0 = 0xE0 ↔ 0xE0 ≤ v.toNat ∧ v.toNat < 0xF0) := by
    decide +kernel
  exact hall a.toBitVec

theorem continuation?_eq_some_iff {b : UInt8} {x : Nat} :
    continuation? b = some x ↔ b &&& 0xC0 = 0x80 ∧ (b &&& 0x3F).toNat = x := by
  have hall : ∀ v : BitVec 8, continuation? (UInt8.ofBitVec v) =
      if UInt8.ofBitVec v &&& 0xC0 = 0x80 then some (UInt8.ofBitVec v &&& 0x3F).toNat
      else none := by
    decide +kernel
  rw [hall b.toBitVec]
  simp

theorem continuation?_lt {b : UInt8} {x : Nat} (h : continuation? b = some x) : x < 64 := by
  rw [← (continuation?_eq_some_iff.1 h).2, UInt8.toNat_and]
  exact Nat.and_lt_two_pow (n := 6) _ (by decide)

theorem shiftLeft_or_eq {x y : Nat} (hy : y < 64) : x <<< 6 ||| y = x * 64 + y := by
  rw [← Nat.shiftLeft_add_eq_or_of_lt hy, Nat.shiftLeft_eq]

/-- The value of a group of two bytes as the reader computes it. -/
theorem two_value {a : UInt8} {x : Nat} (hlow : 0xC0 ≤ a.toNat) (hhigh : a.toNat < 0xE0)
    (hx : x < 64) : (a &&& 0x1F).toNat <<< 6 ||| x = (a.toNat - 0xC0) * 64 + x := by
  have hbits : (a &&& 0x1F).toNat = a.toNat - 0xC0 := by
    rw [UInt8.toNat_and]
    exact (Nat.and_two_pow_sub_one_eq_mod a.toNat 5).trans (by omega)
  rw [shiftLeft_or_eq hx, hbits]

/-- The value of a group of three bytes as the reader computes it. -/
theorem three_value {a : UInt8} {x y : Nat} (hlow : 0xE0 ≤ a.toNat) (hhigh : a.toNat < 0xF0)
    (hx : x < 64) (hy : y < 64) :
    (a &&& 0x0F).toNat <<< 12 ||| x <<< 6 ||| y = ((a.toNat - 0xE0) * 64 + x) * 64 + y := by
  have hbits : (a &&& 0x0F).toNat = a.toNat - 0xE0 := by
    rw [UInt8.toNat_and]
    exact (Nat.and_two_pow_sub_one_eq_mod a.toNat 4).trans (by omega)
  rw [Nat.shiftLeft_add _ 6 6, ← Nat.shiftLeft_or_distrib, shiftLeft_or_eq hy, shiftLeft_or_eq hx,
    hbits]

theorem groupUnits?_one {a : UInt8} (rest : List UInt8) (h : a.toNat < 0x80) :
    groupUnits? (a :: rest) = (groupUnits? rest).map (a.toNat :: ·) := by
  have ha : a < 0x80 := by simpa [UInt8.lt_iff_toNat_lt] using h
  rw [groupUnits?.eq_def]
  dsimp only
  rw [if_pos ha]
  cases groupUnits? rest <;> rfl

theorem groupUnits?_two {a b : UInt8} {x : Nat} (rest : List UInt8) (hlow : 0xC0 ≤ a.toNat)
    (hhigh : a.toNat < 0xE0) (hx : continuation? b = some x) :
    groupUnits? (a :: b :: rest) =
      (groupUnits? rest).map (((a.toNat - 0xC0) * 64 + x) :: ·) := by
  have h₁ : ¬a < 0x80 := by simp [UInt8.lt_iff_toNat_lt]; omega
  have h₂ : ¬a < 0xC0 := by simp [UInt8.lt_iff_toNat_lt]; omega
  have h₃ : a < 0xE0 := by simpa [UInt8.lt_iff_toNat_lt] using hhigh
  rw [groupUnits?, if_neg h₁, if_neg h₂, if_pos h₃]
  simp only [hx, bind, Option.bind_some]
  cases groupUnits? rest <;> rfl

theorem groupUnits?_three {a b c : UInt8} {x y : Nat} (rest : List UInt8) (hlow : 0xE0 ≤ a.toNat)
    (hhigh : a.toNat < 0xF0) (hx : continuation? b = some x) (hy : continuation? c = some y) :
    groupUnits? (a :: b :: c :: rest) =
      (groupUnits? rest).map ((((a.toNat - 0xE0) * 64 + x) * 64 + y) :: ·) := by
  have h₁ : ¬a < 0x80 := by simp [UInt8.lt_iff_toNat_lt]; omega
  have h₂ : ¬a < 0xC0 := by simp [UInt8.lt_iff_toNat_lt]; omega
  have h₃ : ¬a < 0xE0 := by simp [UInt8.lt_iff_toNat_lt]; omega
  have h₄ : a < 0xF0 := by simpa [UInt8.lt_iff_toNat_lt] using hhigh
  rw [groupUnits?, if_neg h₁, if_neg h₂, if_neg h₃, if_pos h₄]
  simp only [hx, hy, bind, Option.bind_some]
  cases groupUnits? rest <;> rfl

/-- The reader takes a group as its unit. -/
theorem Group.groupUnits?_append {group : List UInt8} {u : Nat} (h : Group group u)
    (rest : List UInt8) : groupUnits? (group ++ rest) = (groupUnits? rest).map (u :: ·) := by
  cases h with
  | one ha => exact groupUnits?_one rest ((marks_iff _).1.1 ha)
  | two ha hb =>
    obtain ⟨hlow, hhigh⟩ := (marks_iff _).2.1.1 ha
    have hx := continuation?_eq_some_iff.2 ⟨hb, rfl⟩
    rw [two_value hlow hhigh (continuation?_lt hx)]
    exact groupUnits?_two rest hlow hhigh hx
  | three ha hb hc =>
    obtain ⟨hlow, hhigh⟩ := (marks_iff _).2.2.1 ha
    have hx := continuation?_eq_some_iff.2 ⟨hb, rfl⟩
    have hy := continuation?_eq_some_iff.2 ⟨hc, rfl⟩
    rw [three_value hlow hhigh (continuation?_lt hx) (continuation?_lt hy)]
    exact groupUnits?_three rest hlow hhigh hx hy

/-! The three forms of a group, in the terms of the reader. -/

theorem group_one {a : UInt8} (h : a.toNat < 0x80) : Group [a] a.toNat :=
  .one ((marks_iff a).1.2 h)

theorem group_two {a b : UInt8} {x : Nat} (hlow : 0xC0 ≤ a.toNat) (hhigh : a.toNat < 0xE0)
    (hx : continuation? b = some x) : Group [a, b] ((a.toNat - 0xC0) * 64 + x) := by
  rw [← two_value hlow hhigh (continuation?_lt hx)]
  obtain ⟨hb, rfl⟩ := continuation?_eq_some_iff.1 hx
  exact .two ((marks_iff a).2.1.2 ⟨hlow, hhigh⟩) hb

theorem group_three {a b c : UInt8} {x y : Nat} (hlow : 0xE0 ≤ a.toNat) (hhigh : a.toNat < 0xF0)
    (hx : continuation? b = some x) (hy : continuation? c = some y) :
    Group [a, b, c] (((a.toNat - 0xE0) * 64 + x) * 64 + y) := by
  rw [← three_value hlow hhigh (continuation?_lt hx) (continuation?_lt hy)]
  obtain ⟨hb, rfl⟩ := continuation?_eq_some_iff.1 hx
  obtain ⟨hc, rfl⟩ := continuation?_eq_some_iff.1 hy
  exact .three ((marks_iff a).2.2.2 ⟨hlow, hhigh⟩) hb hc

/-- The bytes that are written for a unit are a group. -/
theorem group_unitBytes {u : Nat} (h : u < 0x10000) : Group (unitBytes u) u := by
  unfold unitBytes
  split
  · have ha := toNat_ofNat_of_lt (n := u) (by omega)
    have hone := group_one (a := UInt8.ofNat u) (by omega)
    rwa [ha] at hone
  · split
    · have ha := toNat_ofNat_of_lt (n := u / 64 + 192) (by omega)
      have htwo := group_two (a := UInt8.ofNat (u / 64 + 192)) (by omega) (by omega)
        (continuation?_ofNat u)
      rwa [ha, show (u / 64 + 192 - 0xC0) * 64 + u % 64 = u by omega] at htwo
    · have ha := toNat_ofNat_of_lt (n := u / 4096 + 224) (by omega)
      have hthree := group_three (a := UInt8.ofNat (u / 4096 + 224)) (by omega) (by omega)
        (continuation?_ofNat (u / 64)) (continuation?_ofNat u)
      rwa [ha, show ((u / 4096 + 224 - 0xE0) * 64 + u / 64 % 64) * 64 + u % 64 = u by omega]
        at hthree

theorem groupUnits?_flatMap {units : List Nat} (h : ∀ u ∈ units, u < 0x10000) :
    groupUnits? (units.flatMap unitBytes) = some units := by
  induction units with
  | nil => rfl
  | cons u units ih =>
    rw [List.forall_mem_cons] at h
    rw [List.flatMap_cons, (group_unitBytes h.1).groupUnits?_append, ih h.2]
    rfl

theorem utf16Decode?_flatMap (cs : List Char) : utf16Decode? (cs.flatMap utf16Units) = some cs := by
  induction cs with
  | nil => rfl
  | cons c cs ih =>
    rw [List.flatMap_cons, utf16Decode?_append, ih]
    rfl

theorem modifiedUnitsDecode?_modifiedEncode (cs : List Char) :
    modifiedUnitsDecode? (modifiedEncode cs) = some cs := by
  have hunits : ∀ u ∈ cs.flatMap utf16Units, u < 0x10000 := by
    intro u hu
    obtain ⟨c, -, hc⟩ := List.mem_flatMap.1 hu
    exact lt_of_mem_utf16Units hc
  rw [modifiedUnitsDecode?, modifiedEncode, groupUnits?_flatMap hunits, Option.bind_some,
    utf16Decode?_flatMap]

/-! ## Plain UTF-8 -/

/-- Without NUL and supplementary characters the variant is plain UTF-8. -/
theorem flatMap_unitBytes_eq {c : Char} (hne : c.toNat ≠ 0) (hlt : c.toNat < 0x10000) :
    (utf16Units c).flatMap unitBytes = String.utf8EncodeChar c := by
  rw [utf8EncodeChar_eq, utf16Units, if_pos hlt, List.flatMap_singleton, unitBytes]
  by_cases hone : c.toNat < 0x80
  · rw [if_pos ⟨hne, hone⟩, if_pos (Nat.le_of_lt_succ hone)]
  · rw [if_neg (fun h => hone h.2), if_neg (show ¬c.toNat ≤ 0x7f by omega)]
    by_cases htwo : c.toNat < 0x800
    · rw [if_pos htwo, if_pos (Nat.le_of_lt_succ htwo),
        Nat.mod_eq_of_lt (show c.toNat / 64 < 32 by omega)]
    · rw [if_neg htwo, if_neg (show ¬c.toNat ≤ 0x7ff by omega), if_pos (Nat.le_of_lt_succ hlt),
        Nat.mod_eq_of_lt (show c.toNat / 4096 < 16 by omega)]

/-- A surrogate is refused where plain UTF-8 is read. -/
theorem utf8Decode?_surrogate {u : Nat} (hlow : 0xD800 ≤ u) (hhigh : u < 0xE000)
    (rest : List UInt8) : utf8Decode? (unitBytes u ++ rest) = none := by
  have ha := toNat_ofNat_of_lt (n := u / 4096 + 224) (by omega)
  have hsum : ((u / 4096 + 224 - 0xE0) * 64 + u / 64 % 64) * 64 + u % 64 = u := by omega
  have hinvalid : ¬(u.isValidChar ∧ 0x800 ≤ u) := by
    unfold Nat.isValidChar
    omega
  rw [unitBytes, if_neg (by omega), if_neg (by omega)]
  refine (utf8Decode?_three rest (by omega) (by omega) (continuation?_ofNat _)
    (continuation?_ofNat _)).trans ?_
  rw [ha, hsum, scalar?, if_neg hinvalid]
  rfl

/-- A character of the variant is read as such where plain UTF-8 is read, or it is refused. -/
theorem utf8Decode?_flatMap_append (c : Char) (rest : List UInt8) :
    utf8Decode? ((utf16Units c).flatMap unitBytes ++ rest) = (utf8Decode? rest).map (c :: ·) ∨
      utf8Decode? ((utf16Units c).flatMap unitBytes ++ rest) = none := by
  have hmax := toNat_lt_of_char c
  by_cases hlt : c.toNat < 0x10000
  · by_cases hzero : c.toNat = 0
    · right
      have hbytes : (utf16Units c).flatMap unitBytes = [0xC0, 0x80] := by
        rw [utf16Units, hzero]
        rfl
      have hscalar : scalar? 0x80 (((0xC0 : UInt8).toNat - 0xC0) * 64 + 0) = none := by decide
      rw [hbytes, List.cons_append, List.cons_append, List.nil_append,
        utf8Decode?_two rest (by decide) (by decide) (show continuation? 0x80 = some 0 by decide),
        hscalar]
      rfl
    · left
      rw [flatMap_unitBytes_eq hzero hlt, utf8Decode?_append]
  · right
    rw [utf16Units, if_neg hlt, List.flatMap_cons, List.append_assoc]
    exact utf8Decode?_surrogate (by omega) (by omega) _

theorem utf8Decode?_modifiedEncode {cs ds : List Char}
    (h : utf8Decode? (modifiedEncode cs) = some ds) : ds = cs := by
  induction cs generalizing ds with
  | nil => exact (Option.some.inj h).symm
  | cons c cs ih =>
    rw [modifiedEncode_cons] at h
    rcases utf8Decode?_flatMap_append c (modifiedEncode cs) with heq | heq
    · rw [heq, Option.map_eq_some_iff] at h
      obtain ⟨ds, hds, rfl⟩ := h
      rw [ih hds]
    · rw [heq] at h
      cases h

theorem modifiedDecode?_modifiedEncode (cs : List Char) :
    modifiedDecode? (modifiedEncode cs) = some cs := by
  unfold modifiedDecode?
  cases h : utf8Decode? (modifiedEncode cs) with
  | none => rw [Option.none_or, modifiedUnitsDecode?_modifiedEncode]
  | some ds => rw [Option.some_or, utf8Decode?_modifiedEncode h]

end ClassAtlas.Text
