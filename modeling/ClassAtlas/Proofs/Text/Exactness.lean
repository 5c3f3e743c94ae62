import ClassAtlas.Proofs.Text.ModifiedUtf8

/-!
# Which bytes are read as a text

The reader tries plain UTF-8 and then the class file variant. The two accept different bytes: plain
UTF-8 has four-byte forms, while the variant takes forms that are longer than needed, and
surrogates. Here both languages are described without the readers, by what is written for a text and
by groups of bytes with their units.

## Main definitions

* `Groups` says that bytes are groups one after the other, and which units these stand for.
* `Paired` says that surrogates stand in pairs.

## Main results

* `utf8Decode?_eq_some_iff`: plain UTF-8 is read exactly if it is written for the text.
* `modifiedUnitsDecode?_eq_some_iff`: the variant is read exactly if the bytes fall into groups
  whose units are those of the text.
* `modifiedDecode?_exact`: what the reader of both accepts, and that it undoes both ways of writing.
-/

namespace ClassAtlas.Text

/-- Groups one after the other, and the units they stand for. -/
inductive Groups : List UInt8 → List Nat → Prop where
  | nil : Groups [] []
  | cons {group rest : List UInt8} {u : Nat} {units : List Nat} :
    Group group u → Groups rest units → Groups (group ++ rest) (u :: units)

/-- Every surrogate is one of a pair, first the high and then the low one. -/
inductive Paired : List Nat → Prop where
  | nil : Paired []
  | single {u : Nat} {rest : List Nat} (hhigh : ¬isHighSurrogate u) (hlow : ¬isLowSurrogate u) :
    Paired rest → Paired (u :: rest)
  | pair {u v : Nat} {rest : List Nat} (hu : isHighSurrogate u) (hv : isLowSurrogate v) :
    Paired rest → Paired (u :: v :: rest)

theorem scalar?_eq_some_iff {least n : Nat} {c : Char} :
    scalar? least n = some c ↔ c.toNat = n ∧ least ≤ n := by
  constructor
  · intro h
    rw [scalar?] at h
    split at h
    · next hn =>
      cases h
      refine ⟨?_, hn.2⟩
      rw [Char.ofNat, dif_pos hn.1]
      rfl
    · cases h
  · rintro ⟨rfl, hle⟩
    exact scalar?_toNat hle

/-! ## Plain UTF-8 -/

theorem toNat_of_continuation? {b : UInt8} {x : Nat} (h : continuation? b = some x) :
    b.toNat = x + 128 := by
  simp [continuation?, UInt8.le_iff_toNat_le] at h
  omega

theorem ofNat_eq {b : UInt8} {n : Nat} (h : b.toNat = n) : UInt8.ofNat n = b := by
  rw [← h, UInt8.ofNat_toNat]

/-! What is written for a character of one, two, three and four bytes, in the terms of the reader.
-/

theorem utf8EncodeChar_one {a : UInt8} (ha : a.toNat < 0x80) :
    String.utf8EncodeChar (Char.ofNat a.toNat) = [a] := by
  have hscalar : scalar? 0 a.toNat = some (Char.ofNat a.toNat) :=
    if_pos ⟨.inl (by omega), Nat.zero_le _⟩
  rw [utf8EncodeChar_eq, (scalar?_eq_some_iff.1 hscalar).1, if_pos (by omega), UInt8.ofNat_toNat]

theorem utf8EncodeChar_two {a b : UInt8} {x : Nat} {c : Char} (hlow : 0xC0 ≤ a.toNat)
    (hhigh : a.toNat < 0xE0) (hx : continuation? b = some x)
    (hc : scalar? 0x80 ((a.toNat - 0xC0) * 64 + x) = some c) :
    String.utf8EncodeChar c = [a, b] := by
  obtain ⟨hc, hle⟩ := scalar?_eq_some_iff.1 hc
  have hb := toNat_of_continuation? hx
  have hlt := continuation?_lt hx
  rw [utf8EncodeChar_eq, if_neg (by omega), if_pos (by omega), ofNat_eq (b := a) (by omega),
    ofNat_eq (b := b) (by omega)]

theorem utf8EncodeChar_three {a b b' : UInt8} {x y : Nat} {c : Char} (hlow : 0xE0 ≤ a.toNat)
    (hhigh : a.toNat < 0xF0) (hx : continuation? b = some x) (hy : continuation? b' = some y)
    (hc : scalar? 0x800 (((a.toNat - 0xE0) * 64 + x) * 64 + y) = some c) :
    String.utf8EncodeChar c = [a, b, b'] := by
  obtain ⟨hc, hle⟩ := scalar?_eq_some_iff.1 hc
  have hb := toNat_of_continuation? hx
  have hb' := toNat_of_continuation? hy
  have hlt := continuation?_lt hx
  have hlt' := continuation?_lt hy
  rw [utf8EncodeChar_eq, if_neg (by omega), if_neg (by omega), if_pos (by omega),
    ofNat_eq (b := a) (by omega), ofNat_eq (b := b) (by omega), ofNat_eq (b := b') (by omega)]

theorem utf8EncodeChar_four {a b b' b'' : UInt8} {x y z : Nat} {c : Char} (hlow : 0xF0 ≤ a.toNat)
    (hhigh : a.toNat < 0xF8) (hx : continuation? b = some x) (hy : continuation? b' = some y)
    (hz : continuation? b'' = some z)
    (hc : scalar? 0x10000 ((((a.toNat - 0xF0) * 64 + x) * 64 + y) * 64 + z) = some c) :
    String.utf8EncodeChar c = [a, b, b', b''] := by
  obtain ⟨hc, hle⟩ := scalar?_eq_some_iff.1 hc
  have hb := toNat_of_continuation? hx
  have hb' := toNat_of_continuation? hy
  have hb'' := toNat_of_continuation? hz
  have hlt := continuation?_lt hx
  have hlt' := continuation?_lt hy
  have hlt'' := continuation?_lt hz
  rw [utf8EncodeChar_eq, if_neg (by omega), if_neg (by omega), if_neg (by omega),
    ofNat_eq (b := a) (by omega), ofNat_eq (b := b) (by omega), ofNat_eq (b := b') (by omega),
    ofNat_eq (b := b'') (by omega)]

/-- What is read is what is written for the result. -/
theorem eq_utf8Encode_of_utf8Decode? {bytes : List UInt8} {cs : List Char}
    (h : utf8Decode? bytes = some cs) : bytes = utf8Encode cs := by
  have hcons (c : Char) (cs : List Char) :
      utf8Encode (c :: cs) = String.utf8EncodeChar c ++ utf8Encode cs := List.flatMap_cons
  fun_induction utf8Decode? bytes generalizing cs with
  | case1 => exact Option.some.inj h ▸ rfl
  | case2 a rest ha ih =>
    obtain ⟨ds, hds, h⟩ := Option.bind_eq_some_iff.1 h
    cases h
    rw [hcons, utf8EncodeChar_one (by simpa [UInt8.lt_iff_toNat_lt] using ha), ← ih hds]
    rfl
  | case4 a _ hlow hhigh b rest ih =>
    simp only [Option.bind_eq_bind, Option.bind_eq_some_iff] at h
    obtain ⟨x, hx, c, hc, ds, hds, h⟩ := h
    cases h
    rw [hcons, utf8EncodeChar_two (by simpa [UInt8.lt_iff_toNat_lt] using hlow)
      (by simpa [UInt8.lt_iff_toNat_lt] using hhigh) hx hc, ← ih hds]
    rfl
  | case6 a _ _ hlow hhigh b b' rest ih =>
    simp only [Option.bind_eq_bind, Option.bind_eq_some_iff] at h
    obtain ⟨x, hx, y, hy, c, hc, ds, hds, h⟩ := h
    cases h
    rw [hcons, utf8EncodeChar_three (by simpa [UInt8.lt_iff_toNat_lt] using hlow)
      (by simpa [UInt8.lt_iff_toNat_lt] using hhigh) hx hy hc, ← ih hds]
    rfl
  | case8 a _ _ _ hlow hhigh b b' b'' rest ih =>
    simp only [Option.bind_eq_bind, Option.bind_eq_some_iff] at h
    obtain ⟨x, hx, y, hy, z, hz, c, hc, ds, hds, h⟩ := h
    cases h
    rw [hcons, utf8EncodeChar_four (by simpa [UInt8.lt_iff_toNat_lt] using hlow)
      (by simpa [UInt8.lt_iff_toNat_lt] using hhigh) hx hy hz hc, ← ih hds]
    rfl
  | case3 | case5 | case7 | case9 | case10 => cases h

theorem utf8Decode?_eq_some_iff {bytes : List UInt8} {cs : List Char} :
    utf8Decode? bytes = some cs ↔ bytes = utf8Encode cs :=
  ⟨eq_utf8Encode_of_utf8Decode?, fun h => h ▸ utf8Decode?_utf8Encode cs⟩

/-! ## Groups -/

theorem Group.lt {group : List UInt8} {u : Nat} (h : Group group u) : u < 0x10000 := by
  cases h with
  | one ha =>
    have hlt := (marks_iff _).1.1 ha
    omega
  | two ha hb =>
    obtain ⟨hlow, hhigh⟩ := (marks_iff _).2.1.1 ha
    have hx := continuation?_lt (continuation?_eq_some_iff.2 ⟨hb, rfl⟩)
    rw [two_value hlow hhigh hx]
    omega
  | three ha hb hc =>
    obtain ⟨hlow, hhigh⟩ := (marks_iff _).2.2.1 ha
    have hx := continuation?_lt (continuation?_eq_some_iff.2 ⟨hb, rfl⟩)
    have hy := continuation?_lt (continuation?_eq_some_iff.2 ⟨hc, rfl⟩)
    rw [three_value hlow hhigh hx hy]
    omega

theorem Groups.lt {bytes : List UInt8} {units : List Nat} (h : Groups bytes units) :
    ∀ u ∈ units, u < 0x10000 := by
  induction h with
  | nil => simp
  | cons hgroup _ ih => exact List.forall_mem_cons.2 ⟨hgroup.lt, ih⟩

/-- Bytes are split into groups exactly if they are groups one after the other. -/
theorem groupUnits?_eq_some_iff {bytes : List UInt8} {units : List Nat} :
    groupUnits? bytes = some units ↔ Groups bytes units := by
  constructor
  · intro h
    fun_induction groupUnits? bytes generalizing units with
    | case1 => exact Option.some.inj h ▸ .nil
    | case2 a rest ha ih =>
      obtain ⟨us, hus, h⟩ := Option.bind_eq_some_iff.1 h
      cases h
      exact .cons (group_one (by simpa [UInt8.lt_iff_toNat_lt] using ha)) (ih hus)
    | case4 a _ hlow hhigh b rest ih =>
      simp only [Option.bind_eq_bind, Option.bind_eq_some_iff] at h
      obtain ⟨x, hx, us, hus, h⟩ := h
      cases h
      exact .cons (group_two (by simpa [UInt8.lt_iff_toNat_lt] using hlow)
        (by simpa [UInt8.lt_iff_toNat_lt] using hhigh) hx) (ih hus)
    | case6 a _ _ hlow hhigh b b' rest ih =>
      simp only [Option.bind_eq_bind, Option.bind_eq_some_iff] at h
      obtain ⟨x, hx, y, hy, us, hus, h⟩ := h
      cases h
      exact .cons (group_three (by simpa [UInt8.lt_iff_toNat_lt] using hlow)
        (by simpa [UInt8.lt_iff_toNat_lt] using hhigh) hx hy) (ih hus)
    | case3 | case5 | case7 | case8 => cases h
  · intro h
    induction h with
    | nil => rfl
    | cons hgroup _ ih =>
      rw [hgroup.groupUnits?_append, ih]
      rfl

/-! ## Units -/

theorem utf16Units_of_lt {c : Char} (h : c.toNat < 0x10000) : utf16Units c = [c.toNat] := if_pos h

/-- A pair of surrogates stands for the supplementary character that is put together from it. -/
theorem utf16Units_of_pair {u v : Nat} {c : Char} (hu : isHighSurrogate u) (hv : isLowSurrogate v)
    (hc : c.toNat = 0x10000 + (u - 0xD800) * 0x400 + (v - 0xDC00)) : utf16Units c = [u, v] := by
  simp only [isHighSurrogate, isLowSurrogate, Bool.and_eq_true, decide_eq_true_eq] at hu hv
  rw [utf16Units, if_neg (by omega), hc]
  simp only [List.cons.injEq, and_true]
  omega

/-- Units that are read as a text are its units. -/
theorem eq_flatMap_of_utf16Decode? {units : List Nat} {cs : List Char}
    (hlt : ∀ u ∈ units, u < 0x10000) (h : utf16Decode? units = some cs) :
    units = cs.flatMap utf16Units := by
  fun_induction utf16Decode? units generalizing cs with
  | case1 => exact Option.some.inj h ▸ rfl
  | case2 u hu v rest hv ih =>
    simp only [Option.bind_eq_bind, Option.bind_eq_some_iff] at h
    obtain ⟨c, hc, ds, hds, h⟩ := h
    cases h
    have hrest := ih (fun w hw => hlt w (by simp [hw])) hds
    rw [List.flatMap_cons, utf16Units_of_pair hu hv (scalar?_eq_some_iff.1 hc).1, ← hrest]
    rfl
  | case5 u rest hu ih =>
    simp only [Option.bind_eq_bind, Option.bind_eq_some_iff] at h
    obtain ⟨c, hc, ds, hds, h⟩ := h
    cases h
    obtain ⟨rfl, -⟩ := scalar?_eq_some_iff.1 hc
    rw [List.forall_mem_cons] at hlt
    rw [List.flatMap_cons, utf16Units_of_lt hlt.1, ← ih hlt.2 hds]
    rfl
  | case3 | case4 => cases h

theorem paired_flatMap (cs : List Char) : Paired (cs.flatMap utf16Units) := by
  induction cs with
  | nil => exact .nil
  | cons c cs ih =>
    have hmax := toNat_lt_of_char c
    have hplain := not_surrogate c
    rw [List.flatMap_cons, utf16Units]
    split
    · refine .single ?_ ?_ ih <;> simp [isHighSurrogate, isLowSurrogate] <;> omega
    · refine .pair ?_ ?_ ih <;> simp [isHighSurrogate, isLowSurrogate] <;> omega

theorem exists_of_paired {units : List Nat} (hlt : ∀ u ∈ units, u < 0x10000) (h : Paired units) :
    ∃ cs : List Char, units = cs.flatMap utf16Units := by
  have hchar {n : Nat} (hn : n.isValidChar) : (Char.ofNat n).toNat = n :=
    (scalar?_eq_some_iff.1 (show scalar? 0 n = _ from if_pos ⟨hn, Nat.zero_le n⟩)).1
  induction h with
  | nil => exact ⟨[], rfl⟩
  | @single u rest hhigh hlow _ ih =>
    rw [List.forall_mem_cons] at hlt
    obtain ⟨cs, rfl⟩ := ih hlt.2
    have hvalid : u.isValidChar := by
      simp [isHighSurrogate, isLowSurrogate] at hhigh hlow
      unfold Nat.isValidChar
      omega
    refine ⟨Char.ofNat u :: cs, ?_⟩
    rw [List.flatMap_cons, utf16Units_of_lt (by rw [hchar hvalid]; exact hlt.1), hchar hvalid]
    rfl
  | @pair u v rest hu hv _ ih =>
    obtain ⟨cs, rfl⟩ := ih fun w hw => hlt w (by simp [hw])
    have hvalid : (0x10000 + (u - 0xD800) * 0x400 + (v - 0xDC00)).isValidChar := by
      simp [isHighSurrogate, isLowSurrogate] at hu hv
      unfold Nat.isValidChar
      omega
    refine ⟨Char.ofNat (0x10000 + (u - 0xD800) * 0x400 + (v - 0xDC00)) :: cs, ?_⟩
    rw [List.flatMap_cons, utf16Units_of_pair hu hv (hchar hvalid)]
    rfl

/-! ## Both forms -/

theorem modifiedUnitsDecode?_eq_some_iff {bytes : List UInt8} {cs : List Char} :
    modifiedUnitsDecode? bytes = some cs ↔ Groups bytes (cs.flatMap utf16Units) := by
  rw [modifiedUnitsDecode?, Option.bind_eq_some_iff]
  constructor
  · rintro ⟨units, hunits, hcs⟩
    rw [groupUnits?_eq_some_iff] at hunits
    rwa [← eq_flatMap_of_utf16Decode? hunits.lt hcs]
  · intro h
    exact ⟨_, groupUnits?_eq_some_iff.2 h, utf16Decode?_flatMap cs⟩

/-- A character that takes up to three bytes in plain UTF-8 is one group there. -/
theorem group_utf8EncodeChar {c : Char} (h : c.toNat < 0x10000) :
    Group (String.utf8EncodeChar c) c.toNat := by
  by_cases hzero : c.toNat = 0
  · rw [utf8EncodeChar_eq, if_pos (by omega)]
    have ha := toNat_ofNat_of_lt (n := c.toNat) (by omega)
    have hone := group_one (a := UInt8.ofNat c.toNat) (by omega)
    rwa [ha] at hone
  · rw [← flatMap_unitBytes_eq hzero h, utf16Units_of_lt h, List.flatMap_singleton]
    exact group_unitBytes h

theorem groups_utf8Encode {cs : List Char} (h : ∀ c ∈ cs, c.toNat < 0x10000) :
    Groups (utf8Encode cs) (cs.flatMap utf16Units) := by
  induction cs with
  | nil => exact .nil
  | cons c cs ih =>
    rw [List.forall_mem_cons] at h
    rw [utf8Encode, List.flatMap_cons, List.flatMap_cons, utf16Units_of_lt h.1]
    exact .cons (group_utf8EncodeChar h.1) (ih h.2)

theorem lt_of_length_utf8EncodeChar {c : Char} (h : (String.utf8EncodeChar c).length ≠ 4) :
    c.toNat < 0x10000 := by
  refine Nat.lt_of_not_le fun hlarge => h ?_
  rw [utf8EncodeChar_eq, if_neg (by omega), if_neg (by omega), if_neg (by omega)]
  rfl

/-- The reader undoes both ways of writing. It accepts exactly plain UTF-8 and what falls into
groups whose units are paired, and what is both reads the same: a text whose characters take up to
three bytes each in plain UTF-8 is read by the variant's reader alike. -/
theorem modifiedDecode?_exact :
    (∀ cs, modifiedDecode? (modifiedEncode cs) = some cs ∧
      modifiedDecode? (utf8Encode cs) = some cs) ∧
    (∀ bytes, (modifiedDecode? bytes).isSome ↔
      (∃ cs, bytes = utf8Encode cs) ∨ ∃ units, Groups bytes units ∧ Paired units) ∧
    (∀ bytes cs, (¬∃ ds, bytes = utf8Encode ds) →
      (modifiedDecode? bytes = some cs ↔ Groups bytes (cs.flatMap utf16Units))) ∧
    (∀ bytes cs, bytes = utf8Encode cs → (∀ c ∈ cs, (String.utf8EncodeChar c).length ≠ 4) →
      modifiedUnitsDecode? bytes = some cs ∧ utf8Decode? bytes = some cs) := by
  refine ⟨fun cs => ⟨modifiedDecode?_modifiedEncode cs, modifiedDecode?_utf8Encode cs⟩, ?_, ?_, ?_⟩
  · intro bytes
    have hfast : (utf8Decode? bytes).isSome ↔ ∃ cs, bytes = utf8Encode cs := by
      simp only [Option.isSome_iff_exists, utf8Decode?_eq_some_iff]
    have hslow : (modifiedUnitsDecode? bytes).isSome ↔
        ∃ units, Groups bytes units ∧ Paired units := by
      simp only [Option.isSome_iff_exists, modifiedUnitsDecode?_eq_some_iff]
      constructor
      · rintro ⟨cs, h⟩
        exact ⟨_, h, paired_flatMap cs⟩
      · rintro ⟨units, h, hpaired⟩
        obtain ⟨cs, rfl⟩ := exists_of_paired h.lt hpaired
        exact ⟨cs, h⟩
    rw [modifiedDecode?, Option.isSome_or, Bool.or_eq_true, hfast, hslow]
  · intro bytes cs hplain
    have hnone : utf8Decode? bytes = none :=
      Option.eq_none_iff_forall_ne_some.2 fun ds h => hplain ⟨ds, utf8Decode?_eq_some_iff.1 h⟩
    rw [modifiedDecode?, hnone, Option.none_or, modifiedUnitsDecode?_eq_some_iff]
  · rintro bytes cs rfl hshort
    have hgroups := groups_utf8Encode fun c hc => lt_of_length_utf8EncodeChar (hshort c hc)
    exact ⟨modifiedUnitsDecode?_eq_some_iff.2 hgroups, utf8Decode?_utf8Encode cs⟩

/-- NUL in two bytes and a pair of surrogates are no plain UTF-8, but groups; characters of one, two
and three bytes are both. -/
theorem modifiedDecode?_exact_surrogates :
    (¬∃ ds, [0xC0, 0x80, 0xED, 0xA0, 0xBD, 0xED, 0xB8, 0x80] = utf8Encode ds) ∧
      Groups [0xC0, 0x80, 0xED, 0xA0, 0xBD, 0xED, 0xB8, 0x80]
        ([Char.ofNat 0, Char.ofNat 0x1F600].flatMap utf16Units) ∧
      (∀ c ∈ ['a', '\u00e9', '\u20ac'], (String.utf8EncodeChar c).length ≠ 4) ∧
      modifiedUnitsDecode? [0x61, 0xC3, 0xA9, 0xE2, 0x82, 0xAC] = some ['a', '\u00e9', '\u20ac'] ∧
      utf8Decode? [0x61, 0xC3, 0xA9, 0xE2, 0x82, 0xAC] = some ['a', '\u00e9', '\u20ac'] := by
  obtain ⟨-, -, hvariant, hboth⟩ := modifiedDecode?_exact
  have hplain : ¬∃ ds, [0xC0, 0x80, 0xED, 0xA0, 0xBD, 0xED, 0xB8, 0x80] = utf8Encode ds := by
    rintro ⟨ds, hds⟩
    have hnone : utf8Decode? [0xC0, 0x80, 0xED, 0xA0, 0xBD, 0xED, 0xB8, 0x80] = none := by
      decide +kernel
    rw [hds, utf8Decode?_utf8Encode] at hnone
    cases hnone
  have hshort : ∀ c ∈ ['a', '\u00e9', '\u20ac'], (String.utf8EncodeChar c).length ≠ 4 := by
    simp [String.utf8EncodeChar]
  exact ⟨hplain, (hvariant _ _ hplain).1 (by decide +kernel), hshort,
    hboth _ _ (by decide +kernel) hshort⟩

end ClassAtlas.Text
