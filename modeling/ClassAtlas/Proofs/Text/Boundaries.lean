import ClassAtlas.Descriptor.Cursor
import ClassAtlas.Proofs.Descriptor.Scanning
import ClassAtlas.Proofs.Text.Utf8

/-!
# Characters in the bytes of a text

The bytes of a text are those of its characters one behind the other, so a position behind some of
the characters is one between two characters. Below 128 a byte is a character of its own; all the
bytes of any other character are 128 or more.

## Main definitions

* `Text.bytes` are the bytes of a text.
* `Text.codeOf` is the character that has the number of a byte.
-/

namespace ClassAtlas.Text

/-- The bytes of a text in UTF-8. -/
def bytes (text : String) : List UInt8 := text.toByteArray.data.toList

/-- The character that has the number of a byte. -/
def codeOf (b : UInt8) : Char := Char.ofNat b.toNat

/-- The first byte of a character. -/
def lead (c : Char) : UInt8 := UInt8.ofNat (leadByte c)

/-! ## The bytes of a text -/

theorem utf8Encode_append (cs ds : List Char) :
    utf8Encode (cs ++ ds) = utf8Encode cs ++ utf8Encode ds := List.flatMap_append

theorem utf8Length_cons (c : Char) (cs : List Char) :
    utf8Length (c :: cs) = c.utf8Size + utf8Length cs := rfl

theorem length_utf8Encode (cs : List Char) : (utf8Encode cs).length = utf8Length cs := by
  induction cs with
  | nil => rfl
  | cons c cs ih =>
    rw [utf8Encode, List.flatMap_cons, List.length_append, String.length_utf8EncodeChar, ← utf8Encode,
      ih, utf8Length_cons]

theorem length_le_utf8Length (cs : List Char) : cs.length ≤ utf8Length cs := by
  induction cs with
  | nil => exact Nat.le_refl 0
  | cons c cs ih =>
    have hsize := c.utf8Size_pos
    rw [utf8Length_cons, List.length_cons]
    omega

theorem bytes_eq_utf8Encode (text : String) : bytes text = utf8Encode text.toList := by
  have hbytes : text.toByteArray = (utf8Encode text.toList).toByteArray := by
    rw [← String.ofList_toList (s := text), String.toByteArray_ofList, String.ofList_toList]
    rfl
  rw [bytes, hbytes, List.toList_data_toByteArray]

theorem length_bytes (text : String) : (bytes text).length = text.utf8ByteSize := Array.length_toList

theorem isValid_of_toList_eq {text : String} {before after : List Char}
    (h : text.toList = before ++ after) : String.Pos.Raw.IsValid text ⟨utf8Length before⟩ := by
  have htext : text = String.ofList before ++ String.ofList after := by
    rw [← String.ofList_append, ← h, String.ofList_toList]
  have hend : (⟨utf8Length before⟩ : String.Pos.Raw) = (String.ofList before).rawEndPos := by
    rw [String.rawEndPos, ← length_bytes, bytes_eq_utf8Encode, String.toList_ofList, length_utf8Encode]
  rw [htext, hend]
  exact String.Pos.Raw.isValid_rawEndPos.append_right _

/-! ## The bytes of a character -/

theorem toNat_codeOf (b : UInt8) : (codeOf b).toNat = b.toNat := by
  have hb := b.toNat_lt
  have hvalid : b.toNat.isValidChar := .inl (by omega)
  rw [codeOf, Char.ofNat, dif_pos hvalid]
  rfl

theorem toNat_lead (c : Char) : (lead c).toNat = leadByte c := by
  have hmax := toNat_lt_of_char c
  refine toNat_ofNat_of_lt ?_
  grind [leadByte]

theorem exists_utf8EncodeChar_eq (c : Char) : ∃ others, String.utf8EncodeChar c = lead c :: others := by
  have hmax := toNat_lt_of_char c
  have hlead : leadByte c = if c.toNat ≤ 0x7f then c.toNat
      else if c.toNat ≤ 0x7ff then c.toNat / 64 % 32 + 192
      else if c.toNat ≤ 0xffff then c.toNat / 4096 % 16 + 224
      else c.toNat / 262144 % 8 + 240 := by
    rw [leadByte]
    grind
  rw [utf8EncodeChar_eq, lead, hlead]
  split
  · exact ⟨_, rfl⟩
  · split
    · exact ⟨_, rfl⟩
    · split <;> exact ⟨_, rfl⟩

theorem utf8EncodeChar_of_lt {c : Char} (h : c.toNat < 128) : String.utf8EncodeChar c = [lead c] := by
  rw [utf8EncodeChar_eq, if_pos (by omega), lead, leadByte, if_pos h]

theorem utf8Length_eq_length {cs : List Char} (h : ∀ c ∈ cs, c.toNat < 128) :
    utf8Length cs = cs.length := by
  induction cs with
  | nil => rfl
  | cons c cs ih =>
    rw [List.forall_mem_cons] at h
    have hsize : c.utf8Size = 1 := by
      rw [← String.length_utf8EncodeChar, utf8EncodeChar_of_lt h.1]
      rfl
    rw [utf8Length_cons, hsize, ih h.2, List.length_cons, Nat.add_comm]

theorem le_of_mem_utf8EncodeChar {c : Char} (h : 128 ≤ c.toNat) :
    ∀ b ∈ String.utf8EncodeChar c, 128 ≤ b.toNat := by
  have hmax := toNat_lt_of_char c
  rw [utf8EncodeChar_eq, if_neg (by omega)]
  have hbyte {n : Nat} (hn : 128 ≤ n) (hn' : n < 256) : 128 ≤ (UInt8.ofNat n).toNat := by
    rwa [toNat_ofNat_of_lt hn']
  split
  · simp only [List.forall_mem_cons, List.not_mem_nil, false_implies, implies_true, and_true]
    exact ⟨hbyte (by omega) (by omega), hbyte (by omega) (by omega)⟩
  · split
    · simp only [List.forall_mem_cons, List.not_mem_nil, false_implies, implies_true, and_true]
      exact ⟨hbyte (by omega) (by omega), hbyte (by omega) (by omega), hbyte (by omega) (by omega)⟩
    · simp only [List.forall_mem_cons, List.not_mem_nil, false_implies, implies_true, and_true]
      exact ⟨hbyte (by omega) (by omega), hbyte (by omega) (by omega), hbyte (by omega) (by omega),
        hbyte (by omega) (by omega)⟩

theorem le_leadByte {c : Char} (h : 128 ≤ c.toNat) : 128 ≤ leadByte c := by
  obtain ⟨others, heq⟩ := exists_utf8EncodeChar_eq c
  rw [← toNat_lead]
  exact le_of_mem_utf8EncodeChar h _ (by rw [heq]; exact List.mem_cons_self)

/-- A byte below 128 is a character of its own. -/
theorem codeOf_lead_eq_iff {a c : Char} (ha : a.toNat < 128) : codeOf (lead c) = a ↔ c = a := by
  rw [← Char.toNat_inj, toNat_codeOf, toNat_lead]
  rcases Nat.lt_or_ge c.toNat 128 with hlt | hge
  · rw [leadByte, if_pos hlt, Char.toNat_inj]
  · have hlead := le_leadByte hge
    constructor
    · intro h
      omega
    · rintro rfl
      omega

theorem codeOf_lead_of_lt {c : Char} (h : c.toNat < 128) : codeOf (lead c) = c :=
  (codeOf_lead_eq_iff h).2 rfl

/-! ## Leading parts -/

/-- The leading bytes that pass a test are the bytes of the leading characters that pass one, if the
two tests agree on every character. -/
theorem takeWhile_utf8Encode {p : Char → Bool} {q : UInt8 → Bool}
    (hpos : ∀ c, p c = true → ∀ b ∈ String.utf8EncodeChar c, q b = true)
    (hneg : ∀ c, p c = false → q (lead c) = false) (cs : List Char) :
    (utf8Encode cs).takeWhile q = utf8Encode (cs.takeWhile p) := by
  induction cs with
  | nil => rfl
  | cons c cs ih =>
    have hcons (ds : List Char) : utf8Encode (c :: ds) = String.utf8EncodeChar c ++ utf8Encode ds :=
      List.flatMap_cons
    rw [hcons]
    cases hp : p c with
    | true =>
      rw [List.takeWhile_append_of_pos (hpos c hp), ih, List.takeWhile_cons_of_pos hp, hcons]
    | false =>
      obtain ⟨others, heq⟩ := exists_utf8EncodeChar_eq c
      rw [heq, List.cons_append, List.takeWhile_cons_of_neg (by simp [hneg c hp]),
        List.takeWhile_cons_of_neg (by simp [hp])]
      rfl

end ClassAtlas.Text
