import ClassAtlas.Proofs.Binary.Skipped
import ClassAtlas.Proofs.Extraction.Operands
import ClassAtlas.Proofs.Pool.Exactness
import ClassAtlas.Proofs.Text.Boundaries
import ClassAtlas.Proofs.Text.Exactness

/-!
# Sizes in class files

Two bytes say how many interfaces, attributes or declared exceptions follow, and how many bytes a
text takes. So none of these numbers is larger than 65535 in a class file that was decoded, and no
text has more characters than that.

## Main definitions

* `Decoder.Ensures` is a postcondition on the values that a decoder gives.
* `Pool.HasShortTexts`, `Member.IsSized` and `ClassFile.IsSized` say that the sizes are kept.

## Main results

* `CompiledUnit.isSized_of_decode`: they are in every unit that was decoded.
* `Member.IsSized.length_exceptionIndices_le`: the number of exceptions that a method declares.
-/

namespace ClassAtlas

/-! ## Characters and bytes -/

namespace Text

theorem Groups.length_le {bytes : List UInt8} {units : List Nat} (h : Groups bytes units) :
    units.length ≤ bytes.length := by
  induction h with
  | nil => exact Nat.le_refl 0
  | @cons group rest u units hgroup _ ih =>
    have hpos : 0 < group.length := by cases hgroup <;> exact Nat.succ_pos _
    rw [List.length_append, List.length_cons]
    omega

theorem length_le_flatMap_utf16Units (cs : List Char) :
    cs.length ≤ (cs.flatMap utf16Units).length := by
  induction cs with
  | nil => exact Nat.le_refl 0
  | cons c cs ih =>
    have hpos : 0 < (utf16Units c).length := by
      rw [utf16Units]
      split <;> exact Nat.succ_pos _
    rw [List.flatMap_cons, List.length_append, List.length_cons]
    omega

/-- Every character of a text is read from at least one byte. -/
theorem length_le_of_modifiedDecode? {bytes : List UInt8} {cs : List Char}
    (h : modifiedDecode? bytes = some cs) : cs.length ≤ bytes.length := by
  rw [modifiedDecode?, Option.or_eq_some_iff] at h
  rcases h with hplain | ⟨-, hvariant⟩
  · rw [utf8Decode?_eq_some_iff.1 hplain, length_utf8Encode]
    exact length_le_utf8Length cs
  · exact Nat.le_trans (length_le_flatMap_utf16Units cs)
      (modifiedUnitsDecode?_eq_some_iff.1 hvariant).length_le

end Text

/-! ## Postconditions -/

namespace Decoder

variable {α β : Type} {d : Decoder α} {P Q : α → Prop} {R : β → Prop}

/-- Whatever the decoder gives has the property. -/
def Ensures (d : Decoder α) (P : α → Prop) : Prop := ∀ r a r', d r = .ok (a, r') → P a

theorem ensures_true (d : Decoder α) : d.Ensures fun _ => True := fun _ _ _ _ => trivial

theorem Ensures.imp (hd : d.Ensures P) (hPQ : ∀ a, P a → Q a) : d.Ensures Q :=
  fun r a r' hrun => hPQ a (hd r a r' hrun)

theorem ensures_pure {a : α} (h : P a) : (pure a : Decoder α).Ensures P := by
  intro r b r' hrun
  cases hrun
  exact h

theorem ensures_fail (fault : FormatFault) : (fail fault : Decoder α).Ensures P := by
  intro r a r' hrun
  cases hrun

theorem Ensures.bind {f : α → Decoder β} (hd : d.Ensures P) (hf : ∀ a, P a → (f a).Ensures R) :
    (d >>= f).Ensures R := by
  intro r b r' hrun
  obtain ⟨a, s, ha, hb⟩ := stateBind_eq_ok_iff.1 hrun
  exact hf a (hd r a s ha) s b r' hb

/-- A first step that does not matter. -/
theorem Ensures.after {f : α → Decoder β} (hf : ∀ a, (f a).Ensures R) : (d >>= f).Ensures R :=
  (ensures_true d).bind fun a _ => hf a

theorem Ensures.map {f : α → β} (hd : d.Ensures P) (hf : ∀ a, P a → R (f a)) :
    (f <$> d).Ensures R := hd.bind fun a ha => ensures_pure (hf a ha)

theorem ensures_fail_bind (fault : FormatFault) (f : α → Decoder β) :
    (fail fault >>= f).Ensures R := by
  intro r b r' hrun
  cases hrun

theorem ensures_ofExcept {result : Except DecodeError α} (h : ∀ a, result = .ok a → P a) :
    (ofExcept result).Ensures P := by
  intro r a r' hrun
  cases result with
  | error e => cases hrun
  | ok b =>
    cases hrun
    exact h a rfl

theorem ensures_within {inner : Reader} (h : d.Ensures P) :
    (within inner d).Ensures fun p => P p.1 := by
  rintro r ⟨a, left⟩ r' hrun
  exact h inner a left (within_eq_ok_iff.1 hrun).1

theorem ensures_replicate (hd : d.Ensures P) (n : Nat) :
    (replicate d n).Ensures fun l => l.length = n ∧ ∀ a ∈ l, P a := by
  induction n with
  | zero => exact ensures_pure ⟨rfl, List.forall_mem_nil P⟩
  | succ n ih =>
    refine hd.bind fun a ha => ih.map fun l hl => ?_
    exact ⟨congrArg (· + 1) hl.1, List.forall_mem_cons.2 ⟨ha, hl.2⟩⟩

/-- The number of values is one that two bytes can say. -/
theorem ensures_counted (hd : d.Ensures P) :
    (counted d).Ensures fun l => l.length ≤ 65535 ∧ ∀ a ∈ l, P a := by
  refine Ensures.after fun n => (ensures_replicate hd n.toNat).imp fun l hl => ⟨?_, hl.2⟩
  have hlt := n.toNat_lt
  omega

theorem Ensures.of_run' (hd : d.Ensures P) {r : Reader} {a : α} (h : d.run' r = .ok a) : P a := by
  obtain ⟨p, hp, rfl⟩ := exists_of_map_eq_ok h
  exact hd r p.1 p.2 hp

end Decoder

open Decoder

/-! ## Texts of a pool -/

/-- No text of the pool has more characters than two bytes can say. -/
def Pool.HasShortTexts (pool : Pool) : Prop :=
  ∀ i text, pool.utf8 i = .ok text → text.toList.length ≤ 65535

/-- A text that was read from a record of it is short. -/
theorem PoolEntry.IsRecord.length_le {numbered : Nat × PoolEntry} {record : List UInt8}
    (h : IsRecord numbered record) (text : String) (htext : numbered.2 = .utf8 text) :
    text.toList.length ≤ 65535 := by
  obtain ⟨e, hrun, rfl⟩ := h 0 0 []
  obtain ⟨-, -, -, -, write, hwritable, -⟩ := passes_decode _ _ _ _ hrun
  rw [htext] at hwritable
  exact Nat.le_trans (Text.length_le_of_modifiedDecode? hwritable.2) hwritable.1

theorem PoolHeader.hasShortTexts_of_decode {bytes : List UInt8} {header : PoolHeader}
    (h : decode bytes = .ok header) : header.pool.HasShortTexts := by
  intro i text htext
  obtain ⟨entries, records, rest, hpool, -, -, -, hrecords⟩ := exists_of_decode h
  have hentry : (i.toNat, .utf8 text) ∈ Pool.number 1 entries := by
    rw [← Pool.entries_ofEntries, ← hpool]
    exact Pool.get_eq_ok_iff.1 (Pool.get_of_utf8 htext)
  have hshort : ∀ numbered ∈ Pool.number 1 entries, ∀ text, numbered.2 = .utf8 text →
      text.toList.length ≤ 65535 :=
    ((List.forall₂_and_left _ _).1 (hrecords.imp fun _ _ hrecord =>
      ⟨hrecord.length_le, hrecord⟩)).1
  exact hshort _ hentry text rfl

/-! ## Attributes -/

/-- The list of exceptions or the text of the signature in the attribute is no longer than two bytes
can say. -/
def Attribute.IsSized : Attribute → Prop
  | .exceptions classes => classes.length ≤ 65535
  | .signature text => text.toList.length ≤ 65535
  | _ => True

/-- There are no more attributes than two bytes can say, and each of them is sized. -/
structure SizedAttributes (attributes : List Attribute) : Prop where
  length_le : attributes.length ≤ 65535
  isSized : ∀ a ∈ attributes, a.IsSized

theorem ensures_attributeWith {α : Type} {pool : Pool} {content? : String → Option (Decoder α)}
    {other : String → UInt32 → α} {P : α → Prop}
    (hcontent : ∀ name, ∀ d ∈ content? name, d.Ensures P)
    (hother : ∀ name length, P (other name length)) :
    (attributeWith pool content? other).Ensures P := by
  refine Ensures.after fun _ => Ensures.after fun name => Ensures.after fun length =>
    Ensures.after fun body => ?_
  split
  · exact ensures_pure (hother name length)
  · next content hname =>
    refine (ensures_within (hcontent name content hname)).bind fun p hp => ?_
    dsimp only
    split
    · exact ensures_fail_bind _ _
    · exact ensures_pure hp

namespace Attribute

theorem ensures_content? {pool : Pool} (hpool : pool.HasShortTexts) (place : Place)
    (name : String) : ∀ d ∈ content? pool place name, d.Ensures IsSized := by
  intro d hd
  unfold content? at hd
  split at hd <;> cases hd
  case h_2 => exact (ensures_counted (ensures_true _)).map fun _ h => h.1
  case h_3 =>
    refine Ensures.map (P := fun text => text.toList.length ≤ 65535) ?_ fun _ h => h
    exact Ensures.after fun i => ensures_ofExcept fun text => hpool i text
  case h_1 | h_4 | h_5 | h_6 | h_7 | h_8 | h_9 | h_10 =>
    exact (ensures_true _).map fun _ _ => trivial

theorem ensures_decodeAll {pool : Pool} (hpool : pool.HasShortTexts) (place : Place) :
    (decodeAll pool place).Ensures SizedAttributes := by
  have hone : (attributeWith pool (content? pool place) .other).Ensures IsSized :=
    ensures_attributeWith (ensures_content? hpool place) fun _ _ => trivial
  exact (ensures_counted hone).imp fun l hl => ⟨hl.1, hl.2⟩

end Attribute

theorem SizedAttributes.length_signature_le {attributes : List Attribute}
    (h : SizedAttributes attributes) {text : String} (htext : signatureOf? attributes = some text) :
    text.toList.length ≤ 65535 := by
  obtain ⟨a, ha, heq⟩ := List.exists_of_findSome?_eq_some htext
  cases a with
  | signature text' =>
    cases heq
    exact h.isSized _ ha
  | _ => cases heq

/-! ## Members and classes -/

/-- The descriptor of the member and its attributes are within the sizes. -/
structure Member.IsSized (m : Member) : Prop where
  length_descriptor_le : m.descriptor.toList.length ≤ 65535
  attributes : SizedAttributes m.attributes

theorem length_flatMap_le {α β : Type} {f : α → List β} {n : Nat} {l : List α}
    (h : ∀ a ∈ l, (f a).length ≤ n) : (l.flatMap f).length ≤ l.length * n := by
  induction l with
  | nil => exact Nat.zero_le _
  | cons a l ih =>
    obtain ⟨ha, hl⟩ := List.forall_mem_cons.1 h
    have hrest := ih hl
    rw [List.flatMap_cons, List.length_append, List.length_cons, Nat.succ_mul]
    omega

/-- A method declares at most as many exceptions as fit into as many attributes as it can have. -/
theorem Member.IsSized.length_exceptionIndices_le {m : Member} (h : m.IsSized) :
    (Extract.exceptionIndices m).length ≤ 65535 * 65535 := by
  refine Nat.le_trans (length_flatMap_le fun a ha => ?_)
    (Nat.mul_le_mul_right 65535 h.attributes.length_le)
  cases a with
  | exceptions classes => exact h.attributes.isSized _ ha
  | _ => exact Nat.zero_le _

theorem Member.ensures_decode {pool : Pool} (hpool : pool.HasShortTexts) (place : Place) :
    (Member.decode pool place).Ensures Member.IsSized := by
  refine Ensures.after fun accessFlags => Ensures.after fun _ => Ensures.after fun name =>
    Ensures.after fun i => ?_
  refine (ensures_ofExcept fun text => hpool i text).bind fun descriptor hlength => ?_
  exact (Attribute.ensures_decodeAll hpool place).map fun attributes hattributes =>
    ⟨hlength, hattributes⟩

/-- The interfaces of the class, its members and its attributes are within the sizes. -/
structure ClassFile.IsSized (c : ClassFile) : Prop where
  length_interfaces_le : c.interfaces.length ≤ 65535
  fields : ∀ m ∈ c.fields, m.IsSized
  methods : ∀ m ∈ c.methods, m.IsSized
  attributes : SizedAttributes c.attributes

theorem ClassFile.ensures_decoder {pool : Pool} (hpool : pool.HasShortTexts) :
    (decoder pool).Ensures IsSized := by
  refine Ensures.after fun accessFlags => Ensures.after fun thisClass =>
    Ensures.after fun superclass => ?_
  refine (ensures_counted (ensures_true _)).bind fun interfaces hinterfaces => ?_
  refine (ensures_counted (Member.ensures_decode hpool .onField)).bind fun fields hfields => ?_
  refine (ensures_counted (Member.ensures_decode hpool .onMethod)).bind fun methods hmethods => ?_
  exact (Attribute.ensures_decodeAll hpool .onClass).map fun attributes hattributes =>
    ⟨hinterfaces.1, hfields.2, hmethods.2, hattributes⟩

/-- A unit that was decoded is within the sizes. -/
theorem CompiledUnit.isSized_of_decode {raw : List UInt8} {u : CompiledUnit}
    (h : decode raw = .ok u) : u.classFile.IsSized := by
  obtain ⟨header, hheader, h⟩ := exists_of_bind_eq_ok h
  obtain ⟨file, hfile, h⟩ := exists_of_bind_eq_ok h
  cases h
  rw [ClassFile.decodeAt] at hfile
  split at hfile
  · cases hfile
  · exact (ClassFile.ensures_decoder (PoolHeader.hasShortTexts_of_decode hheader)).of_run' hfile

end ClassAtlas
