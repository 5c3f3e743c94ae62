import ClassAtlas.ClassFile.Decode
import ClassAtlas.Extraction.Operand
import ClassAtlas.Proofs.Binary.Offsets

/-!
# Offsets in class files

Every decoder of a part of a class file is located: where the file ends too early the error has an
offset in the file, and a body of code stands at the offset that is kept with it.

## Main statements

* `CompiledUnit.failsIn_decode` is about the errors of decoding.
* `CompiledUnit.standsIn_of_decode` is about the bodies of code in a unit that was decoded.
-/

namespace ClassAtlas

open Decoder

variable {raw : List UInt8}

/-! ## Look-ups in the pool -/

namespace Pool

variable (pool : Pool) (index : UInt16)

theorem failsIn_mismatch {α : Type} (wanted : Wanted) (entry : PoolEntry) :
    FailsIn raw (mismatch index wanted entry : Except DecodeError α) := failsIn_error trivial

theorem failsIn_get : FailsIn raw (pool.get index) := by
  rw [get]
  split
  · exact failsIn_ok _
  · exact failsIn_error trivial
  · exact failsIn_error trivial

theorem failsIn_utf8 : FailsIn raw (pool.utf8 index) := by
  refine (pool.failsIn_get index).bind fun entry _ => ?_
  split
  · exact failsIn_ok _
  · exact failsIn_mismatch _ _ _

theorem failsIn_className : FailsIn raw (pool.className index) := by
  refine (pool.failsIn_get index).bind fun entry _ => ?_
  split
  · exact pool.failsIn_utf8 _
  · exact failsIn_mismatch _ _ _

theorem failsIn_nameAndType : FailsIn raw (pool.nameAndType index) := by
  refine (pool.failsIn_get index).bind fun entry _ => ?_
  split
  · exact (pool.failsIn_utf8 _).bind fun _ _ => (pool.failsIn_utf8 _).bind fun _ _ => failsIn_ok _
  · exact failsIn_mismatch _ _ _

theorem failsIn_resolveMember (kind : MemberKind) (owner nameAndType : UInt16) :
    FailsIn raw (pool.resolveMember kind owner nameAndType) :=
  (pool.failsIn_className owner).bind fun _ _ =>
    (pool.failsIn_nameAndType nameAndType).bind fun _ _ => failsIn_ok _

theorem failsIn_memberRef : FailsIn raw (pool.memberRef index) := by
  refine (pool.failsIn_get index).bind fun entry _ => ?_
  split
  · exact pool.failsIn_resolveMember _ _ _
  · exact pool.failsIn_resolveMember _ _ _
  · exact pool.failsIn_resolveMember _ _ _
  · exact failsIn_mismatch _ _ _

theorem failsIn_memberOwner (accepted : List MemberKind) (wanted : Wanted) :
    FailsIn raw (pool.memberOwner index accepted wanted) := by
  refine (pool.failsIn_memberRef index).bind fun member _ => ?_
  split
  · exact failsIn_ok _
  · exact (pool.failsIn_get index).bind fun _ _ => failsIn_mismatch _ _ _

theorem failsIn_loadedClass? (entry : PoolEntry) : FailsIn raw (pool.loadedClass? index entry) := by
  cases entry with
  | classEntry => exact (pool.failsIn_className index).map some
  | methodHandle _ reference => exact (pool.failsIn_memberRef reference).map _
  | integer | float | long | double | string | methodType | dynamic => exact failsIn_ok _
  | utf8 | fieldRef | methodRef | interfaceMethodRef | nameAndType | invokeDynamic | module
    | package => exact failsIn_mismatch _ _ _

theorem failsIn_operandClass? (ref : InstructionRef) : FailsIn raw (pool.operandClass? ref) := by
  have howner (accepted : List MemberKind) (wanted : Wanted) :
      FailsIn raw (do return some (← pool.memberOwner ref.index accepted wanted)) :=
    (pool.failsIn_memberOwner ref.index accepted wanted).bind fun _ _ => failsIn_ok _
  refine (pool.failsIn_get ref.index).bind fun entry _ => ?_
  split
  case h_1 | h_2 | h_3 => exact pool.failsIn_loadedClass? ref.index entry
  case h_4 | h_5 | h_6 | h_7 | h_8 | h_9 | h_10 | h_11 => exact howner _ _
  case h_12 =>
    split
    · exact failsIn_ok none
    · exact failsIn_mismatch _ _ _
  case h_13 => exact (pool.failsIn_className ref.index).bind fun _ _ => failsIn_ok _

end Pool

/-! ## The constant pool -/

theorem PoolEntry.located_body (tag : UInt8) (index offset : Nat) :
    (body tag index offset).Located raw fun _ => True := by
  have hpair (f : UInt16 → UInt16 → PoolEntry) :
      (do return f (← uint16) (← uint16) : Decoder PoolEntry).Located raw fun _ => True :=
    located_uint16.bind fun _ _ => located_uint16.map fun _ _ => trivial
  unfold body
  split
  · refine located_uint16.bind fun n _ => (located_take _).bind fun bytes _ => ?_
    split
    · exact located_pure trivial
    · exact located_fail _
  · exact located_int32.map fun _ _ => trivial
  · exact located_uint32.map fun _ _ => trivial
  · exact located_int64.map fun _ _ => trivial
  · exact located_uint64.map fun _ _ => trivial
  · exact located_uint16.map fun _ _ => trivial
  · exact located_uint16.map fun _ _ => trivial
  · exact hpair _
  · exact hpair _
  · exact hpair _
  · exact hpair _
  · exact located_uint8.bind fun _ _ => located_uint16.map fun _ _ => trivial
  · exact located_uint16.map fun _ _ => trivial
  · exact hpair _
  · exact hpair _
  · exact located_uint16.map fun _ _ => trivial
  · exact located_uint16.map fun _ _ => trivial
  · exact located_fail _

theorem PoolEntry.located_decode (index : Nat) : (decode index).Located raw fun _ => True :=
  located_position.bind fun _ _ => located_uint8.bind fun _ _ => located_body _ _ _

theorem Pool.located_decodeSlots (index left : Nat) :
    (decodeSlots index left).Located raw fun _ => True := by
  fun_induction decodeSlots index left with
  | case1 => exact located_pure trivial
  | case2 index left ihWide ih =>
    refine (PoolEntry.located_decode index).bind fun entry _ => ?_
    split
    · cases left with
      | zero => exact located_fail _
      | succ left => exact ihWide.bind fun _ _ => located_pure trivial
    · exact ih.bind fun _ _ => located_pure trivial

theorem Pool.located_decode : Pool.decode.Located raw fun _ => True := by
  refine located_uint16.bind fun n _ => located_ite (located_fail_bind _ _) ?_
  exact (located_decodeSlots _ _).bind fun _ _ => located_pure trivial

theorem PoolHeader.located_decoder : PoolHeader.decoder.Located raw fun _ => True := by
  refine located_uint32.bind fun magic _ => located_ite (located_fail_bind _ _) ?_
  refine located_uint16.bind fun minor _ => located_uint16.bind fun major _ => ?_
  refine located_ite (located_fail_bind _ _) ?_
  exact Pool.located_decode.bind fun _ _ => located_position.bind fun _ _ => located_pure trivial

/-! ## Annotations -/

theorem ElementValue.located_elements {value : Decoder ElementValue}
    (h : value.Located raw fun _ => True) : (elements value).Located raw fun _ => True :=
  (located_counted (located_uint16.bind fun _ _ => h.bind fun _ _ =>
    located_pure (P := fun _ => True) trivial)).imp fun _ _ => trivial

theorem ElementValue.located_body {inner : Decoder ElementValue}
    (h : inner.Located raw fun _ => True) (tag : UInt8) (offset : Nat) :
    (body inner tag offset).Located raw fun _ => True := by
  refine located_ite (located_uint16.map fun _ _ => trivial) ?_
  split
  · exact located_uint16.bind fun _ _ => located_uint16.map fun _ _ => trivial
  · exact located_uint16.map fun _ _ => trivial
  · exact located_uint16.bind fun _ _ => (located_elements h).map fun _ _ => trivial
  · exact (located_counted h).map fun _ _ => trivial
  · exact located_fail _

/-- By induction on the levels of nesting that are left. -/
theorem ElementValue.located_decode (levels : Nat) : (decode levels).Located raw fun _ => True := by
  induction levels with
  | zero => exact located_position.bind fun _ _ => located_fail _
  | succ levels ih =>
    exact located_position.bind fun _ _ => located_uint8.bind fun _ _ => located_body ih _ _

theorem AnnotationInfo.located_decode : AnnotationInfo.decode.Located raw fun _ => True :=
  located_uint16.bind fun _ _ => (ElementValue.located_elements
    (ElementValue.located_decode _)).bind fun _ _ => located_pure trivial

theorem AnnotationTarget.located_body (kind : UInt8) (offset : Nat) :
    (body kind offset).Located raw fun _ => True := by
  refine located_ite (located_uint8.map fun _ _ => trivial) ?_
  refine located_ite (located_uint16.map fun _ _ => trivial) ?_
  refine located_ite (located_uint8.bind fun _ _ => located_uint8.map fun _ _ => trivial) ?_
  refine located_ite (located_pure trivial) ?_
  refine located_ite (located_uint8.map fun _ _ => trivial) ?_
  refine located_ite (located_uint16.map fun _ _ => trivial) ?_
  refine located_ite (located_uint16.bind fun _ _ => (located_skip _).bind fun _ _ =>
    located_pure trivial) ?_
  refine located_ite (located_uint16.map fun _ _ => trivial) ?_
  refine located_ite (located_uint16.map fun _ _ => trivial) ?_
  exact located_ite (located_uint16.bind fun _ _ => located_uint8.map fun _ _ => trivial)
    (located_fail _)

theorem TypeAnnotationInfo.located_decode : TypeAnnotationInfo.decode.Located raw fun _ => True :=
  located_position.bind fun _ _ => located_uint8.bind fun _ _ =>
    (AnnotationTarget.located_body _ _).bind fun _ _ => located_uint8.bind fun _ _ =>
      (located_skip _).bind fun _ _ => AnnotationInfo.located_decode.bind fun _ _ =>
        located_pure trivial

/-! ## Attributes -/

/-- The content is decoded from a part of the buffer. -/
theorem located_attributeWith {α : Type} {pool : Pool} {content? : String → Option (Decoder α)}
    {other : String → UInt32 → α} {P : α → Prop}
    (hcontent : ∀ name, ∀ d ∈ content? name, d.Located raw P)
    (hother : ∀ name length, P (other name length)) :
    (attributeWith pool content? other).Located raw P := by
  refine located_uint16.bind fun _ _ => (located_ofExcept (pool.failsIn_utf8 _)).bind fun name _ =>
    located_uint32.bind fun length _ => (located_part _).bind fun body hbody => ?_
  split
  · exact located_pure (hother name length)
  · next content hname =>
    refine (located_within hbody (hcontent name content hname)).bind fun p hp => ?_
    exact located_ite (located_fail_bind _ _) (located_pure hp)

theorem CodeDetail.located_content? (name : String) :
    ∀ d ∈ content? name, d.Located raw fun _ => True := by
  have hannotations (visible : Bool) :
      (typeAnnotations visible <$> counted TypeAnnotationInfo.decode).Located raw fun _ => True :=
    (located_counted TypeAnnotationInfo.located_decode).map fun _ _ => trivial
  intro d hd
  unfold content? at hd
  split at hd <;> cases hd
  · exact hannotations true
  · exact hannotations false

theorem Handler.located_decode : Handler.decode.Located raw fun _ => True :=
  located_uint16.bind fun _ _ => located_uint16.bind fun _ _ => located_uint16.bind fun _ _ =>
    located_uint16.map fun _ _ => trivial

/-- The bytes of a body stand at its offset. -/
def Code.StandsIn (c : Code) (raw : List UInt8) : Prop := StandAt raw c.offset c.bytes

theorem Code.located_decode (pool : Pool) : (decode pool).Located raw fun c => c.StandsIn raw := by
  refine located_uint16.bind fun maxStack _ => located_uint16.bind fun maxLocals _ =>
    located_uint32.bind fun length _ => located_position_take _ fun start bytes hbytes => ?_
  refine (located_counted Handler.located_decode).bind fun handlers _ => ?_
  refine (located_counted (located_attributeWith CodeDetail.located_content? fun _ _ =>
    trivial)).bind fun details _ => ?_
  exact located_pure hbytes

namespace Attribute

/-- If the attribute is a body of code, the body stands in the buffer. -/
def CodeStandsIn (raw : List UInt8) (a : Attribute) : Prop := ∀ c ∈ a.code?, c.StandsIn raw

theorem located_parameterLists : parameterLists.Located raw fun _ => True :=
  located_uint8.bind fun _ _ =>
    (located_replicate (located_counted AnnotationInfo.located_decode) _).imp fun _ _ => trivial

theorem located_content? (pool : Pool) (place : Place) (name : String) :
    ∀ d ∈ content? pool place name, d.Located raw (CodeStandsIn raw) := by
  have hnone {a : Attribute} (h : a.code? = none) : a.CodeStandsIn raw := by
    rw [CodeStandsIn, h]
    rintro c ⟨⟩
  have hannotations (visible : Bool) :
      (annotations visible <$> counted AnnotationInfo.decode).Located raw (CodeStandsIn raw) :=
    (located_counted AnnotationInfo.located_decode).map fun _ _ => hnone rfl
  have hparameters (visible : Bool) :
      (parameterAnnotations visible <$> parameterLists).Located raw (CodeStandsIn raw) :=
    located_parameterLists.map fun _ _ => hnone rfl
  have htypes (visible : Bool) :
      (typeAnnotations visible <$> counted TypeAnnotationInfo.decode).Located raw
        (CodeStandsIn raw) :=
    (located_counted TypeAnnotationInfo.located_decode).map fun _ _ => hnone rfl
  intro d hd
  unfold content? at hd
  split at hd <;> cases hd
  · exact (Code.located_decode pool).map fun c hc => by rintro _ ⟨⟩; exact hc
  · exact (located_counted located_uint16).map fun _ _ => hnone rfl
  · exact (located_uint16.bind fun _ _ => located_ofExcept (pool.failsIn_utf8 _)).map fun _ _ =>
      hnone rfl
  · exact hannotations true
  · exact hannotations false
  · exact hparameters true
  · exact hparameters false
  · exact htypes true
  · exact htypes false
  · exact (ElementValue.located_decode _).map fun _ _ => hnone rfl

theorem located_decodeAll (pool : Pool) (place : Place) :
    (decodeAll pool place).Located raw fun l => ∀ a ∈ l, a.CodeStandsIn raw :=
  located_counted (located_attributeWith (located_content? pool place) fun _ _ => by rintro _ ⟨⟩)

end Attribute

/-! ## Members and classes -/

theorem Member.located_decode (pool : Pool) (place : Place) :
    (Member.decode pool place).Located raw fun m => ∀ a ∈ m.attributes, a.CodeStandsIn raw :=
  located_uint16.bind fun _ _ => located_uint16.bind fun _ _ =>
    (located_ofExcept (pool.failsIn_utf8 _)).bind fun _ _ => located_uint16.bind fun _ _ =>
      (located_ofExcept (pool.failsIn_utf8 _)).bind fun _ _ =>
        (Attribute.located_decodeAll pool place).bind fun _ h => located_pure h

namespace ClassFile

/-- The attributes of the class, its fields and its methods. -/
def allAttributes (c : ClassFile) : List Attribute :=
  c.attributes ++ (c.fields ++ c.methods).flatMap Member.attributes

theorem located_classRef (pool : Pool) : (classRef pool).Located raw fun _ => True :=
  located_uint16.bind fun _ _ => located_ofExcept (pool.failsIn_className _)

theorem located_superclassRef (pool : Pool) : (superclassRef pool).Located raw fun _ => True :=
  located_uint16.bind fun _ _ => located_ite (located_pure trivial)
    ((located_ofExcept (pool.failsIn_className _)).map fun _ _ => trivial)

theorem located_decoder (pool : Pool) :
    (decoder pool).Located raw fun c => ∀ a ∈ c.allAttributes, a.CodeStandsIn raw := by
  refine located_uint16.bind fun accessFlags _ => (located_classRef pool).bind fun thisClass _ =>
    (located_superclassRef pool).bind fun superclass _ =>
      (located_counted (located_classRef pool)).bind fun interfaces _ => ?_
  refine (located_counted (Member.located_decode pool .onField)).bind fun fields hfields =>
    (located_counted (Member.located_decode pool .onMethod)).bind fun methods hmethods =>
      (Attribute.located_decodeAll pool .onClass).bind fun attributes hattributes =>
        located_pure ?_
  simp only [allAttributes, List.mem_append, List.mem_flatMap]
  rintro a (ha | ⟨m, hm | hm, ha⟩)
  · exact hattributes a ha
  · exact hfields m hm a ha
  · exact hmethods m hm a ha

/-- A decoder that starts behind the end of the file misses the bytes in between. -/
theorem failsIn_decodeAt (pool : Pool) (raw : List UInt8) (offset : Nat) :
    FailsIn raw (decodeAt pool raw offset) := by
  rw [decodeAt]
  split
  · next hshort => exact failsIn_error ⟨Nat.sub_pos_of_lt hshort, Nat.le_refl _⟩
  · next hlong =>
    have hstart := StandAt.drop_self (Nat.le_of_not_lt hlong)
    exact (located_decoder pool).failsIn_run' hstart.standsIn_ofBytes

theorem standsIn_of_decodeAt {pool : Pool} {offset : Nat} {c : ClassFile}
    (h : decodeAt pool raw offset = .ok c) : ∀ a ∈ c.allAttributes, a.CodeStandsIn raw := by
  rw [decodeAt] at h
  split at h
  · cases h
  · next hlong =>
    have hstart := StandAt.drop_self (Nat.le_of_not_lt hlong)
    exact (located_decoder pool).of_run' hstart.standsIn_ofBytes h

end ClassFile

/-! ## Whole files -/

theorem PoolHeader.failsIn_decode (raw : List UInt8) : FailsIn raw (PoolHeader.decode raw) := by
  rw [decode]
  split
  · exact failsIn_error trivial
  · have hstart : StandAt raw 0 raw := StandAt.drop_self (Nat.zero_le _)
    exact located_decoder.failsIn_run' hstart.standsIn_ofBytes

namespace CompiledUnit

/-- The bodies of code in a unit. -/
def codes (u : CompiledUnit) : List Code := u.classFile.allAttributes.filterMap Attribute.code?

theorem failsIn_decode (raw : List UInt8) : FailsIn raw (decode raw) :=
  (PoolHeader.failsIn_decode raw).bind fun header _ =>
    (ClassFile.failsIn_decodeAt header.pool raw header.sectionsOffset).bind fun _ _ => failsIn_ok _

theorem standsIn_of_decode {u : CompiledUnit} (h : decode raw = .ok u) :
    ∀ c ∈ u.codes, c.StandsIn raw := by
  obtain ⟨header, -, h⟩ := exists_of_bind_eq_ok h
  obtain ⟨file, hfile, h⟩ := exists_of_bind_eq_ok h
  cases h
  rw [codes, List.forall_mem_filterMap]
  exact ClassFile.standsIn_of_decodeAt hfile

end CompiledUnit

end ClassAtlas
