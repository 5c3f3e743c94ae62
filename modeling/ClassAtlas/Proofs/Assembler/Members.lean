import ClassAtlas.Proofs.Assembler.Code

/-!
# Fields and methods are read back

The attributes of a member are written in a fixed order, and those that have nothing to say are left
out; `MemberSpec.attributeSpecs` lists what remains. Each is read as an attribute of the same
content, or kept by its name where it is not interpreted: only methods have code, exceptions,
annotated parameters and default values.

## Main definitions

* `AttributeSpec` is an attribute in names rather than pool indices.
* `MemberSpec.encodable` says that a member has a written form, and `MemberSpec.fits` that its code
  also has instructions only.
* `MemberSpec.DecodedAs` relates a member to what is decoded, and `MemberSpec.ReadAs` to what is read
  from its code.
* `Assemble.memberParts` writes a member and gives the bodies of its attributes apart.
-/

namespace ClassAtlas

open Decoder

/-- An attribute in names. -/
inductive AttributeSpec where
  | code (c : CodeSpec)
  | exceptions (classes : List String)
  | signature (text : String)
  | annotations (visible : Bool) (l : List AnnotationSpec)
  | parameterAnnotations (parameters : List (List AnnotationSpec))
  | typeAnnotations (l : List AnnotationSpec)
  | defaultValue (value : ElementSpec)
  | other (name : String)

/-- The attribute is kept by its name only. -/
def Attribute.IsOther (a : Attribute) : Prop := ∃ name length, a = .other name length

/-- The attribute is read as one with the same content, if it is interpreted at the place. -/
def AttributeSpec.ReadAs (pool : Pool) (place : Place) (a : Attribute) : AttributeSpec → Prop
  | code c =>
    if place = .onMethod then ∃ body, a = .code body ∧ c.ReadAs pool body else a.IsOther
  | exceptions classes =>
    if place = .onMethod then ∃ indices, a = .exceptions indices ∧
      List.Forall₂ (fun name i => pool.className i = .ok name) classes indices
    else a.IsOther
  | signature text => a = .signature text
  | annotations visible l => ∃ infos, a = .annotations visible infos ∧
    List.Forall₂ (AnnotationSpec.ReadAs pool) l infos
  | parameterAnnotations parameters =>
    if place = .onMethod then ∃ lists, a = .parameterAnnotations true lists ∧
      List.Forall₂ (List.Forall₂ (AnnotationSpec.ReadAs pool)) parameters lists
    else a.IsOther
  | typeAnnotations l => ∃ infos, a = .typeAnnotations true infos ∧
    List.Forall₂ (fun a t => a.ReadAs pool t.info) l infos
  | defaultValue value =>
    if place = .onMethod then ∃ v, a = .defaultValue v ∧ value.ReadAs pool v else a.IsOther
  | other _ => a.IsOther

/-- An attribute that only methods have: it is decoded there, and elsewhere kept by its name and the
length of the body that holds it. -/
def Attribute.Holds {α : Type} (place : Place) (name : String) (decoder : Decoder α)
    (wrap : α → Attribute) (P : α → Prop) (a : Attribute) : Prop :=
  if place = .onMethod then ∃ value, a = wrap value ∧ P value
  else ∃ body, a = .other name (UInt32.ofNat body.length) ∧ decoder.Reads body P

/-- The attribute is decoded by its shape with the same content, if the place allows it. -/
def AttributeSpec.DecodedAs (pool : Pool) (place : Place) (a : Attribute) : AttributeSpec → Prop
  | code c => a.Holds place "Code" (Code.decode pool) .code (c.DecodedAs pool)
  | exceptions classes => a.Holds place "Exceptions" (Decoder.counted Decoder.uint16) .exceptions
    (List.Forall₂ (fun name i => pool.className i = .ok name) classes)
  | signature text => a = .signature text
  | annotations visible l => ∃ infos, a = .annotations visible infos ∧
    List.Forall₂ (AnnotationSpec.ReadAs pool) l infos
  | parameterAnnotations parameters => a.Holds place "RuntimeVisibleParameterAnnotations"
    Attribute.parameterLists (.parameterAnnotations true)
    (List.Forall₂ (List.Forall₂ (AnnotationSpec.ReadAs pool)) parameters)
  | typeAnnotations l => ∃ infos, a = .typeAnnotations true infos ∧
    List.Forall₂ (AnnotationSpec.DecodedAs pool 0x13 .empty) l infos
  | defaultValue value => a.Holds place "AnnotationDefault" (ElementValue.decode maxElementDepth)
    .defaultValue (value.ReadAs pool)
  | other name => ∃ length, a = .other name length

theorem Attribute.Holds.ite {α : Type} {place : Place} {name : String} {decoder : Decoder α}
    {wrap : α → Attribute} {P Q : α → Prop} {a : Attribute}
    (h : a.Holds place name decoder wrap P) (hPQ : ∀ value, P value → Q value) :
    if place = .onMethod then ∃ value, a = wrap value ∧ Q value else a.IsOther := by
  rw [Attribute.Holds] at h
  split at h
  · next hplace =>
    obtain ⟨value, ha, hvalue⟩ := h
    rw [if_pos hplace]
    exact ⟨value, ha, hPQ value hvalue⟩
  · next hplace =>
    obtain ⟨body, ha, -⟩ := h
    rw [if_neg hplace]
    exact ⟨name, _, ha⟩

/-- An attribute that was decoded is read, if its code has instructions only. -/
theorem AttributeSpec.DecodedAs.readAs {pool : Pool} {place : Place} {a : Attribute}
    {s : AttributeSpec} (h : s.DecodedAs pool place a)
    (hraw : ∀ c, s = .code c → ∀ i ∈ c.instructions, i.isRaw = false) :
    s.ReadAs pool place a := by
  cases s with
  | code c => exact Attribute.Holds.ite h fun body hbody => hbody.readAs (hraw c rfl)
  | exceptions | parameterAnnotations | defaultValue => exact Attribute.Holds.ite h fun _ hv => hv
  | signature text => exact h
  | annotations visible l => exact h
  | typeAnnotations l =>
    obtain ⟨infos, ha, hinfos⟩ := h
    exact ⟨infos, ha, hinfos.imp fun _ _ ht => ht.info⟩
  | other name =>
    obtain ⟨length, ha⟩ := h
    exact ⟨name, length, ha⟩

/-- The attributes of a member that have something to say, in their fixed order. -/
def MemberSpec.attributeSpecs (m : MemberSpec) : List AttributeSpec :=
  m.code.toList.map .code ++ ([m.exceptions].filter (!·.isEmpty)).map .exceptions ++
    m.signature.toList.map .signature ++
    ([m.annotations].filter (!·.isEmpty)).map (.annotations true) ++
    ([m.invisibleAnnotations].filter (!·.isEmpty)).map (.annotations false) ++
    ([m.parameterAnnotations].filter (!·.isEmpty)).map .parameterAnnotations ++
    ([m.typeAnnotations].filter (!·.isEmpty)).map .typeAnnotations ++
    m.defaultValue.toList.map .defaultValue

/-- The member has a written form; the sizes of its attributes apart. -/
def MemberSpec.fits (m : MemberSpec) : Bool :=
  m.code.all CodeSpec.fits && m.exceptions.length ≤ 65535 &&
    AnnotationSpec.allFit m.annotations && AnnotationSpec.allFit m.invisibleAnnotations &&
    m.parameterAnnotations.length ≤ 255 && m.parameterAnnotations.all AnnotationSpec.allFit &&
    AnnotationSpec.allFit m.typeAnnotations &&
    m.defaultValue.all (ElementSpec.fits maxElementDepth)

/-- The member can be written, whatever stands in its code; the sizes of its attributes apart. -/
def MemberSpec.encodable (m : MemberSpec) : Bool :=
  m.code.all CodeSpec.encodable && m.exceptions.length ≤ 65535 &&
    AnnotationSpec.allFit m.annotations && AnnotationSpec.allFit m.invisibleAnnotations &&
    m.parameterAnnotations.length ≤ 255 && m.parameterAnnotations.all AnnotationSpec.allFit &&
    AnnotationSpec.allFit m.typeAnnotations &&
    m.defaultValue.all (ElementSpec.fits maxElementDepth)

/-- The code of the member, if there is any, has instructions only. -/
def MemberSpec.IsRawFree (m : MemberSpec) : Prop :=
  ∀ c, m.code = some c → ∀ i ∈ c.instructions, i.isRaw = false

theorem MemberSpec.encodable_of_fits {m : MemberSpec} (h : m.fits = true) :
    m.encodable = true ∧ m.IsRawFree := by
  simp only [fits, encodable, Bool.and_eq_true, decide_eq_true_eq, Option.all_eq_true,
    List.all_eq_true] at h ⊢
  obtain ⟨⟨⟨⟨⟨⟨⟨hcode, hexceptions⟩, hvisible⟩, hinvisible⟩, hslots⟩, hparameters⟩, htypes⟩,
    hdefault⟩ := h
  refine ⟨⟨⟨⟨⟨⟨⟨⟨fun c hc => ?_, hexceptions⟩, hvisible⟩, hinvisible⟩, hslots⟩, hparameters⟩,
    htypes⟩, hdefault⟩, fun c hc => ?_⟩
  · exact (CodeSpec.fits_iff.1 (hcode c hc)).1
  · exact (CodeSpec.fits_iff.1 (hcode c hc)).2

structure MemberSpec.DecodedAs (pool : Pool) (place : Place) (m : MemberSpec) (member : Member) :
    Prop where
  accessFlags : member.accessFlags = m.accessFlags
  name : member.name = m.name
  descriptor : member.descriptor = m.descriptor
  attributes : List.Forall₂ (fun s a => s.DecodedAs pool place a) m.attributeSpecs member.attributes

structure MemberSpec.ReadAs (pool : Pool) (place : Place) (m : MemberSpec) (member : Member) :
    Prop where
  accessFlags : member.accessFlags = m.accessFlags
  name : member.name = m.name
  descriptor : member.descriptor = m.descriptor
  attributes : List.Forall₂ (fun s a => s.ReadAs pool place a) m.attributeSpecs member.attributes

theorem MemberSpec.eq_of_code_mem {m : MemberSpec} {c : CodeSpec}
    (h : .code c ∈ m.attributeSpecs) : m.code = some c := by
  simpa [attributeSpecs] using h

theorem MemberSpec.DecodedAs.readAs {pool : Pool} {place : Place} {m : MemberSpec} {member : Member}
    (h : m.DecodedAs pool place member) (hraw : m.IsRawFree) : m.ReadAs pool place member where
  accessFlags := h.accessFlags
  name := h.name
  descriptor := h.descriptor
  attributes := by
    have hcode : ∀ s ∈ m.attributeSpecs, ∀ c, s = .code c →
        ∀ i ∈ c.instructions, i.isRaw = false := by
      rintro s hs c rfl
      exact hraw c (eq_of_code_mem hs)
    exact ((List.forall₂_and_left _ _).2 ⟨hcode, h.attributes⟩).imp
      fun s a hs => hs.2.readAs hs.1

namespace Assemble

/-- What is said of an attribute in a list of attributes to be written. -/
def AttributeWritten (pool : Pool) (place : Place) (P : Attribute → Prop)
    (a : String × List UInt8) : Prop :=
  a.2.length < 2 ^ 32 → AttributeReads (Attribute.content? pool place) .other a P

theorem emits_ifSome {α : Type} {name : String} {o : Option α} {body : α → Assemble (List UInt8)}
    {place : Place} {spec : α → AttributeSpec}
    (h : ∀ a, o = some a → (body a).Emits fun pool bytes =>
      AttributeWritten pool place ((spec a).DecodedAs pool place) (name, bytes)) :
    (ifSome name o body).Emits fun pool attrs =>
      List.Forall₂ (fun s => AttributeWritten pool place (s.DecodedAs pool place))
        (o.toList.map spec) attrs := by
  cases o with
  | none => exact emits_pure fun _ => .nil
  | some a => exact (h a rfl).bind_pure fun pool bytes hbytes => .cons hbytes .nil

theorem emits_unlessEmptyAttribute {α : Type} {name : String} {l : List α}
    {body : List α → Assemble (List UInt8)} {place : Place} {spec : List α → AttributeSpec}
    (h : (body l).Emits fun pool bytes =>
      AttributeWritten pool place ((spec l).DecodedAs pool place) (name, bytes)) :
    (unlessEmpty name l body).Emits fun pool attrs =>
      List.Forall₂ (fun s => AttributeWritten pool place (s.DecodedAs pool place))
        (([l].filter (!·.isEmpty)).map spec) attrs := by
  have hlist := emits_unlessEmpty (S := fun pool l a =>
    AttributeWritten pool place ((spec l).DecodedAs pool place) a) fun _ => h
  exact hlist.imp fun pool attrs hattrs => List.forall₂_map_left_iff.2 hattrs

/-- An attribute that only methods have, written at any place. -/
theorem attributeWritten_holds {α : Type} {pool : Pool} (place : Place) {name : String}
    {body : List UInt8} {d : Decoder α} {wrap : α → Attribute} {P : α → Prop}
    (honMethod : Attribute.content? pool .onMethod name = some (wrap <$> d))
    (helsewhere : ∀ place ≠ .onMethod, Attribute.content? pool place name = none)
    (hread : body.length < 2 ^ 32 → d.Reads body P) :
    AttributeWritten pool place (Attribute.Holds place name d wrap P) (name, body) := by
  intro hlen
  by_cases hplace : place = .onMethod
  · subst hplace
    rw [AttributeReads, honMethod]
    exact (hread hlen).map fun value hvalue => by
      rw [Attribute.Holds, if_pos rfl]
      exact ⟨value, rfl, hvalue⟩
  · rw [AttributeReads, helsewhere place hplace]
    show Attribute.Holds place name d wrap P _
    rw [Attribute.Holds, if_neg hplace]
    exact ⟨body, rfl, hread hlen⟩

variable (place : Place)

theorem emits_codeAttribute {c : CodeSpec} (hfits : c.encodable = true) :
    (code c).Emits fun pool bytes => AttributeWritten pool place
      ((AttributeSpec.code c).DecodedAs pool place) ("Code", bytes) :=
  (emits_code hfits).imp fun _ _ hbytes =>
    attributeWritten_holds place rfl (by rintro (_ | _ | _) h <;> trivial) hbytes

theorem emits_exceptionsAttribute {l : List String} (hlen : l.length ≤ 65535) :
    (counted classIndex l).Emits fun pool bytes => AttributeWritten pool place
      ((AttributeSpec.exceptions l).DecodedAs pool place) ("Exceptions", bytes) := by
  have hclasses := emits_counted (d := fun _ => uint16)
    (R := fun pool name i => pool.className i = .ok name) hlen fun name _ => by
      refine (emits_classIndex name).imp fun pool bytes hbytes => ?_
      obtain ⟨i, rfl, hi⟩ := hbytes
      exact (reads_uint16 i).imp fun j hj => by rw [hj, hi]
  exact hclasses.imp fun _ _ hbytes =>
    attributeWritten_holds place rfl (by rintro (_ | _ | _) h <;> trivial) fun _ => hbytes

theorem emits_signatureAttribute (text : String) :
    (textIndex text).Emits fun pool bytes => AttributeWritten pool place
      ((AttributeSpec.signature text).DecodedAs pool place) ("Signature", bytes) := by
  refine (emits_textIndex text).imp fun pool bytes hbytes => ?_
  obtain ⟨i, rfl, hi⟩ := hbytes
  have hread : (do Decoder.ofExcept (pool.utf8 (← uint16)) : Decoder String).Reads
      (Binary.word16 i) (· = text) :=
    (reads_uint16 i).bind_end fun j hj => by rw [hj]; exact reads_ofExcept hi
  exact fun _ => hread.map fun _ ha => congrArg _ ha

theorem emits_annotationsAttribute {l : List AnnotationSpec} (visible : Bool)
    (hfits : AnnotationSpec.allFit l = true) :
    (annotationSpecs l).Emits fun pool bytes => AttributeWritten pool place
      ((AttributeSpec.annotations visible l).DecodedAs pool place)
      (if visible then "RuntimeVisibleAnnotations" else "RuntimeInvisibleAnnotations", bytes) := by
  refine (emits_annotationSpecs hfits).imp fun pool bytes hbytes _ => ?_
  cases visible <;> exact hbytes.map fun infos hinfos => ⟨infos, rfl, hinfos⟩

theorem emits_parameterAnnotationsAttribute {l : List (List AnnotationSpec)}
    (hlen : l.length ≤ 255) (hfits : ∀ p ∈ l, AnnotationSpec.allFit p = true) :
    (parameterAnnotations l).Emits fun pool bytes => AttributeWritten pool place
      ((AttributeSpec.parameterAnnotations l).DecodedAs pool place)
      ("RuntimeVisibleParameterAnnotations", bytes) := by
  refine (emits_concat fun p hp => emits_annotationSpecs (hfits p hp)).bind_pure
    fun pool bytes hbytes => ?_
  obtain ⟨chunks, rfl, hchunks⟩ := hbytes
  have hread : Attribute.parameterLists.Reads (UInt8.ofNat l.length :: chunks.flatten)
      (List.Forall₂ (List.Forall₂ (AnnotationSpec.ReadAs pool)) l) := by
    refine (reads_uint8 (UInt8.ofNat l.length)).bind fun n hn => ?_
    have hnat : n.toNat = l.length := by
      rw [hn, UInt8.toNat_ofNat']
      omega
    rw [hnat]
    exact reads_replicate hchunks
  exact attributeWritten_holds place rfl (by rintro (_ | _ | _) h <;> trivial) fun _ => hread

theorem emits_typeAnnotationsAttribute {l : List AnnotationSpec}
    (hfits : AnnotationSpec.allFit l = true) :
    (typeAnnotations [0x13, 0] l).Emits fun pool bytes => AttributeWritten pool place
      ((AttributeSpec.typeAnnotations l).DecodedAs pool place)
      ("RuntimeVisibleTypeAnnotations", bytes) :=
  (emits_typeAnnotations targetReads_declaration hfits).imp fun _ _ hbytes _ =>
    hbytes.map fun infos hinfos => ⟨infos, rfl, hinfos⟩

theorem emits_defaultAttribute {value : ElementSpec}
    (hfits : value.fits maxElementDepth = true) :
    (element value).Emits fun pool bytes => AttributeWritten pool place
      ((AttributeSpec.defaultValue value).DecodedAs pool place) ("AnnotationDefault", bytes) :=
  (emits_element maxElementDepth value hfits).imp fun _ _ hbytes =>
    attributeWritten_holds place rfl (by rintro (_ | _ | _) h <;> trivial) fun _ => hbytes

theorem emits_memberAttributes {m : MemberSpec} (hfits : m.encodable = true) :
    (memberAttributes m).Emits fun pool attrs =>
      List.Forall₂ (fun s => AttributeWritten pool place (s.DecodedAs pool place))
        m.attributeSpecs attrs := by
  simp only [MemberSpec.encodable, Bool.and_eq_true, decide_eq_true_eq, Option.all_eq_true,
    List.all_eq_true] at hfits
  obtain ⟨⟨⟨⟨⟨⟨⟨hcode, hexceptions⟩, hvisible⟩, hinvisible⟩, hslots⟩, hparameters⟩, htypes⟩,
    hdefault⟩ := hfits
  refine (emits_ifSome fun c hc => emits_codeAttribute place (hcode c hc)).bind fun code => ?_
  refine (emits_unlessEmptyAttribute (emits_exceptionsAttribute place hexceptions)).bind
    fun exceptions => ?_
  refine (emits_ifSome fun text _ => emits_signatureAttribute place text).bind fun signature => ?_
  refine (emits_unlessEmptyAttribute (emits_annotationsAttribute place true hvisible)).bind
    fun visible => ?_
  refine (emits_unlessEmptyAttribute (emits_annotationsAttribute place false hinvisible)).bind
    fun invisible => ?_
  refine (emits_unlessEmptyAttribute
    (emits_parameterAnnotationsAttribute place hslots hparameters)).bind fun parameters => ?_
  refine (emits_unlessEmptyAttribute (emits_typeAnnotationsAttribute place htypes)).bind
    fun types => ?_
  refine (emits_ifSome fun value hvalue =>
    emits_defaultAttribute place (hdefault value hvalue)).bind_pure
      fun pool default h₈ h₇ h₆ h₅ h₄ h₃ h₂ h₁ => ?_
  exact List.rel_append (List.rel_append (List.rel_append (List.rel_append (List.rel_append
    (List.rel_append (List.rel_append h₁ h₂) h₃) h₄) h₅) h₆) h₇) h₈

/-- A member in its written form, and the bodies of its attributes. -/
def memberParts (m : MemberSpec) : Assemble (List UInt8 × List (List UInt8)) := do
  let name ← textIndex m.name
  let descriptor ← textIndex m.descriptor
  let list ← memberAttributes m
  let attrs ← attributes list
  return (Binary.word16 m.accessFlags ++ name ++ descriptor ++ attrs, list.map (·.2))

theorem memberSpec_eq (m : MemberSpec) : memberSpec m = (·.1) <$> memberParts m := by
  simp [memberSpec, memberParts]

theorem length_attributeSpecs_le (m : MemberSpec) : m.attributeSpecs.length ≤ 8 := by
  have hoption {α : Type} (o : Option α) : o.toList.length ≤ 1 := by cases o <;> simp
  have hlist {α : Type} (l : List α) : ([l].filter (!·.isEmpty)).length ≤ 1 :=
    List.length_filter_le _ _
  have h₁ := hoption m.code
  have h₂ := hlist m.exceptions
  have h₃ := hoption m.signature
  have h₄ := hlist m.annotations
  have h₅ := hlist m.invisibleAnnotations
  have h₆ := hlist m.parameterAnnotations
  have h₇ := hlist m.typeAnnotations
  have h₈ := hoption m.defaultValue
  simp only [MemberSpec.attributeSpecs, List.length_append, List.length_map]
  omega

/-- Attributes that were written are read as the ones they were made from. -/
theorem reads_decodeAll {γ : Type} {place : Place} {pool : Pool} {T : γ → Attribute → Prop}
    {specs : List γ} {attrs : List (String × List UInt8)} {bytes : List UInt8}
    (hbytes : WrittenAttributes pool attrs bytes)
    (hspecs : List.Forall₂ (fun s => AttributeWritten pool place (T s)) specs attrs)
    (hlen : specs.length ≤ 65535) (hshort : ∀ a ∈ attrs, a.2.length < 2 ^ 32) :
    (Attribute.decodeAll pool place).Reads bytes (List.Forall₂ T specs) := by
  refine hbytes.reads (hspecs.length_eq ▸ hlen) hshort ?_
  clear hbytes hlen
  induction hspecs with
  | nil => exact .nil
  | cons hfirst _ ih =>
    refine .cons (hfirst (hshort _ List.mem_cons_self)) ?_
    exact ih fun a ha => hshort a (List.mem_cons_of_mem _ ha)

theorem emits_memberParts {m : MemberSpec} (hfits : m.encodable = true) :
    (memberParts m).Emits fun pool p => (∀ body ∈ p.2, body.length < 2 ^ 32) →
      (Member.decode pool place).Reads p.1 (m.DecodedAs pool place) := by
  refine (emits_textIndex m.name).bind fun name => ?_
  refine (emits_textIndex m.descriptor).bind fun descriptor => ?_
  refine (emits_memberAttributes place hfits).bind fun list => ?_
  refine (emits_attributes list).bind_pure
    fun pool attrs hattrs hlist hdescriptor hname hshort => ?_
  obtain ⟨i, rfl, hi⟩ := hname
  obtain ⟨j, rfl, hj⟩ := hdescriptor
  have hcount := length_attributeSpecs_le m
  have hread := reads_decodeAll hattrs hlist (by omega) fun a ha =>
    hshort a.2 (List.mem_map_of_mem ha)
  dsimp only
  rw [List.append_assoc, List.append_assoc]
  refine (reads_uint16 m.accessFlags).bind fun flags hflags => ?_
  refine (reads_uint16 i).bind fun i' hi' => ?_
  rw [hi']
  refine (reads_ofExcept hi).bind_nil fun name hname => ?_
  refine (reads_uint16 j).bind fun j' hj' => ?_
  rw [hj']
  refine (reads_ofExcept hj).bind_nil fun descriptor hdescriptor => ?_
  exact hread.bind_pure fun as has => ⟨hflags, hname, hdescriptor, has⟩

end Assemble

end ClassAtlas
