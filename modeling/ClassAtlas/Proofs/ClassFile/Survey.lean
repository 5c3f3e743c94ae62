import ClassAtlas.Proofs.Binary.Skipped
import ClassAtlas.Proofs.ClassFile.Truncation

/-!
# Surveys of class files

Of an attribute that it does not interpret the decoder keeps the name and the length. A survey reads
a file as the decoder does and finds where the bodies of these attributes are.

## Main definitions

* `CompiledUnit.others` are the attributes of a unit that are not interpreted.
* `Survey` is a reader of bodies, and `CompiledUnit.bodies` surveys a class file.
* `AttributeBody.StandsIn` says that a body stands in some bytes behind the header of its attribute.

## Main statements

* `ClassFile.finds_survey`: what a survey finds are bodies of attributes.
-/

namespace ClassAtlas

open Decoder

/-- The body of an attribute in a file. -/
structure AttributeBody where
  name : String
  /-- The absolute offset of the first byte. -/
  start : Nat
  length : UInt32
  deriving DecidableEq

namespace AttributeBody

def span (b : AttributeBody) : Span := ⟨b.start, b.length.toNat⟩

/-- What is kept of an attribute that is not interpreted. -/
def header (b : AttributeBody) : String × UInt32 := (b.name, b.length)

end AttributeBody

/-! ## What is kept of the attributes -/

def CodeDetail.others : CodeDetail → List (String × UInt32)
  | other name length => [(name, length)]
  | typeAnnotations .. => []

def Attribute.others : Attribute → List (String × UInt32)
  | other name length => [(name, length)]
  | code body => body.details.flatMap CodeDetail.others
  | _ => []

def Member.others (m : Member) : List (String × UInt32) := m.attributes.flatMap Attribute.others

/-- The attributes of a unit that are not interpreted, in the order of the file. -/
def CompiledUnit.others (u : CompiledUnit) : List (String × UInt32) :=
  u.classFile.fields.flatMap Member.others ++ (u.classFile.methods.flatMap Member.others ++
    u.classFile.attributes.flatMap Attribute.others)

/-! ## Surveys -/

/-- A reader that finds bodies in what it passes over. -/
abbrev Survey := Decoder (List AttributeBody)

namespace Survey

variable {α β : Type}

/-- There are no bodies in what is decoded. -/
def without (d : Decoder α) : Survey := do
  let _ ← d
  return []

/-- One part after the other. -/
def append (s t : Survey) : Survey := return (← s) ++ (← t)

/-- So many parts. -/
def repeated (s : Survey) : Nat → Survey
  | 0 => return []
  | n + 1 => s.append (s.repeated n)

/-- Parts preceded by their number. -/
def all (s : Survey) : Survey := do s.repeated (← uint16).toNat

/-- An attribute: `inner?` surveys the content of the names that are interpreted. -/
def ofAttribute (pool : Pool) (inner? : String → Option Survey) : Survey := do
  let name ← Decoder.ofExcept (pool.utf8 (← uint16))
  let length ← uint32
  let body ← part length.toNat
  match inner? name with
  | none => return [⟨name, body.position, length⟩]
  | some inner => return (← within body inner).1

end Survey

def CodeDetail.survey (pool : Pool) : Survey :=
  Survey.ofAttribute pool fun name => (content? name).map Survey.without

def Code.survey (pool : Pool) : Survey := do
  let _ ← uint16
  let _ ← uint16
  let length ← uint32
  let _ ← take length.toNat
  let _ ← counted Handler.decode
  Survey.all (CodeDetail.survey pool)

namespace Attribute

/-- Of the attributes that are interpreted, the code of a method has attributes of its own. -/
def inner? (pool : Pool) (place : Place) (name : String) : Option Survey :=
  if name = "Code" ∧ place = .onMethod then some (Code.survey pool)
  else (content? pool place name).map Survey.without

def survey (pool : Pool) (place : Place) : Survey := Survey.ofAttribute pool (inner? pool place)

end Attribute

def Member.survey (pool : Pool) (place : Place) : Survey := do
  let _ ← uint16
  let _ ← Decoder.ofExcept (pool.utf8 (← uint16))
  let _ ← Decoder.ofExcept (pool.utf8 (← uint16))
  Survey.all (Attribute.survey pool place)

def ClassFile.survey (pool : Pool) : Survey := do
  let _ ← uint16
  let _ ← classRef pool
  let _ ← superclassRef pool
  let _ ← counted (classRef pool)
  (Survey.all (Member.survey pool .onField)).append
    ((Survey.all (Member.survey pool .onMethod)).append
      (Survey.all (Attribute.survey pool .onClass)))

/-- The bodies of the attributes of a class file that are not interpreted. -/
def CompiledUnit.bodies (bytes : List UInt8) : Except DecodeError (List AttributeBody) := do
  let header ← PoolHeader.decode bytes
  (ClassFile.survey header.pool).run'
    (.ofBytes (bytes.drop header.sectionsOffset) header.sectionsOffset)

/-! ## Where the bodies stand -/

namespace AttributeBody

variable {b : AttributeBody} {pool : Pool} {offset : Nat} {bytes : List UInt8}

/-- The bytes, which begin at the offset, have an attribute with this body: the index of its name, its
length, and the body. -/
def StandsIn (b : AttributeBody) (pool : Pool) (offset : Nat) (bytes : List UInt8) : Prop :=
  ∃ before index content after,
    bytes = before ++ (Binary.word16 index ++ (Binary.word32 b.length ++ (content ++ after))) ∧
      pool.utf8 index = .ok b.name ∧ content.length = b.length.toNat ∧
      b.start = offset + before.length + 6

namespace StandsIn

theorem append_right (h : b.StandsIn pool offset bytes) (more : List UInt8) :
    b.StandsIn pool offset (bytes ++ more) := by
  obtain ⟨before, index, content, after, rfl, hname, hlength, hstart⟩ := h
  exact ⟨before, index, content, after ++ more, by simp only [List.append_assoc], hname, hlength,
    hstart⟩

theorem append_left {first : List UInt8} (h : b.StandsIn pool (offset + first.length) bytes) :
    b.StandsIn pool offset (first ++ bytes) := by
  obtain ⟨before, index, content, after, rfl, hname, hlength, hstart⟩ := h
  refine ⟨first ++ before, index, content, after, by simp only [List.append_assoc], hname, hlength,
    ?_⟩
  rw [hstart, List.length_append, Nat.add_assoc offset]

theorem end_le (h : b.StandsIn pool offset bytes) :
    b.start + b.length.toNat ≤ offset + bytes.length := by
  obtain ⟨before, index, content, after, rfl, -, hlength, hstart⟩ := h
  simp only [List.length_append, Binary.word16, Binary.word32, Binary.length_toBigEndian]
  omega

end StandsIn

end AttributeBody

namespace Survey

variable {α β : Type} {pool : Pool} {s t : Survey}

/-- The bodies that the survey finds stand in the bytes that it passes over. -/
def Finds (pool : Pool) (s : Survey) : Prop :=
  ∀ base consumed bytes bodies r, s ⟨base, consumed, bytes⟩ = .ok (bodies, r) →
    ∃ used rest, bytes = used ++ rest ∧ r = ⟨base, consumed + used.length, rest⟩ ∧
      ∀ b ∈ bodies, b.StandsIn pool (base + consumed) used

theorem finds_none : Finds pool (pure []) := by
  intro base consumed bytes bodies r hrun
  cases hrun
  exact ⟨[], bytes, rfl, rfl, List.forall_mem_nil _⟩

/-- A first step in which there are no bodies. -/
theorem finds_bind {d : Decoder α} {f : α → Survey} (hd : d.Local) (hf : ∀ a, Finds pool (f a)) :
    Finds pool (d >>= f) := by
  intro base consumed bytes bodies r hrun
  obtain ⟨a, m, ha, hb⟩ := stateBind_eq_ok_iff.1 hrun
  obtain ⟨first, _, rfl, rfl, -⟩ := hd.exists_of_run ha
  obtain ⟨second, rest, rfl, rfl, hbodies⟩ := hf a _ _ _ bodies r hb
  refine ⟨first ++ second, rest, (List.append_assoc ..).symm, ?_, fun b hb => ?_⟩
  · rw [List.length_append, Nat.add_assoc]
  · refine AttributeBody.StandsIn.append_left ?_
    rw [Nat.add_assoc]
    exact hbodies b hb

theorem finds_without {d : Decoder α} (hd : d.Local) : Finds pool (without d) :=
  finds_bind hd fun _ => finds_none

theorem Finds.append (hs : Finds pool s) (ht : Finds pool t) : Finds pool (s.append t) := by
  intro base consumed bytes bodies r hrun
  obtain ⟨left, _, hleft, hrun⟩ := stateBind_eq_ok_iff.1 hrun
  obtain ⟨right, _, hright, hrun⟩ := stateBind_eq_ok_iff.1 hrun
  cases hrun
  obtain ⟨first, _, rfl, rfl, hfirst⟩ := hs _ _ _ _ _ hleft
  obtain ⟨second, rest, rfl, rfl, hsecond⟩ := ht _ _ _ _ _ hright
  refine ⟨first ++ second, rest, (List.append_assoc ..).symm, ?_,
    List.forall_mem_append.2 ⟨fun b hb => (hfirst b hb).append_right second, fun b hb => ?_⟩⟩
  · rw [List.length_append, Nat.add_assoc]
  · refine AttributeBody.StandsIn.append_left ?_
    rw [Nat.add_assoc]
    exact hsecond b hb

theorem Finds.repeated (hs : Finds pool s) (n : Nat) : Finds pool (s.repeated n) := by
  induction n with
  | zero => exact finds_none
  | succ n ih => exact hs.append ih

theorem Finds.all (hs : Finds pool s) : Finds pool s.all :=
  finds_bind local_uint16 fun n => hs.repeated n.toNat

/-- The header of an attribute takes six bytes, and the content stands behind it. -/
theorem exists_of_attribute {f : String → UInt32 → Reader → Decoder α} {base consumed : Nat}
    {bytes : List UInt8} {a : α} {r : Reader}
    (h : (do
      let name ← Decoder.ofExcept (pool.utf8 (← uint16))
      let length ← uint32
      f name length (← part length.toNat)) ⟨base, consumed, bytes⟩ = .ok (a, r)) :
    ∃ index name length content rest,
      bytes = Binary.word16 index ++ (Binary.word32 length ++ content) ++ rest ∧
        pool.utf8 index = .ok name ∧ content.length = length.toNat ∧
        f name length (.ofBytes content (base + consumed + 6))
          ⟨base, consumed + (6 + content.length), rest⟩ = .ok (a, r) := by
  obtain ⟨index, _, hindex, h⟩ := stateBind_eq_ok_iff.1 h
  obtain ⟨name, _, hname, h⟩ := stateBind_eq_ok_iff.1 h
  obtain ⟨length, _, hlength, h⟩ := stateBind_eq_ok_iff.1 h
  obtain ⟨body, _, hbody, h⟩ := stateBind_eq_ok_iff.1 h
  obtain ⟨_, _, rfl, rfl, rfl⟩ := passes_uint16.exists_of_run hindex
  obtain ⟨_, _, rfl, rfl, hpool, rfl⟩ := (passes_ofExcept _).exists_of_run hname
  obtain ⟨_, _, rfl, rfl, rfl⟩ := passes_uint32.exists_of_run hlength
  obtain ⟨content, rest, rfl, hcontent, rfl, rfl⟩ := exists_of_part_eq_ok hbody
  refine ⟨index, name, length, content, rest, ?_, hpool, hcontent, ?_⟩
  · simp only [List.nil_append, List.append_assoc]
  · simpa only [Binary.word16, Binary.word32, Binary.length_toBigEndian, List.length_nil,
      Nat.add_assoc, Nat.reduceAdd] using h

/-- What is not interpreted is the body of the attribute. What is interpreted may have other bodies
in it. -/
theorem finds_ofAttribute {inner? : String → Option Survey}
    (h : ∀ name, ∀ inner ∈ inner? name, Finds pool inner) :
    Finds pool (ofAttribute pool inner?) := by
  intro base consumed bytes bodies r hrun
  obtain ⟨index, name, length, content, rest, rfl, hname, hcontent, hrun⟩ :=
    exists_of_attribute hrun
  have hfirst : (Binary.word16 index ++ Binary.word32 length).length = 6 := by
    rw [List.length_append, Binary.word16, Binary.word32, Binary.length_toBigEndian,
      Binary.length_toBigEndian]
  rw [← List.append_assoc (Binary.word16 index)] at *
  have hused : (Binary.word16 index ++ Binary.word32 length ++ content).length =
      6 + content.length := by
    rw [List.length_append, hfirst]
  refine ⟨_, rest, rfl, ?_⟩
  rw [hused]
  generalize hinner : inner? name = inner at hrun
  cases inner with
  | none =>
    cases hrun
    refine ⟨rfl, List.forall_mem_singleton.2 ⟨[], index, content, [], ?_, hname, hcontent, rfl⟩⟩
    simp only [List.nil_append, List.append_nil, List.append_assoc]
  | some inner =>
    obtain ⟨⟨found, left⟩, _, hwithin, hrun⟩ := stateBind_eq_ok_iff.1 hrun
    cases hrun
    obtain ⟨hfound, rfl⟩ := within_eq_ok_iff.1 hwithin
    obtain ⟨used, rest', rfl, -, hstand⟩ := h name inner hinner _ _ _ _ _ hfound
    refine ⟨rfl, fun b hb => AttributeBody.StandsIn.append_left ?_⟩
    rw [hfirst]
    exact (hstand b hb).append_right rest'

/-! ## What has no bodies in it -/

/-- The decoder is local, and there are no attributes in what it gives. -/
structure Bare (others : α → List (String × UInt32)) (d : Decoder α) : Prop where
  isLocal : d.Local
  others_eq_nil : ∀ r a r', d r = .ok (a, r') → others a = []

theorem bare_map {others : β → List (String × UInt32)} {d : Decoder α} (hd : d.Local) {f : α → β}
    (h : ∀ a, others (f a) = []) : Bare others (f <$> d) where
  isLocal := hd.map f
  others_eq_nil r b r' hrun := by
    have hbind : (d >>= fun a => pure (f a)) r = .ok (b, r') := hrun
    obtain ⟨a, _, -, hpure⟩ := stateBind_eq_ok_iff.1 hbind
    cases hpure
    exact h a

end Survey

open Survey

/-! ## Class files -/

theorem Handler.local_decode : Handler.decode.Local :=
  local_uint16.bind fun _ => local_uint16.bind fun _ => local_uint16.bind fun _ =>
    local_uint16.bind fun _ => local_pure _

theorem Attribute.local_parameterLists : parameterLists.Local :=
  local_uint8.bind fun _ => local_replicate (local_counted AnnotationInfo.local_decode) _

theorem CodeDetail.bare_content? {name : String} {d : Decoder CodeDetail} (h : d ∈ content? name) :
    Bare others d := by
  unfold content? at h
  split at h <;> cases h
  · exact bare_map (local_counted TypeAnnotationInfo.local_decode) fun _ => rfl
  · exact bare_map (local_counted TypeAnnotationInfo.local_decode) fun _ => rfl

theorem Attribute.bare_content? {pool : Pool} {place : Place} {name : String}
    {d : Decoder Attribute} (hcode : ¬ (name = "Code" ∧ place = .onMethod))
    (h : d ∈ content? pool place name) : Bare others d := by
  have hannotations := local_counted AnnotationInfo.local_decode
  have htypes := local_counted TypeAnnotationInfo.local_decode
  unfold content? at h
  split at h <;> cases h
  · exact absurd ⟨rfl, rfl⟩ hcode
  · exact bare_map (local_counted local_uint16) fun _ => rfl
  · exact bare_map (local_uint16.bind fun _ => local_ofExcept _) fun _ => rfl
  · exact bare_map hannotations fun _ => rfl
  · exact bare_map hannotations fun _ => rfl
  · exact bare_map local_parameterLists fun _ => rfl
  · exact bare_map local_parameterLists fun _ => rfl
  · exact bare_map htypes fun _ => rfl
  · exact bare_map htypes fun _ => rfl
  · exact bare_map (ElementValue.local_decode _) fun _ => rfl

theorem CodeDetail.finds_survey (pool : Pool) : Finds pool (survey pool) := by
  refine finds_ofAttribute fun name inner hinner => ?_
  obtain ⟨content, hcontent, rfl⟩ := Option.map_eq_some_iff.1 hinner
  exact finds_without (bare_content? hcontent).isLocal

theorem Code.finds_survey (pool : Pool) : Finds pool (survey pool) :=
  finds_bind local_uint16 fun _ => finds_bind local_uint16 fun _ => finds_bind local_uint32 fun _ =>
    finds_bind (local_take _) fun _ => finds_bind (local_counted Handler.local_decode) fun _ =>
      (CodeDetail.finds_survey pool).all

theorem Attribute.finds_survey (pool : Pool) (place : Place) : Finds pool (survey pool place) := by
  refine finds_ofAttribute fun name inner hinner => ?_
  rw [inner?] at hinner
  split at hinner
  · cases hinner
    exact Code.finds_survey pool
  · next hcode =>
    obtain ⟨content, hcontent, rfl⟩ := Option.map_eq_some_iff.1 hinner
    exact finds_without (bare_content? hcode hcontent).isLocal

theorem Member.finds_survey (pool : Pool) (place : Place) : Finds pool (survey pool place) :=
  finds_bind local_uint16 fun _ => finds_bind local_uint16 fun _ =>
    finds_bind (local_ofExcept _) fun _ => finds_bind local_uint16 fun _ =>
      finds_bind (local_ofExcept _) fun _ => (Attribute.finds_survey pool place).all

theorem ClassFile.finds_survey (pool : Pool) : Finds pool (survey pool) :=
  finds_bind local_uint16 fun _ => finds_bind (local_classRef pool) fun _ =>
    finds_bind (local_superclassRef pool) fun _ =>
      finds_bind (local_counted (local_classRef pool)) fun _ =>
        (Member.finds_survey pool .onField).all.append ((Member.finds_survey pool .onMethod).all.append
          (Attribute.finds_survey pool .onClass).all)

end ClassAtlas
