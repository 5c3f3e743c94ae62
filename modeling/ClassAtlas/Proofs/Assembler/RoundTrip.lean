import ClassAtlas.Journal
import ClassAtlas.Proofs.Assembler.Members

/-!
# Class files are read back

An assembled class file is decoded as the class that it was made from, with a constant pool that has
each entry once.

## Main definitions

* `ClassSpec.Encodable` says that a class has a written form, and `ClassSpec.Fits` that its code also
  has instructions only.
* `ClassSpec.DecodedAs` relates a class to what is decoded, and `ClassSpec.ReadAs` to what is read
  from its code.
* `Pool.Distinct` says that a pool has each entry once.

## Main results

* `ClassSpec.Encodable.decode_assemble`: an assembled class file is decoded as it was described.
-/

namespace ClassAtlas

open Decoder

/-- Each entry has one index only, and index 0 is not used. -/
structure Pool.Distinct (pool : Pool) : Prop where
  unique : ∀ {e i j}, pool.get i = .ok e → pool.get j = .ok e → i = j
  zero : ∀ e, pool.get 0 ≠ .ok e

theorem Pool.Distinct.ne_zero {pool : Pool} (h : pool.Distinct) {i : UInt16} {name : String}
    (hi : pool.className i = .ok name) : i ≠ 0 := by
  rintro rfl
  rw [Pool.className] at hi
  cases hget : pool.get 0 with
  | ok e => exact h.zero e hget
  | error e => simp [hget, bind, Except.bind] at hi

/-- The number of bytes of the text of an entry. -/
def PoolEntry.textLength : PoolEntry → Nat
  | .utf8 text => (Text.utf8Encode text.toList).length
  | _ => 0

namespace ClassSpec

/-- The names of attributes that are interpreted on a class. -/
def interpretedNames : List String :=
  ["Signature", "RuntimeVisibleAnnotations", "RuntimeInvisibleAnnotations",
    "RuntimeVisibleTypeAnnotations", "RuntimeInvisibleTypeAnnotations"]

theorem content?_eq_none {pool : Pool} {name : String} (h : name ∉ interpretedNames) :
    Attribute.content? pool .onClass name = none := by
  unfold Attribute.content?
  split <;> simp_all [interpretedNames]

/-- The attributes of a class that have something to say, in their fixed order. -/
def attributeSpecs (c : ClassSpec) : List AttributeSpec :=
  c.signature.toList.map .signature ++
    ([c.annotations].filter (!·.isEmpty)).map (.annotations true) ++
    ([c.invisibleAnnotations].filter (!·.isEmpty)).map (.annotations false) ++
    c.rawAttributes.map fun r => .other r.1

end ClassSpec

namespace Assemble

/-- Everything after the constant pool, and the bodies of all attributes. -/
def classParts (c : ClassSpec) : Assemble (List UInt8 × List (List UInt8)) := do
  let thisClass ← classIndex c.name
  let superclass ← superclassIndex c.superclass
  let interfaces ← counted classIndex c.interfaces
  let fields ← c.fields.mapM memberParts
  let methods ← c.methods.mapM memberParts
  let signature ← ifSome "Signature" c.signature textIndex
  let visible ← unlessEmpty "RuntimeVisibleAnnotations" c.annotations annotationSpecs
  let invisible ← unlessEmpty "RuntimeInvisibleAnnotations" c.invisibleAnnotations annotationSpecs
  let list := signature ++ visible ++ invisible ++ c.rawAttributes
  let attrs ← attributes list
  return (Binary.word16 c.accessFlags ++ thisClass ++ superclass ++ interfaces ++
    (length16 c.fields ++ (fields.map (·.1)).flatten) ++
    (length16 c.methods ++ (methods.map (·.1)).flatten) ++ attrs,
    fields.flatMap (·.2) ++ methods.flatMap (·.2) ++ list.map (·.2))

theorem mapM_memberSpec (l : List MemberSpec) :
    l.mapM memberSpec = (·.map (·.1)) <$> l.mapM memberParts := by
  induction l with
  | nil => simp
  | cons m l ih => simp [List.mapM_cons, ih, memberSpec_eq]

theorem classBody_eq (c : ClassSpec) : classBody c = (·.1) <$> classParts c := by
  simp [classBody, classParts, counted, concat, mapM_memberSpec, Functor.map_map]

end Assemble

namespace ClassSpec

/-- The pool entries of the assembled class. -/
def collected (c : ClassSpec) : PoolWriter := ((Assemble.classParts c).run .empty).2

/-- The bodies of all attributes of the assembled class, those inside code apart. -/
def attributeBodies (c : ClassSpec) : List (List UInt8) :=
  ((Assemble.classParts c).run .empty).1.2

/-- The parts of the class fit the format. -/
structure Fits (c : ClassSpec) : Prop where
  version : minMajorVersion ≤ c.major.toNat ∧ c.major.toNat ≤ maxMajorVersion
  interfaces : c.interfaces.length ≤ 65535
  fields : c.fields.length ≤ 65535 ∧ c.fields.all MemberSpec.fits = true
  methods : c.methods.length ≤ 65535 ∧ c.methods.all MemberSpec.fits = true
  annotations : AnnotationSpec.allFit c.annotations = true
  invisibleAnnotations : AnnotationSpec.allFit c.invisibleAnnotations = true
  attributes : c.attributeSpecs.length ≤ 65535
  rawAttributes : ∀ r ∈ c.rawAttributes, r.1 ∉ interpretedNames
  /-- All entries and the slots behind wide ones can be counted in two bytes. -/
  pool : c.collected.slotCount ≤ 65535
  /-- No text is longer than its length of two bytes can tell. -/
  texts : ∀ e ∈ c.collected.ordered, e.textLength ≤ 65535
  /-- No attribute is longer than its length of four bytes can tell. -/
  bodies : ∀ body ∈ c.attributeBodies, body.length < 2 ^ 32

/-- The parts of the class can be written, whatever stands in its code. -/
structure Encodable (c : ClassSpec) : Prop where
  version : minMajorVersion ≤ c.major.toNat ∧ c.major.toNat ≤ maxMajorVersion
  interfaces : c.interfaces.length ≤ 65535
  fields : c.fields.length ≤ 65535 ∧ c.fields.all MemberSpec.encodable = true
  methods : c.methods.length ≤ 65535 ∧ c.methods.all MemberSpec.encodable = true
  annotations : AnnotationSpec.allFit c.annotations = true
  invisibleAnnotations : AnnotationSpec.allFit c.invisibleAnnotations = true
  attributes : c.attributeSpecs.length ≤ 65535
  rawAttributes : ∀ r ∈ c.rawAttributes, r.1 ∉ interpretedNames
  pool : c.collected.slotCount ≤ 65535
  texts : ∀ e ∈ c.collected.ordered, e.textLength ≤ 65535
  bodies : ∀ body ∈ c.attributeBodies, body.length < 2 ^ 32

theorem all_encodable_of_fits {l : List MemberSpec} (h : l.all MemberSpec.fits = true) :
    l.all MemberSpec.encodable = true ∧ ∀ m ∈ l, m.IsRawFree := by
  rw [List.all_eq_true] at h
  refine ⟨List.all_eq_true.2 fun m hm => ?_, fun m hm => ?_⟩
  · exact (MemberSpec.encodable_of_fits (h m hm)).1
  · exact (MemberSpec.encodable_of_fits (h m hm)).2

theorem Fits.encodable {c : ClassSpec} (h : c.Fits) : c.Encodable where
  version := h.version
  interfaces := h.interfaces
  fields := ⟨h.fields.1, (all_encodable_of_fits h.fields.2).1⟩
  methods := ⟨h.methods.1, (all_encodable_of_fits h.methods.2).1⟩
  annotations := h.annotations
  invisibleAnnotations := h.invisibleAnnotations
  attributes := h.attributes
  rawAttributes := h.rawAttributes
  pool := h.pool
  texts := h.texts
  bodies := h.bodies

/-- The attributes of a class that are decoded by their shape, in their fixed order. -/
def namedAttributes (c : ClassSpec) : List AttributeSpec :=
  c.signature.toList.map .signature ++
    ([c.annotations].filter (!·.isEmpty)).map (.annotations true) ++
    ([c.invisibleAnnotations].filter (!·.isEmpty)).map (.annotations false)

/-- The class is decoded as it was described; raw attributes come last and are kept by their names
and lengths. -/
structure DecodedAs (pool : Pool) (c : ClassSpec) (f : ClassFile) : Prop where
  accessFlags : f.accessFlags = c.accessFlags
  thisClass : f.thisClass = c.name
  superclass : f.superclass = c.superclass
  interfaces : f.interfaces = c.interfaces
  fields : List.Forall₂ (MemberSpec.DecodedAs pool .onField) c.fields f.fields
  methods : List.Forall₂ (MemberSpec.DecodedAs pool .onMethod) c.methods f.methods
  attributes : ∃ named, f.attributes = named ++
      c.rawAttributes.map (fun r => .other r.1 (UInt32.ofNat r.2.length)) ∧
    List.Forall₂ (fun s a => s.DecodedAs pool .onClass a) c.namedAttributes named

structure ReadAs (pool : Pool) (c : ClassSpec) (f : ClassFile) : Prop where
  accessFlags : f.accessFlags = c.accessFlags
  thisClass : f.thisClass = c.name
  superclass : f.superclass = c.superclass
  interfaces : f.interfaces = c.interfaces
  fields : List.Forall₂ (MemberSpec.ReadAs pool .onField) c.fields f.fields
  methods : List.Forall₂ (MemberSpec.ReadAs pool .onMethod) c.methods f.methods
  attributes : List.Forall₂ (fun s a => s.ReadAs pool .onClass a) c.attributeSpecs f.attributes

theorem readAs_of_decodedAs {pool : Pool} {place : Place} {l : List MemberSpec} {ms : List Member}
    (hfits : l.all MemberSpec.fits = true)
    (h : List.Forall₂ (MemberSpec.DecodedAs pool place) l ms) :
    List.Forall₂ (MemberSpec.ReadAs pool place) l ms :=
  ((List.forall₂_and_left _ _).2 ⟨(all_encodable_of_fits hfits).2, h⟩).imp
    fun _ _ hm => hm.2.readAs hm.1

/-- A class without raw bytes in its code is read as it was decoded. -/
theorem DecodedAs.readAs {pool : Pool} {c : ClassSpec} {f : ClassFile} (h : c.DecodedAs pool f)
    (hfits : c.Fits) : c.ReadAs pool f where
  accessFlags := h.accessFlags
  thisClass := h.thisClass
  superclass := h.superclass
  interfaces := h.interfaces
  fields := readAs_of_decodedAs hfits.fields.2 h.fields
  methods := readAs_of_decodedAs hfits.methods.2 h.methods
  attributes := by
    obtain ⟨named, hf, hnamed⟩ := h.attributes
    rw [hf]
    refine List.rel_append ?_ ?_
    · have hcode : ∀ s ∈ c.namedAttributes, ∀ code, s = .code code →
          ∀ i ∈ code.instructions, i.isRaw = false := by
        rintro s hs code rfl
        simp [namedAttributes] at hs
      exact ((List.forall₂_and_left _ _).2 ⟨hcode, hnamed⟩).imp fun s a hs => hs.2.readAs hs.1
    · rw [List.forall₂_map_left_iff, List.forall₂_map_right_iff, List.forall₂_same]
      exact fun r _ => ⟨_, _, rfl⟩

end ClassSpec

namespace Assemble

theorem reads_classRef {pool : Pool} {name : String} {bytes : List UInt8}
    (h : ∃ i, bytes = Binary.word16 i ∧ pool.className i = .ok name) :
    (ClassFile.classRef pool).Reads bytes (· = name) := by
  obtain ⟨i, rfl, hi⟩ := h
  refine (reads_uint16 i).bind_end fun j hj => ?_
  rw [hj]
  exact reads_ofExcept hi

theorem emits_superclassIndex (superclass : Option String) :
    (superclassIndex superclass).Emits fun pool bytes => pool.Distinct →
      (ClassFile.superclassRef pool).Reads bytes (· = superclass) := by
  cases superclass with
  | none =>
    refine emits_pure fun pool _ => ?_
    refine (reads_uint16 0).bind_end fun i hi => ?_
    rw [if_pos hi]
    exact reads_pure rfl
  | some name =>
    refine (emits_classIndex name).imp fun pool bytes hbytes hpool => ?_
    obtain ⟨i, rfl, hi⟩ := hbytes
    refine (reads_uint16 i).bind_end fun j hj => ?_
    rw [hj, if_neg (hpool.ne_zero hi)]
    exact (reads_ofExcept hi).bind_pure fun a ha => congrArg some ha

/-- Members that were written one after the other, each with the bodies of its attributes. -/
theorem reads_members {pool : Pool} {place : Place} {l : List MemberSpec}
    {parts : List (List UInt8 × List (List UInt8))} (hlen : l.length ≤ 65535)
    (h : List.Forall₂ (fun (m : MemberSpec) (p : List UInt8 × List (List UInt8)) =>
      (∀ body ∈ p.2, body.length < 2 ^ 32) →
        (Member.decode pool place).Reads p.1 (m.DecodedAs pool place)) l parts)
    (hshort : ∀ body ∈ parts.flatMap (·.2), body.length < 2 ^ 32) :
    (Decoder.counted (Member.decode pool place)).Reads
      (length16 l ++ (parts.map (·.1)).flatten)
      (List.Forall₂ (MemberSpec.DecodedAs pool place) l) := by
  refine reads_counted hlen (reads_replicate ?_)
  rw [List.forall₂_map_right_iff]
  clear hlen
  induction h with
  | nil => exact .nil
  | cons hfirst _ ih =>
    simp only [List.flatMap_cons, List.mem_append] at hshort
    exact .cons (hfirst fun body hbody => hshort body (.inl hbody))
      (ih fun body hbody => hshort body (.inr hbody))

/-- The attributes of a class: those that are decoded by their shape, and then the raw ones. -/
theorem reads_classAttributes {pool : Pool} {c : ClassSpec} (h : c.Encodable)
    {named : List (String × List UInt8)} {bytes : List UInt8}
    (hbytes : WrittenAttributes pool (named ++ c.rawAttributes) bytes)
    (hnamed : List.Forall₂ (fun s => AttributeWritten pool .onClass (s.DecodedAs pool .onClass))
      c.namedAttributes named)
    (hshort : ∀ a ∈ named ++ c.rawAttributes, a.2.length < 2 ^ 32) :
    (Attribute.decodeAll pool .onClass).Reads bytes fun attributes => ∃ named, attributes = named ++
        c.rawAttributes.map (fun r => .other r.1 (UInt32.ofNat r.2.length)) ∧
      List.Forall₂ (fun s a => s.DecodedAs pool .onClass a) c.namedAttributes named := by
  -- what is expected of each attribute: a shape, or exactly a name with a length
  let shapes := c.namedAttributes.map fun s a => s.DecodedAs pool .onClass a
  let raw := c.rawAttributes.map fun r a => a = Attribute.other r.1 (UInt32.ofNat r.2.length)
  have hraw : List.Forall₂ (AttributeWritten pool .onClass) raw c.rawAttributes := by
    rw [List.forall₂_map_left_iff, List.forall₂_same]
    intro r hr _
    rw [AttributeReads, ClassSpec.content?_eq_none (h.rawAttributes r hr)]
  have hall := List.rel_append (List.forall₂_map_left_iff.2 hnamed : List.Forall₂ _ shapes _) hraw
  have hlen : (shapes ++ raw).length ≤ 65535 := by
    have hcount := h.attributes
    simp only [ClassSpec.attributeSpecs, List.length_append, List.length_map] at hcount
    simp only [shapes, raw, ClassSpec.namedAttributes, List.length_append, List.length_map]
    omega
  refine (reads_decodeAll (T := id) hbytes hall hlen hshort).imp fun attributes hattributes => ?_
  have htake := List.forall₂_take shapes.length hattributes
  have hdrop := List.forall₂_drop shapes.length hattributes
  rw [List.take_left, List.forall₂_map_left_iff] at htake
  rw [List.drop_left, List.forall₂_map_left_iff] at hdrop
  have hsame : List.Forall₂ (· = ·) (c.rawAttributes.map fun r =>
      Attribute.other r.1 (UInt32.ofNat r.2.length)) (attributes.drop shapes.length) :=
    List.forall₂_map_left_iff.2 (hdrop.imp fun _ _ ha => Eq.symm ha)
  rw [List.forall₂_eq_eq_eq] at hsame
  exact ⟨attributes.take shapes.length, by rw [hsame, List.take_append_drop], htake⟩

theorem emits_classParts {c : ClassSpec} (h : c.Encodable) :
    (classParts c).Emits fun pool p => pool.Distinct → (∀ body ∈ p.2, body.length < 2 ^ 32) →
      (ClassFile.decoder pool).Reads p.1 (c.DecodedAs pool) := by
  have hfields := List.all_eq_true.1 h.fields.2
  have hmethods := List.all_eq_true.1 h.methods.2
  refine (emits_classIndex c.name).bind fun thisClass => ?_
  refine (emits_superclassIndex c.superclass).bind fun superclass => ?_
  refine (emits_counted (d := ClassFile.classRef) (R := fun _ name name' => name' = name)
    h.interfaces fun name _ => (emits_classIndex name).imp fun _ _ => reads_classRef).bind
    fun interfaces => ?_
  refine (Emits.mapM fun m hm => emits_memberParts .onField (hfields m hm)).bind fun fields => ?_
  refine (Emits.mapM fun m hm => emits_memberParts .onMethod (hmethods m hm)).bind
    fun methods => ?_
  refine (emits_ifSome fun text _ => emits_signatureAttribute .onClass text).bind
    fun signature => ?_
  refine (emits_unlessEmptyAttribute
    (emits_annotationsAttribute .onClass true h.annotations)).bind fun visible => ?_
  refine (emits_unlessEmptyAttribute
    (emits_annotationsAttribute .onClass false h.invisibleAnnotations)).bind fun invisible => ?_
  refine (emits_attributes _).bind_pure fun pool attrs hattrs hinvisible hvisible hsignature
    hmethods hfields hinterfaces hsuperclass hthis hpool hshort => ?_
  have hnamed := List.rel_append (List.rel_append hsignature hvisible) hinvisible
  simp only [List.mem_append] at hshort
  have hread := reads_classAttributes h hattrs hnamed fun a ha =>
    hshort a.2 (.inr (List.mem_map_of_mem ha))
  have hfields := reads_members h.fields.1 hfields fun body hbody => hshort body (.inl (.inl hbody))
  have hmethods := reads_members h.methods.1 hmethods fun body hbody =>
    hshort body (.inl (.inr hbody))
  dsimp only
  simp only [List.append_assoc] at hfields hmethods ⊢
  refine (reads_uint16 c.accessFlags).bind fun flags hflags => ?_
  refine (reads_classRef hthis).bind fun this hthis => ?_
  refine (hsuperclass hpool).bind fun superclass hsuperclass => ?_
  refine hinterfaces.bind fun interfaces hinterfaces => ?_
  rw [← List.append_assoc (length16 c.fields), ← List.append_assoc (length16 c.methods)]
  refine hfields.bind fun fs hfs => hmethods.bind fun ms hms => hread.bind_pure fun as has => ?_
  have heq : interfaces = c.interfaces := by
    have hsame : List.Forall₂ (· = ·) c.interfaces interfaces :=
      hinterfaces.imp fun _ _ hname => hname.symm
    rw [List.forall₂_eq_eq_eq] at hsame
    exact hsame.symm
  exact ⟨hflags, hthis, hsuperclass, heq, hfs, hms, has⟩

end Assemble

theorem PoolWriter.writable_of_texts {w : PoolWriter} (h : ∀ e ∈ w.ordered, e.textLength ≤ 65535) :
    ∀ e ∈ w.ordered, e.Writable Text.utf8Encode := by
  intro e he
  cases e with
  | utf8 t => exact ⟨h (.utf8 t) he, Text.modifiedDecode?_utf8Encode t.toList⟩
  | _ => trivial

theorem PoolWriter.bytes_eq (w : PoolWriter) :
    w.bytes = w.ordered.flatMap (·.encodeWith Text.utf8Encode) := by
  rw [bytes, ordered, List.flatMap_map]
  rfl

theorem PoolWriter.Laid.distinct {w : PoolWriter} (h : w.Laid) : w.pool.Distinct where
  unique := h.index_unique
  zero e he := by
    obtain ⟨before, after, _, hzero⟩ := Pool.exists_of_get_ofEntries he
    rw [UInt16.toNat_zero] at hzero
    omega

namespace ClassSpec

theorem assemble_eq (c : ClassSpec) :
    c.assemble = (Binary.word32 classFileMagic ++ (Binary.word16 0 ++ (Binary.word16 c.major ++
      (Binary.word16 c.collected.next ++ c.collected.bytes)))) ++
      ((Assemble.classParts c).run .empty).1.1 := by
  have hrun : (Assemble.classBody c).run .empty =
      (((Assemble.classParts c).run .empty).1.1, c.collected) := by
    rw [Assemble.classBody_eq]
    rfl
  simp only [assemble, hrun, List.append_assoc]

/-- An assembled class file is decoded as the class it was made from. -/
theorem Encodable.decode_assemble {c : ClassSpec} (h : c.Encodable) :
    ∃ u, CompiledUnit.decode c.assemble = .ok u ∧ u.version = ⟨c.major, 0⟩ ∧ u.pool.Distinct ∧
      c.DecodedAs u.pool u.classFile := by
  obtain ⟨hgrows, hbody⟩ := Assemble.emits_classParts h .empty
  have hlaid : c.collected.Laid := PoolWriter.laid_empty.of_grows hgrows
  have hread := hbody c.collected.pool (hlaid.coveredBy_pool h.pool) hlaid.distinct h.bodies
  have hnext : Binary.word16 c.collected.next =
      Binary.toBigEndian 2 (1 + (Pool.layout c.collected.ordered).length) := by
    have hle := h.pool
    rw [Binary.word16, hlaid.next_eq, UInt16.toNat_ofNat', ← PoolWriter.slotCount,
      Nat.mod_eq_of_lt (by omega)]
  have hheader := PoolHeader.readsTo_decoder 0 h.version (PoolWriter.writable_of_texts h.texts) h.pool
  rw [← hnext, ← PoolWriter.bytes_eq] at hheader
  have hassemble := c.assemble_eq
  generalize hstart : Binary.word32 classFileMagic ++ (Binary.word16 0 ++ (Binary.word16 c.major ++
      (Binary.word16 c.collected.next ++ c.collected.bytes))) = start at hheader hassemble
  generalize ((Assemble.classParts c).run .empty).1.1 = body at hread hassemble
  obtain ⟨header, hrun, rfl⟩ := hheader 0 0 body
  obtain ⟨f, hf, hread⟩ := hread start.length 0 []
  have hfour : ¬ (c.assemble.take 4).length < 4 := by
    simp only [hassemble, ← hstart, Binary.word32, List.length_take, List.length_append,
      Binary.length_toBigEndian]
    omega
  have hdecode : PoolHeader.decode c.assemble =
      .ok ⟨⟨c.major, 0⟩, c.collected.pool, start.length⟩ := by
    rw [PoolHeader.decode, if_neg hfour, hassemble]
    have hvalue := run'_ofBytes hrun
    rwa [Nat.zero_add] at hvalue
  refine ⟨⟨⟨c.major, 0⟩, c.collected.pool, f⟩, ?_, rfl, hlaid.distinct, hread⟩
  have hrest : ClassFile.decodeAt c.collected.pool c.assemble start.length = .ok f := by
    rw [ClassFile.decodeAt, hassemble, if_neg (by simp), List.drop_left]
    rw [List.append_nil] at hf
    exact run'_ofBytes hf
  rw [CompiledUnit.decode, hdecode]
  show (ClassFile.decodeAt _ _ _ >>= _) = _
  rw [hrest]
  rfl

theorem Fits.decode_assemble {c : ClassSpec} (h : c.Fits) :
    ∃ u, CompiledUnit.decode c.assemble = .ok u ∧ u.version = ⟨c.major, 0⟩ ∧ u.pool.Distinct ∧
      c.ReadAs u.pool u.classFile := by
  obtain ⟨u, hu, hversion, hpool, hdecoded⟩ := h.encodable.decode_assemble
  exact ⟨u, hu, hversion, hpool, hdecoded.readAs h⟩

/-- Decoding undoes assembling: whatever name the file is supplied under, it is decoded, and the unit
is the one that was described. The supplied name only shows in the journal. -/
theorem Encodable.decode_undoes_assemble {c : ClassSpec} (h : c.Encodable) :
    ∃ u, CompiledUnit.decode c.assemble = .ok u ∧ u.name = c.name ∧ u.version = ⟨c.major, 0⟩ ∧
      c.DecodedAs u.pool u.classFile ∧
      ∀ supplied, Journal.ofExtraction supplied c.assemble none = Journal.decoded supplied u := by
  obtain ⟨u, hu, hversion, -, hdecoded⟩ := h.decode_assemble
  refine ⟨u, hu, hdecoded.thisClass, hversion, hdecoded, fun supplied => ?_⟩
  simp [Journal.ofExtraction, hu]

/-- A class whose code has raw bytes that are no instruction, and a field that has code. -/
def rawBytes : ClassSpec where
  name := "p/Ä"
  major := 69
  accessFlags := 0x21
  superclass := none
  interfaces := ["[p/I"]
  fields := [⟨0, "f", "no descriptor", some "no signature", [], [], [], [], [], none,
    some ⟨[.returnVoid], [], []⟩⟩]
  methods := [⟨0, "m", "", none, ["p/E"], [], [],
    [[⟨"Lp/Mark;", [("of", .array [.int 7, .classValue "V"])]⟩]], [⟨"Lp/Use;", []⟩],
    some (.enum "Lp/Color;" "RED"),
    some ⟨[.raw [0xfe, 0x12], .loadString "\x00", .loadLong 7,
      .onMember .invokeInterface "p/I" "run" "()V"], ["p/E"], [⟨"Lp/Use;", []⟩]⟩⟩]
  signature := some ""
  annotations := []
  invisibleAnnotations := [⟨"Lp/Mark;", []⟩]
  rawAttributes := [("SourceFile", [0, 1]), ("Code", [])]

theorem encodable_rawBytes : rawBytes.Encodable where
  version := by decide
  interfaces := by decide
  fields := by decide
  methods := by decide
  annotations := by decide
  invisibleAnnotations := by decide
  attributes := by decide
  rawAttributes := by decide
  pool := by decide +kernel
  texts := by decide +kernel
  bodies := by decide +kernel

theorem decode_undoes_assemble_rawBytes :
    rawBytes.Encodable ∧ ∃ u, CompiledUnit.decode rawBytes.assemble = .ok u ∧ u.name = "p/Ä" ∧
      u.version = ⟨69, 0⟩ ∧ rawBytes.DecodedAs u.pool u.classFile := by
  obtain ⟨u, hu, hname, hversion, hdecoded, -⟩ := encodable_rawBytes.decode_undoes_assemble
  exact ⟨encodable_rawBytes, u, hu, hname, hversion, hdecoded⟩

end ClassSpec

end ClassAtlas
