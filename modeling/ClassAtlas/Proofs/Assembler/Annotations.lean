import ClassAtlas.Assembler.Emit
import ClassAtlas.ClassFile.Annotations
import ClassAtlas.Proofs.Assembler.Interning

/-!
# Annotations are read back

What the assembler writes for an annotation is read as an annotation with the same names and values.
The decoder counts levels of nesting down; `ElementSpec.fits n` says that `n` levels are enough.

## Main definitions

* `ElementSpec.fits` and `AnnotationSpec.fits` say that annotations have a written form.
* `ElementSpec.ReadAs` and `AnnotationSpec.ReadAs` relate them to what is read.
* `AnnotationSpec.DecodedAs` does so for annotations of uses of types.
-/

namespace ClassAtlas

open Decoder

/-! ## Names and lists -/

theorem Pool.utf8_eq {pool : Pool} {i : UInt16} {text : String}
    (h : pool.get i = .ok (.utf8 text)) : pool.utf8 i = .ok text := by
  rw [Pool.utf8, h]
  rfl

theorem Pool.className_eq {pool : Pool} {index i : UInt16} {name : String}
    (h : pool.get index = .ok (.classEntry i)) (hi : pool.get i = .ok (.utf8 name)) :
    pool.className index = .ok name := by
  rw [Pool.className, h]
  exact Pool.utf8_eq hi

namespace Assemble

theorem emits_textIndex (text : String) :
    (textIndex text).Emits fun pool bytes => ∃ i, bytes = Binary.word16 i ∧
      pool.utf8 i = .ok text :=
  (emits_utf8 text).bind_pure fun _ i hi => ⟨i, rfl, Pool.utf8_eq hi⟩

theorem emits_classIndex (name : String) :
    (classIndex name).Emits fun pool bytes => ∃ i, bytes = Binary.word16 i ∧
      pool.className i = .ok name := by
  refine (emits_classEntry name).bind_pure fun pool index hindex => ?_
  obtain ⟨i, hindex, hi⟩ := hindex
  exact ⟨index, rfl, Pool.className_eq hindex hi⟩

variable {α β : Type}

theorem emits_concat {part : α → Assemble (List UInt8)} {Q : Pool → α → List UInt8 → Prop}
    {parts : List α} (h : ∀ a ∈ parts, (part a).Emits fun pool bytes => Q pool a bytes) :
    (concat part parts).Emits fun pool bytes =>
      ∃ chunks, bytes = chunks.flatten ∧ List.Forall₂ (Q pool) parts chunks :=
  (Emits.mapM h).bind_pure fun _ chunks hchunks => ⟨chunks, rfl, hchunks⟩

theorem emits_chunks {part : α → Assemble (List UInt8)} {Q : Pool → α → List UInt8 → Prop}
    {parts : List α} (h : ∀ a ∈ parts, (part a).Emits fun pool bytes => Q pool a bytes) :
    (counted part parts).Emits fun pool bytes => ∃ chunks,
      bytes = length16 parts ++ chunks.flatten ∧ List.Forall₂ (Q pool) parts chunks := by
  refine (emits_concat h).bind_pure fun pool bytes hbytes => ?_
  obtain ⟨chunks, rfl, hchunks⟩ := hbytes
  exact ⟨chunks, rfl, hchunks⟩

theorem emits_counted {part : α → Assemble (List UInt8)} {d : Pool → Decoder β}
    {R : Pool → α → β → Prop} {parts : List α} (hlen : parts.length ≤ 65535)
    (h : ∀ a ∈ parts, (part a).Emits fun pool bytes => (d pool).Reads bytes (R pool a)) :
    (counted part parts).Emits fun pool bytes =>
      (Decoder.counted (d pool)).Reads bytes (List.Forall₂ (R pool) parts) := by
  refine (emits_chunks h).imp fun pool bytes hbytes => ?_
  obtain ⟨chunks, rfl, hchunks⟩ := hbytes
  exact reads_counted hlen (reads_replicate hchunks)

end Assemble

/-! ## Element values -/

mutual

/-- The value has at most so many levels, and its lists have lengths of two bytes. -/
def ElementSpec.fits (levels : Nat) : ElementSpec → Bool
  | .int _ | .str _ | .enum .. | .classValue _ => 0 < levels
  | .nested _ elements =>
    0 < levels && elements.length ≤ 65535 && ElementSpec.namedFit (levels - 1) elements
  | .array values =>
    0 < levels && values.length ≤ 65535 && ElementSpec.allFit (levels - 1) values

def ElementSpec.namedFit (levels : Nat) : List (String × ElementSpec) → Bool
  | [] => true
  | (_, value) :: rest => value.fits levels && ElementSpec.namedFit levels rest

def ElementSpec.allFit (levels : Nat) : List ElementSpec → Bool
  | [] => true
  | value :: rest => value.fits levels && ElementSpec.allFit levels rest

end

mutual

/-- The value is read as a value with the same names and constants. -/
def ElementSpec.ReadAs (pool : Pool) : ElementSpec → ElementValue → Prop
  | .int n, .const tag i => tag = 'I'.toUInt8 ∧ pool.get i = .ok (.integer n)
  | .str text, .const tag i => tag = 's'.toUInt8 ∧ pool.utf8 i = .ok text
  | .enum descriptor constant, .enum type name =>
    pool.utf8 type = .ok descriptor ∧ pool.utf8 name = .ok constant
  | .classValue descriptor, .classInfo i => pool.utf8 i = .ok descriptor
  | .nested descriptor elements, .nested type values =>
    pool.utf8 type = .ok descriptor ∧ ElementSpec.NamedReadAs pool elements values
  | .array elements, .array values => ElementSpec.AllReadAs pool elements values
  | _, _ => False

def ElementSpec.NamedReadAs (pool : Pool) :
    List (String × ElementSpec) → List (UInt16 × ElementValue) → Prop
  | [], [] => True
  | (name, element) :: elements, (i, value) :: values =>
    pool.utf8 i = .ok name ∧ element.ReadAs pool value ∧
      ElementSpec.NamedReadAs pool elements values
  | _, _ => False

def ElementSpec.AllReadAs (pool : Pool) : List ElementSpec → List ElementValue → Prop
  | [], [] => True
  | element :: elements, value :: values =>
    element.ReadAs pool value ∧ ElementSpec.AllReadAs pool elements values
  | _, _ => False

end

namespace ElementValue

/-- A tag is read first; the levels inside are one less. -/
theorem reads_decode {levels : Nat} (hlevels : 0 < levels) {tag : UInt8} {bytes : List UInt8}
    {P : ElementValue → Prop}
    (h : ∀ offset, (body (decode (levels - 1)) tag offset).Reads bytes P) :
    (decode levels).Reads (tag :: bytes) P := by
  obtain ⟨n, rfl⟩ := Nat.exists_eq_add_of_lt hlevels
  refine reads_position.bind_nil fun offset _ => ?_
  refine (reads_uint8 tag).bind fun a ha => ?_
  rw [ha]
  exact h offset

/-- One element of an annotation. -/
def namedElement (value : Decoder ElementValue) : Decoder (UInt16 × ElementValue) := do
  let name ← uint16
  let value ← value
  return (name, value)

end ElementValue

namespace Assemble

open ElementValue

mutual

theorem emits_element (levels : Nat) : (e : ElementSpec) → e.fits levels = true →
    (element e).Emits fun pool bytes => (ElementValue.decode levels).Reads bytes (e.ReadAs pool)
  | .int n, hfits => by
    rw [ElementSpec.fits, decide_eq_true_eq] at hfits
    rw [element]
    refine (emits_intern (.integer n)).bind_pure fun pool i hi => ?_
    refine reads_decode hfits fun offset => ?_
    refine (reads_uint16 i).bind_pure fun j hj => ?_
    rw [ElementSpec.ReadAs, hj]
    exact ⟨rfl, hi⟩
  | .str text, hfits => by
    rw [ElementSpec.fits, decide_eq_true_eq] at hfits
    rw [element]
    refine (emits_textIndex text).bind_pure fun pool bytes hbytes => ?_
    obtain ⟨i, rfl, hi⟩ := hbytes
    refine reads_decode hfits fun offset => ?_
    refine (reads_uint16 i).bind_pure fun j hj => ?_
    rw [ElementSpec.ReadAs, hj]
    exact ⟨rfl, hi⟩
  | .enum descriptor constant, hfits => by
    rw [ElementSpec.fits, decide_eq_true_eq] at hfits
    rw [element]
    refine (emits_textIndex descriptor).bind fun type => ?_
    refine (emits_textIndex constant).bind_pure fun pool name hname htype => ?_
    obtain ⟨i, rfl, hi⟩ := htype
    obtain ⟨j, rfl, hj⟩ := hname
    refine reads_decode hfits fun offset => ?_
    refine (reads_uint16 i).bind fun a ha => (reads_uint16 j).bind_pure fun b hb => ?_
    rw [ElementSpec.ReadAs, ha, hb]
    exact ⟨hi, hj⟩
  | .classValue descriptor, hfits => by
    rw [ElementSpec.fits, decide_eq_true_eq] at hfits
    rw [element]
    refine (emits_textIndex descriptor).bind_pure fun pool bytes hbytes => ?_
    obtain ⟨i, rfl, hi⟩ := hbytes
    refine reads_decode hfits fun offset => ?_
    refine (reads_uint16 i).bind_pure fun j hj => ?_
    rw [ElementSpec.ReadAs, hj]
    exact hi
  | .nested descriptor values, hfits => by
    simp only [ElementSpec.fits, Bool.and_eq_true, decide_eq_true_eq] at hfits
    obtain ⟨⟨hlevels, hlen⟩, hvalues⟩ := hfits
    rw [element]
    refine (emits_textIndex descriptor).bind fun type => ?_
    refine (emits_namedElements (levels - 1) values hvalues).bind_pure
      fun pool bytes hbytes htype => ?_
    obtain ⟨i, rfl, hi⟩ := htype
    simp only [List.cons_append, List.append_assoc]
    refine reads_decode hlevels fun offset => ?_
    refine (reads_uint16 i).bind fun a ha => ?_
    refine (reads_counted hlen hbytes).bind_pure fun vs hvs => ?_
    rw [ElementSpec.ReadAs, ha]
    exact ⟨hi, hvs⟩
  | .array values, hfits => by
    simp only [ElementSpec.fits, Bool.and_eq_true, decide_eq_true_eq] at hfits
    obtain ⟨⟨hlevels, hlen⟩, hvalues⟩ := hfits
    rw [element]
    refine (emits_elements (levels - 1) values hvalues).bind_pure fun pool bytes hbytes => ?_
    refine reads_decode hlevels fun offset => ?_
    refine (reads_counted hlen hbytes).bind_pure fun vs hvs => ?_
    rw [ElementSpec.ReadAs]
    exact hvs

theorem emits_namedElements (levels : Nat) : (l : List (String × ElementSpec)) →
    ElementSpec.namedFit levels l = true →
    (namedElements l).Emits fun pool bytes =>
      (replicate (namedElement (ElementValue.decode levels)) l.length).Reads bytes
        (ElementSpec.NamedReadAs pool l)
  | [], _ => by
    rw [namedElements]
    exact emits_pure fun pool => reads_pure (by rw [ElementSpec.NamedReadAs]; trivial)
  | (name, value) :: rest, hfits => by
    rw [ElementSpec.namedFit, Bool.and_eq_true] at hfits
    rw [namedElements]
    refine (emits_textIndex name).bind fun first => ?_
    refine (emits_element levels value hfits.1).bind fun second => ?_
    refine (emits_namedElements levels rest hfits.2).bind_pure
      fun pool others hothers hsecond hfirst => ?_
    obtain ⟨i, rfl, hi⟩ := hfirst
    have hnamed : (namedElement (ElementValue.decode levels)).Reads (Binary.word16 i ++ second)
        fun p => p.1 = i ∧ value.ReadAs pool p.2 :=
      (reads_uint16 i).bind fun a ha => hsecond.bind_pure fun v hv => ⟨ha, hv⟩
    refine hnamed.bind fun p hp => hothers.bind_pure fun ps hps => ?_
    rw [ElementSpec.NamedReadAs, hp.1]
    exact ⟨hi, hp.2, hps⟩

theorem emits_elements (levels : Nat) : (l : List ElementSpec) →
    ElementSpec.allFit levels l = true →
    (elements l).Emits fun pool bytes =>
      (replicate (ElementValue.decode levels) l.length).Reads bytes (ElementSpec.AllReadAs pool l)
  | [], _ => by
    rw [elements]
    exact emits_pure fun pool => reads_pure (by rw [ElementSpec.AllReadAs]; trivial)
  | value :: rest, hfits => by
    rw [ElementSpec.allFit, Bool.and_eq_true] at hfits
    rw [elements]
    refine (emits_element levels value hfits.1).bind fun first => ?_
    refine (emits_elements levels rest hfits.2).bind_pure fun pool others hothers hfirst => ?_
    refine hfirst.bind fun v hv => hothers.bind_pure fun vs hvs => ?_
    rw [ElementSpec.AllReadAs]
    exact ⟨hv, hvs⟩

end

end Assemble

/-! ## Annotations -/

/-- The annotation has a written form that can be read. -/
def AnnotationSpec.fits (a : AnnotationSpec) : Bool :=
  a.elements.length ≤ 65535 && ElementSpec.namedFit maxElementDepth a.elements

/-- The annotations of a list have written forms, and their number has two bytes. -/
def AnnotationSpec.allFit (l : List AnnotationSpec) : Bool :=
  l.length ≤ 65535 && l.all AnnotationSpec.fits

def AnnotationSpec.ReadAs (pool : Pool) (a : AnnotationSpec) (info : AnnotationInfo) : Prop :=
  pool.utf8 info.type = .ok a.descriptor ∧ ElementSpec.NamedReadAs pool a.elements info.elements

/-- The annotation of a use of a type is read with its target. -/
structure AnnotationSpec.DecodedAs (pool : Pool) (kind : UInt8) (target : AnnotationTarget)
    (a : AnnotationSpec) (t : TypeAnnotationInfo) : Prop where
  targetType : t.targetType = kind
  target : t.target = target
  pathLength : t.pathLength = 0
  info : a.ReadAs pool t.info

namespace Assemble

theorem emits_annotationSpec {a : AnnotationSpec} (hfits : a.fits = true) :
    (annotationSpec a).Emits fun pool bytes =>
      AnnotationInfo.decode.Reads bytes (a.ReadAs pool) := by
  rw [AnnotationSpec.fits, Bool.and_eq_true, decide_eq_true_eq] at hfits
  refine (emits_textIndex a.descriptor).bind fun type => ?_
  refine (emits_namedElements _ a.elements hfits.2).bind_pure fun pool bytes hbytes htype => ?_
  obtain ⟨i, rfl, hi⟩ := htype
  rw [List.append_assoc]
  refine (reads_uint16 i).bind fun j hj => ?_
  refine (reads_counted hfits.1 hbytes).bind_pure fun values hvalues => ?_
  exact ⟨by rw [hj, hi], hvalues⟩

theorem emits_annotationSpecs {l : List AnnotationSpec} (hfits : AnnotationSpec.allFit l = true) :
    (annotationSpecs l).Emits fun pool bytes =>
      (Decoder.counted AnnotationInfo.decode).Reads bytes
        (List.Forall₂ (AnnotationSpec.ReadAs pool) l) := by
  rw [AnnotationSpec.allFit, Bool.and_eq_true, decide_eq_true_eq, List.all_eq_true] at hfits
  exact emits_counted hfits.1 fun a ha => emits_annotationSpec (hfits.2 a ha)

/-- The bytes before a type annotation are read as its target and an empty path. -/
def TargetReads (bytes : List UInt8) (kind : UInt8) (target : AnnotationTarget) : Prop :=
  ∀ {rest P}, AnnotationInfo.decode.Reads rest P →
    TypeAnnotationInfo.decode.Reads (bytes ++ rest) fun t =>
      t.targetType = kind ∧ t.target = target ∧ t.pathLength = 0 ∧ P t.info

theorem targetReads_declaration : TargetReads [0x13, 0] 0x13 .empty := by
  intro rest P h
  refine reads_position.bind_nil fun offset _ => ?_
  refine (reads_uint8 0x13).bind fun kind hkind => ?_
  subst hkind
  refine (reads_pure (a := AnnotationTarget.empty) (P := (· = .empty)) rfl).bind_nil
    fun target htarget => ?_
  refine (reads_uint8 0).bind fun length hlength => ?_
  subst hlength
  exact (reads_skip []).bind_nil fun _ _ => h.bind_pure fun info hinfo =>
    ⟨rfl, htarget, rfl, hinfo⟩

theorem targetReads_typeArgument :
    TargetReads [0x47, 0, 0, 0, 0] 0x47 (.typeArgument 0 0) := by
  intro rest P h
  refine reads_position.bind_nil fun offset _ => ?_
  refine (reads_uint8 0x47).bind fun kind hkind => ?_
  subst hkind
  have htarget : (do return .typeArgument (← uint16) (← uint8) : Decoder AnnotationTarget).Reads
      [0, 0, 0] (· = .typeArgument 0 0) :=
    (reads_uint16 0).bind fun _ hoffset => (reads_uint8 0).bind_pure fun _ hindex => by
      rw [hoffset, hindex]
  refine htarget.bind fun target htarget => ?_
  refine (reads_uint8 0).bind fun length hlength => ?_
  subst hlength
  exact (reads_skip []).bind_nil fun _ _ => h.bind_pure fun info hinfo =>
    ⟨rfl, htarget, rfl, hinfo⟩

theorem emits_typeAnnotations {bytes : List UInt8} {kind : UInt8} {target : AnnotationTarget}
    (htarget : TargetReads bytes kind target) {l : List AnnotationSpec}
    (hfits : AnnotationSpec.allFit l = true) :
    (typeAnnotations bytes l).Emits fun pool written =>
      (Decoder.counted TypeAnnotationInfo.decode).Reads written
        (List.Forall₂ (AnnotationSpec.DecodedAs pool kind target) l) := by
  rw [AnnotationSpec.allFit, Bool.and_eq_true, decide_eq_true_eq, List.all_eq_true] at hfits
  refine emits_counted hfits.1 fun a ha => ?_
  refine (emits_annotationSpec (hfits.2 a ha)).bind_pure fun pool rest hrest => ?_
  exact (htarget hrest).imp fun t ht => ⟨ht.1, ht.2.1, ht.2.2.1, ht.2.2.2⟩

end Assemble

end ClassAtlas
