import ClassAtlas.Extraction.Extractor
import ClassAtlas.Proofs.Bytecode.Exactness
import ClassAtlas.Proofs.ClassFile.Offsets

/-!
# Offsets in errors of extraction

Instructions are read long after the file was decoded, from a copy of the code. The errors that this
finds have offsets in the file nevertheless, since a body of code keeps the offset at which it stands.
No other step of an extraction reads bytes.

## Main definitions

* `Extract.FailsIn` says that a computation fails only with errors whose offsets are right.

## Main statements

* `failsIn_scanCode` is about the instructions of a body of code.
* `offsets_in_file` is about decoding and extraction together.
-/

namespace ClassAtlas

open Decoder

variable {raw : List UInt8}

/-! ## Instructions -/

namespace Instruction

theorem located_tableSwitchBody (pc : Nat) : (tableSwitchBody pc).Located raw fun _ => True := by
  refine (located_take _).bind fun padding _ => (located_take 4).bind fun default _ => ?_
  refine located_int32.bind fun low _ => located_int32.bind fun high _ => ?_
  exact located_ite (located_fail_bind _ _) ((located_take _).bind fun _ _ => located_pure trivial)

theorem located_lookupSwitchBody (pc : Nat) : (lookupSwitchBody pc).Located raw fun _ => True := by
  refine (located_take _).bind fun padding _ => (located_take 4).bind fun default _ => ?_
  refine located_int32.bind fun pairs _ => ?_
  exact located_ite (located_fail_bind _ _) ((located_take _).bind fun _ _ => located_pure trivial)

theorem located_wideBody (pc : Nat) : (wideBody pc).Located raw fun _ => True := by
  refine located_uint8.bind fun opcode _ => ?_
  split
  · exact (located_take _).bind fun _ _ => located_pure trivial
  · exact located_fail _

theorem located_afterOpcode (pc : Nat) (opcode : UInt8) :
    (afterOpcode pc opcode).Located raw fun _ => True := by
  unfold afterOpcode
  split
  · exact (located_take _).bind fun _ _ => located_pure trivial
  · exact (located_number _).bind fun _ _ => (located_take _).bind fun _ _ => located_pure trivial
  · exact located_tableSwitchBody pc
  · exact located_lookupSwitchBody pc
  · exact located_wideBody pc
  · exact located_fail _

theorem located_decode : decode.Located raw fun _ => True := by
  intro r hr
  rw [decode_eq]
  exact (located_uint8.bind fun opcode _ => located_afterOpcode r.consumed opcode) r hr

/-- By induction on the number of instructions that may follow. -/
theorem located_decodeUpTo (n : Nat) : (decodeUpTo n).Located raw fun _ => True := by
  induction n with
  | zero => exact located_pure trivial
  | succ n ih =>
    intro r hr
    rw [decodeUpTo_succ]
    split
    · exact ⟨trivial, hr⟩
    · exact (located_decode.bind fun _ _ => ih.bind fun _ _ => located_pure trivial) r hr

end Instruction

theorem failsIn_scanCode {code : List UInt8} {base : Nat} (h : StandAt raw base code) :
    FailsIn raw (scanCode code base) :=
  ((Instruction.located_decodeUpTo code.length).failsIn_run' h.standsIn_ofBytes).map _

/-! ## Extraction -/

namespace Extract

variable {α β : Type}

/-- Whatever the cache, the computation fails only with errors whose offsets are right for the
buffer. -/
def FailsIn (raw : List UInt8) (x : Extract α) : Prop :=
  ∀ cache, ClassAtlas.FailsIn raw (x.run.run cache).1

theorem failsIn_ofExcept {result : Except DecodeError α} (h : ClassAtlas.FailsIn raw result) :
    (ofExcept result).FailsIn raw := fun _ => h

theorem failsIn_pure (a : α) : (pure a : Extract α).FailsIn raw := fun _ => failsIn_ok a

theorem FailsIn.bind {x : Extract α} {f : α → Extract β} (hx : x.FailsIn raw)
    (hf : ∀ a, (f a).FailsIn raw) : (x >>= f).FailsIn raw := by
  intro cache
  rw [ExceptT.run_bind, StateT.run_bind]
  have hfirst := hx cache
  generalize x.run.run cache = p at hfirst
  rcases p with ⟨e | a, cache'⟩
  · exact failsIn_error (hfirst e rfl)
  · exact hf a cache'

theorem failsIn_mapM {part : α → Extract β} {l : List α} (h : ∀ a ∈ l, (part a).FailsIn raw) :
    (l.mapM part).FailsIn raw := by
  induction l with
  | nil => exact failsIn_pure []
  | cons a l ih =>
    rw [List.forall_mem_cons] at h
    rw [List.mapM_cons]
    exact h.1.bind fun _ => (ih h.2).bind fun _ => failsIn_pure _

theorem failsIn_concat {part : α → Extract Mentions} {l : List α}
    (h : ∀ a ∈ l, (part a).FailsIn raw) : (concat part l).FailsIn raw :=
  (failsIn_mapM h).bind fun _ => failsIn_pure _

/-- The errors of texts have no offsets in the file. -/
theorem failsIn_ofText (result : Except Malformed α) : (ofText result).FailsIn raw := by
  cases result with
  | error e => exact failsIn_ofExcept (failsIn_error trivial)
  | ok a => exact failsIn_pure a

theorem failsIn_fieldType (text : String) : (fieldType text).FailsIn raw := fun cache =>
  failsIn_ofText (cache.field text).1 (cache.field text).2

theorem failsIn_methodType (text : String) : (methodType text).FailsIn raw := fun cache =>
  failsIn_ofText (cache.method text).1 (cache.method text).2

theorem failsIn_entryClass? (name : String) : (entryClass? name).FailsIn raw := by
  unfold entryClass?
  split
  · exact (failsIn_fieldType name).bind fun _ => failsIn_pure _
  · exact failsIn_pure _

/-! ### Annotations -/

theorem failsIn_typeMention (pool : Pool) (index : UInt16) : (typeMention pool index).FailsIn raw :=
  (failsIn_ofExcept (pool.failsIn_utf8 index)).bind fun text => (failsIn_fieldType text).bind fun _ =>
    failsIn_pure _

theorem failsIn_classMention (pool : Pool) (index : UInt16) :
    (classMention pool index).FailsIn raw :=
  (failsIn_ofExcept (pool.failsIn_utf8 index)).bind fun _ => (failsIn_ofText _).bind fun _ =>
    failsIn_pure _

mutual

theorem failsIn_elementValue (pool : Pool) :
    (value : ElementValue) → (elementValue pool value).FailsIn raw
  | .const _ _ => by
    rw [elementValue]
    exact failsIn_pure _
  | .enum type _ => by
    rw [elementValue]
    exact failsIn_typeMention pool type
  | .classInfo descriptor => by
    rw [elementValue]
    exact failsIn_classMention pool descriptor
  | .nested type elements => by
    rw [elementValue]
    exact (failsIn_typeMention pool type).bind fun _ =>
      (failsIn_elementValues pool elements).bind fun _ => failsIn_pure _
  | .array values => by
    rw [elementValue]
    exact failsIn_arrayValues pool values

theorem failsIn_elementValues (pool : Pool) :
    (elements : List (UInt16 × ElementValue)) → (elementValues pool elements).FailsIn raw
  | [] => by
    rw [elementValues]
    exact failsIn_pure _
  | (_, value) :: rest => by
    rw [elementValues]
    exact (failsIn_elementValue pool value).bind fun _ =>
      (failsIn_elementValues pool rest).bind fun _ => failsIn_pure _

theorem failsIn_arrayValues (pool : Pool) :
    (values : List ElementValue) → (arrayValues pool values).FailsIn raw
  | [] => by
    rw [arrayValues]
    exact failsIn_pure _
  | value :: rest => by
    rw [arrayValues]
    exact (failsIn_elementValue pool value).bind fun _ =>
      (failsIn_arrayValues pool rest).bind fun _ => failsIn_pure _

end

theorem failsIn_annotationInfo (config : ExtractionConfig) (pool : Pool) (info : AnnotationInfo) :
    (annotationInfo config pool info).FailsIn raw := by
  refine (failsIn_typeMention pool info.type).bind fun first => ?_
  dsimp only
  split
  · exact (failsIn_elementValues pool info.elements).bind fun _ => failsIn_pure _
  · exact (failsIn_pure _).bind fun _ => failsIn_pure _

theorem failsIn_annotationInfos (config : ExtractionConfig) (pool : Pool) (visible : Bool)
    (infos : List AnnotationInfo) : (annotationInfos config pool visible infos).FailsIn raw := by
  unfold annotationInfos
  split
  · exact failsIn_concat fun info _ => failsIn_annotationInfo config pool info
  · exact failsIn_pure _

theorem failsIn_annotationsOf (config : ExtractionConfig) (pool : Pool) (a : Attribute) :
    (annotationsOf config pool a).FailsIn raw := by
  cases a with
  | annotations visible infos => exact failsIn_annotationInfos config pool visible infos
  | parameterAnnotations visible parameters =>
    exact failsIn_annotationInfos config pool visible parameters.flatten
  | typeAnnotations visible infos => exact failsIn_annotationInfos config pool visible _
  | defaultValue value =>
    rw [annotationsOf]
    split
    · exact failsIn_elementValue pool value
    · exact failsIn_pure _
  | code | exceptions | signature | other => exact failsIn_pure _

theorem failsIn_annotations (config : ExtractionConfig) (pool : Pool) (l : List Attribute) :
    (concat (annotationsOf config pool) l).FailsIn raw :=
  failsIn_concat fun a _ => failsIn_annotationsOf config pool a

theorem failsIn_annotationsOfDetail (config : ExtractionConfig) (pool : Pool) (detail : CodeDetail) :
    (annotationsOfDetail config pool detail).FailsIn raw := by
  cases detail with
  | typeAnnotations visible infos => exact failsIn_annotationInfos config pool visible _
  | other name length => exact failsIn_pure _

/-! ### Declarations and code -/

theorem failsIn_withSignature (config : ExtractionConfig) (tally : Tally) (text? : Option String)
    (view : String → Except Malformed Tally) :
    (withSignature config tally text? view).FailsIn raw := by
  unfold withSignature
  split
  · exact (failsIn_ofText _).bind fun _ => failsIn_pure _
  · exact failsIn_pure _

theorem failsIn_field (config : ExtractionConfig) (pool : Pool) (m : Member) :
    (field config pool m).FailsIn raw :=
  (failsIn_fieldType m.descriptor).bind fun _ => (failsIn_withSignature config _ _ _).bind fun _ =>
    (failsIn_annotations config pool _).bind fun _ => failsIn_pure _

theorem failsIn_thrownClass? (pool : Pool) (index : UInt16) :
    (thrownClass? pool index).FailsIn raw :=
  (failsIn_ofExcept (pool.failsIn_className index)).bind fun name => failsIn_entryClass? name

/-- The only step that reads bytes. -/
theorem failsIn_touched (pool : Pool) {c : Code} (hc : c.StandsIn raw) :
    ClassAtlas.FailsIn raw (touched pool c) := by
  refine (failsIn_scanCode hc).bind fun refs _ => ?_
  refine (ClassAtlas.failsIn_mapM (fun ref => (pool.failsIn_operandClass? ref).bind fun _ _ =>
    failsIn_ok _) refs).bind fun _ _ => ?_
  exact (ClassAtlas.failsIn_mapM (fun index => (pool.failsIn_className index).bind fun _ _ =>
    failsIn_ok _) _).bind fun _ _ => failsIn_ok _

theorem failsIn_code (config : ExtractionConfig) (pool : Pool) {c : Code} (hc : c.StandsIn raw) :
    (code config pool c).FailsIn raw := by
  refine (failsIn_ofExcept (failsIn_touched pool hc)).bind fun _ => ?_
  refine (failsIn_mapM fun name _ => failsIn_entryClass? name).bind fun _ => ?_
  exact (failsIn_concat fun detail _ => failsIn_annotationsOfDetail config pool detail).bind fun _ =>
    failsIn_pure _

theorem failsIn_method (config : ExtractionConfig) (pool : Pool) {m : Member}
    (hm : ∀ a ∈ m.attributes, a.CodeStandsIn raw) : (method config pool m).FailsIn raw := by
  have hrest (declared body : Mentions) : (do
      let annotations ← concat (annotationsOf config pool) m.attributes
      return declared ++ body ++ annotations : Extract Mentions).FailsIn raw :=
    (failsIn_annotations config pool _).bind fun _ => failsIn_pure _
  refine (failsIn_methodType m.descriptor).bind fun type =>
    (failsIn_mapM fun index _ => failsIn_thrownClass? pool index).bind fun thrown =>
      (failsIn_withSignature config _ _ _).bind fun declared => ?_
  dsimp only
  split
  · next body hbody =>
    obtain ⟨a, ha, hcode⟩ := List.exists_of_findSome?_eq_some hbody
    exact (failsIn_code config pool (hm a ha body hcode)).bind (hrest declared)
  · exact (failsIn_pure _).bind (hrest declared)

theorem failsIn_unit (config : ExtractionConfig) {u : CompiledUnit}
    (hu : ∀ a ∈ u.classFile.allAttributes, a.CodeStandsIn raw) : (unit config u).FailsIn raw := by
  refine (failsIn_withSignature config _ _ _).bind fun _ =>
    (failsIn_annotations config u.pool _).bind fun _ =>
      (failsIn_concat fun m _ => failsIn_field config u.pool m).bind fun _ =>
        (failsIn_concat fun m hm => failsIn_method config u.pool fun a ha => hu a ?_).bind fun _ =>
          failsIn_pure _
  simp only [ClassFile.allAttributes, List.mem_append, List.mem_flatMap]
  exact .inr ⟨m, .inr hm, ha⟩

end Extract

/-! ## Whole files -/

/-- Where a file ends too early, the error of decoding it has an offset in the file, and so has the
error of an extraction from what was decoded. The bodies of code that were decoded stand in the file
at the offsets that are kept with them. -/
theorem offsets_in_file (raw : List UInt8) :
    FailsIn raw (CompiledUnit.decode raw) ∧ ∀ u, CompiledUnit.decode raw = .ok u →
      (∀ c ∈ u.codes, StandAt raw c.offset c.bytes) ∧
        ∀ config cache, FailsIn raw (extractUnit config u cache).1 := by
  refine ⟨CompiledUnit.failsIn_decode raw, fun u hu => ?_⟩
  have hcodes := CompiledUnit.standsIn_of_decode hu
  refine ⟨hcodes, fun config cache => ?_⟩
  rw [CompiledUnit.codes, List.forall_mem_filterMap] at hcodes
  exact (Extract.failsIn_unit config hcodes cache).map _

-- The code of a method with a single instruction, and what is reported without its last bytes.
example :
    let raw : List UInt8 := [0xCA, 0xFE, 0xBA, 0xBE, 0, 0, 0, 52, 0, 6, 1, 0, 1, 65, 7, 0, 1,
      1, 0, 1, 109, 1, 0, 3, 40, 41, 86, 1, 0, 4, 67, 111, 100, 101, 0, 0x21, 0, 2, 0, 0, 0, 0,
      0, 0, 0, 1, 0, 1, 0, 3, 0, 4, 0, 1, 0, 5, 0, 0, 0, 13, 0, 0, 0, 0, 0, 0, 0, 1, 0xB1,
      0, 0, 0, 0, 0, 0]
    (CompiledUnit.decode raw).toOption.map (fun u => u.codes.map fun c => (c.offset, c.bytes)) =
        some [(68, [0xB1])] ∧
      (CompiledUnit.decode (raw.take 70)).map CompiledUnit.name =
        .error (.unexpectedEnd 60 13 10) := by
  decide +kernel

end ClassAtlas
