import Mathlib.Tactic.Choose
import ClassAtlas.Extraction.Extractor

/-!
# The cache changes no answer

A look-up in a sound cache gives what reading the text gives, and leaves the cache sound. So a
computation that uses the cache only through look-ups has one result, whatever it was that the cache
saw before.

## Main definitions

* `DescriptorCache.Sound` is the invariant of a cache.
* `Extract.Gives` says that a computation has a given result under every sound cache.
-/

namespace ClassAtlas

namespace DescriptorCache

/-- Every remembered descriptor is what its text reads as. -/
structure Sound (cache : DescriptorCache) : Prop where
  field : ∀ text t, cache.entries.get? text = some (.field t) → FieldType.parse text = .ok t
  method : ∀ text m, cache.entries.get? text = some (.method m) → MethodType.parse text = .ok m

theorem sound_empty : empty.Sound where
  field text t h := by simp [empty] at h
  method text m h := by simp [empty] at h

/-- Only the remembered descriptors matter. -/
theorem Sound.of_entries {cache cache' : DescriptorCache} (h : cache.Sound)
    (he : cache'.entries = cache.entries) : cache'.Sound where
  field text t ht := h.field text t (he ▸ ht)
  method text m hm := h.method text m (he ▸ hm)

/-- Learning what a text reads as keeps a cache sound. -/
theorem Sound.learn {cache : DescriptorCache} (h : cache.Sound) {text : String}
    {answer : Except Malformed Descriptor}
    (hf : ∀ t, answer = .ok (.field t) → FieldType.parse text = .ok t)
    (hm : ∀ m, answer = .ok (.method m) → MethodType.parse text = .ok m) :
    (cache.learn text answer).Sound := by
  cases answer with
  | error e => exact h.of_entries rfl
  | ok d =>
    refine ⟨fun text' t ht => ?_, fun text' m hm' => ?_⟩
    · simp only [DescriptorCache.learn, SortedMap.get?_insert] at ht
      split at ht
      · next he => exact he ▸ hf t (by simpa using ht)
      · exact h.field text' t ht
    · simp only [DescriptorCache.learn, SortedMap.get?_insert] at hm'
      split at hm'
      · next he => exact he ▸ hm m (by simpa using hm')
      · exact h.method text' m hm'

theorem Sound.field_lookup {cache : DescriptorCache} (h : cache.Sound) (text : String) :
    (cache.field text).1 = FieldType.parse text ∧ (cache.field text).2.Sound := by
  unfold DescriptorCache.field
  split
  · next t ht => exact ⟨(h.field text t ht).symm, h.of_entries rfl⟩
  · refine ⟨rfl, h.learn (fun t ht => ?_) (fun m hm => ?_)⟩
    · cases hp : FieldType.parse text <;> simp_all [Functor.map, Except.map]
    · cases hp : FieldType.parse text <;> simp_all [Functor.map, Except.map]

theorem Sound.method_lookup {cache : DescriptorCache} (h : cache.Sound) (text : String) :
    (cache.method text).1 = MethodType.parse text ∧ (cache.method text).2.Sound := by
  unfold DescriptorCache.method
  split
  · next m hm => exact ⟨(h.method text m hm).symm, h.of_entries rfl⟩
  · refine ⟨rfl, h.learn (fun t ht => ?_) (fun m hm => ?_)⟩
    · cases hp : MethodType.parse text <;> simp_all [Functor.map, Except.map]
    · cases hp : MethodType.parse text <;> simp_all [Functor.map, Except.map]

end DescriptorCache

namespace Extract

variable {α β : Type}

/-- The computation has this result under every sound cache, and leaves the cache sound. -/
def Gives (x : Extract α) (r : Except DecodeError α) : Prop :=
  ∀ cache : DescriptorCache, cache.Sound → (x.run.run cache).1 = r ∧ (x.run.run cache).2.Sound

/-- The computation has one result under all sound caches. -/
def Transparent (x : Extract α) : Prop := ∃ r, x.Gives r

theorem gives_ofExcept (r : Except DecodeError α) : (ofExcept r).Gives r :=
  fun _ h => ⟨rfl, h⟩

theorem gives_pure (a : α) : (pure a : Extract α).Gives (.ok a) := fun _ h => ⟨rfl, h⟩

theorem Gives.bind {x : Extract α} {f : α → Extract β} {r : Except DecodeError α}
    {g : α → Except DecodeError β} (hx : x.Gives r) (hf : ∀ a, r = .ok a → (f a).Gives (g a)) :
    (x >>= f).Gives (r >>= g) := by
  intro cache hc
  obtain ⟨hr, hsound⟩ := hx cache hc
  rw [ExceptT.run_bind, StateT.run_bind]
  cases hrun : x.run.run cache with
  | mk result cache' =>
    rw [hrun] at hr hsound
    subst hr
    cases result with
    | error e => exact ⟨rfl, hsound⟩
    | ok a => exact hf a rfl cache' hsound

theorem gives_fieldType (text : String) :
    (fieldType text).Gives ((FieldType.parse text).mapError .malformed) := by
  intro cache hc
  obtain ⟨hr, hsound⟩ := hc.field_lookup text
  exact ⟨congrArg (·.mapError DecodeError.malformed) hr, hsound⟩

theorem gives_methodType (text : String) :
    (methodType text).Gives ((MethodType.parse text).mapError .malformed) := by
  intro cache hc
  obtain ⟨hr, hsound⟩ := hc.method_lookup text
  exact ⟨congrArg (·.mapError DecodeError.malformed) hr, hsound⟩

theorem Gives.transparent {x : Extract α} {r : Except DecodeError α} (h : x.Gives r) :
    x.Transparent := ⟨r, h⟩

theorem Transparent.bind {x : Extract α} {f : α → Extract β} (hx : x.Transparent)
    (hf : ∀ a, (f a).Transparent) : (x >>= f).Transparent := by
  obtain ⟨r, hr⟩ := hx
  choose g hg using hf
  exact ⟨_, hr.bind fun a _ => hg a⟩

/-! ## Extraction is transparent -/

theorem transparent_pure (a : α) : (pure a : Extract α).Transparent := (gives_pure a).transparent

theorem transparent_ofExcept (r : Except DecodeError α) : (ofExcept r).Transparent :=
  (gives_ofExcept r).transparent

theorem transparent_fieldType (text : String) : (fieldType text).Transparent :=
  (gives_fieldType text).transparent

theorem Transparent.mapM {part : α → Extract β} (h : ∀ a, (part a).Transparent) (l : List α) :
    (l.mapM part).Transparent := by
  induction l with
  | nil => exact transparent_pure []
  | cons a l ih =>
    rw [List.mapM_cons]
    exact (h a).bind fun b => ih.bind fun bs => transparent_pure (b :: bs)

theorem Transparent.concat {part : α → Extract Mentions} (h : ∀ a, (part a).Transparent)
    (l : List α) : (concat part l).Transparent :=
  (Transparent.mapM h l).bind fun _ => transparent_pure _

theorem transparent_entryClass? (name : String) : (entryClass? name).Transparent := by
  unfold entryClass?
  split
  · exact (transparent_fieldType name).bind fun _ => transparent_pure _
  · exact transparent_pure _

theorem transparent_typeMention (pool : Pool) (index : UInt16) :
    (typeMention pool index).Transparent :=
  (transparent_ofExcept _).bind fun text => (transparent_fieldType text).bind fun _ =>
    transparent_pure _

theorem transparent_classMention (pool : Pool) (index : UInt16) :
    (classMention pool index).Transparent :=
  (transparent_ofExcept _).bind fun _ => (transparent_ofExcept _).bind fun _ => transparent_pure _

mutual

theorem transparent_elementValue (pool : Pool) :
    (value : ElementValue) → (elementValue pool value).Transparent
  | .const _ _ => by
    rw [elementValue]
    exact transparent_pure _
  | .enum type _ => by
    rw [elementValue]
    exact transparent_typeMention pool type
  | .classInfo descriptor => by
    rw [elementValue]
    exact transparent_classMention pool descriptor
  | .nested type elements => by
    rw [elementValue]
    exact (transparent_typeMention pool type).bind fun _ =>
      (transparent_elementValues pool elements).bind fun _ => transparent_pure _
  | .array values => by
    rw [elementValue]
    exact transparent_arrayValues pool values

theorem transparent_elementValues (pool : Pool) :
    (elements : List (UInt16 × ElementValue)) → (elementValues pool elements).Transparent
  | [] => by
    rw [elementValues]
    exact transparent_pure _
  | (_, value) :: rest => by
    rw [elementValues]
    exact (transparent_elementValue pool value).bind fun _ =>
      (transparent_elementValues pool rest).bind fun _ => transparent_pure _

theorem transparent_arrayValues (pool : Pool) :
    (values : List ElementValue) → (arrayValues pool values).Transparent
  | [] => by
    rw [arrayValues]
    exact transparent_pure _
  | value :: rest => by
    rw [arrayValues]
    exact (transparent_elementValue pool value).bind fun _ =>
      (transparent_arrayValues pool rest).bind fun _ => transparent_pure _

end

theorem transparent_annotationInfo (config : ExtractionConfig) (pool : Pool)
    (info : AnnotationInfo) : (annotationInfo config pool info).Transparent := by
  refine (transparent_typeMention pool info.type).bind fun first => ?_
  dsimp only
  split
  · exact (transparent_elementValues pool info.elements).bind fun _ => transparent_pure _
  · exact (transparent_pure _).bind fun _ => transparent_pure _

theorem transparent_annotationInfos (config : ExtractionConfig) (pool : Pool) (visible : Bool)
    (infos : List AnnotationInfo) : (annotationInfos config pool visible infos).Transparent := by
  unfold annotationInfos
  split
  · exact Transparent.concat (transparent_annotationInfo config pool) infos
  · exact transparent_pure _

theorem transparent_annotationsOf (config : ExtractionConfig) (pool : Pool)
    (a : Attribute) : (annotationsOf config pool a).Transparent := by
  cases a with
  | annotations visible infos => exact transparent_annotationInfos config pool visible infos
  | parameterAnnotations visible parameters =>
    exact transparent_annotationInfos config pool visible parameters.flatten
  | typeAnnotations visible infos => exact transparent_annotationInfos config pool visible _
  | defaultValue value =>
    rw [annotationsOf]
    split
    · exact transparent_elementValue pool value
    · exact transparent_pure _
  | code | exceptions | signature | other => exact transparent_pure _

theorem transparent_annotationsOfDetail (config : ExtractionConfig) (pool : Pool)
    (detail : CodeDetail) : (annotationsOfDetail config pool detail).Transparent := by
  cases detail with
  | typeAnnotations visible infos => exact transparent_annotationInfos config pool visible _
  | other name length => exact transparent_pure _

theorem transparent_withSignature (config : ExtractionConfig) (tally : Tally)
    (text? : Option String) (view : String → Except Malformed Tally) :
    (withSignature config tally text? view).Transparent := by
  unfold withSignature
  split
  · exact (transparent_ofExcept _).bind fun _ => transparent_pure _
  · exact transparent_pure _

theorem transparent_field (config : ExtractionConfig) (pool : Pool) (m : Member) :
    (field config pool m).Transparent :=
  (transparent_fieldType m.descriptor).bind fun _ =>
    (transparent_withSignature config _ _ _).bind fun _ =>
      (Transparent.concat (transparent_annotationsOf config pool) _).bind fun _ =>
        transparent_pure _

theorem transparent_code (config : ExtractionConfig) (pool : Pool) (body : Code) :
    (code config pool body).Transparent :=
  (transparent_ofExcept _).bind fun _ =>
    (Transparent.mapM transparent_entryClass? _).bind fun _ =>
      (Transparent.concat (transparent_annotationsOfDetail config pool) _).bind fun _ =>
        transparent_pure _

theorem transparent_thrownClass? (pool : Pool) (index : UInt16) :
    (thrownClass? pool index).Transparent :=
  (transparent_ofExcept _).bind fun name => transparent_entryClass? name

theorem transparent_method (config : ExtractionConfig) (pool : Pool) (m : Member) :
    (method config pool m).Transparent := by
  have hrest (declared body : Mentions) : (do
      let annotations ← concat (annotationsOf config pool) m.attributes
      return declared ++ body ++ annotations : Extract Mentions).Transparent :=
    (Transparent.concat (transparent_annotationsOf config pool) _).bind fun _ =>
      transparent_pure _
  refine (gives_methodType m.descriptor).transparent.bind fun type =>
    (Transparent.mapM (transparent_thrownClass? pool) _).bind fun thrown =>
      (transparent_withSignature config _ _ _).bind fun declared => ?_
  dsimp only
  split
  · exact (transparent_code config pool _).bind (hrest declared)
  · exact (transparent_pure _).bind (hrest declared)

theorem transparent_unit (config : ExtractionConfig) (u : CompiledUnit) :
    (unit config u).Transparent :=
  (transparent_withSignature config _ _ _).bind fun _ =>
    (Transparent.concat (transparent_annotationsOf config u.pool) _).bind fun _ =>
      (Transparent.concat (transparent_field config u.pool) _).bind fun _ =>
        (Transparent.concat (transparent_method config u.pool) _).bind fun _ =>
          transparent_pure _

end Extract

/-- The references of a unit do not depend on what a sound cache remembers, and extraction leaves
the cache sound, also when it fails. -/
theorem extractUnit_eq (config : ExtractionConfig) (u : CompiledUnit) {cache : DescriptorCache}
    (hc : cache.Sound) :
    (extractUnit config u cache).1 = (extractUnit config u .empty).1 ∧
      (extractUnit config u cache).2.Sound := by
  obtain ⟨r, hr⟩ := Extract.transparent_unit config u
  obtain ⟨h₁, hsound⟩ := hr cache hc
  obtain ⟨h₂, _⟩ := hr .empty DescriptorCache.sound_empty
  exact ⟨congrArg ((UnitReferences.empty u.name).addAll <$> ·) (h₁.trans h₂.symm), hsound⟩

end ClassAtlas
