import ClassAtlas.Proofs.Extraction.Annotations
import ClassAtlas.Proofs.Extraction.Runs
import ClassAtlas.Proofs.Extraction.UnitMeaning

/-!
# The forest of annotations

Annotations nest: an element of an annotation can be another one, or an array of them. Extraction
walks through this forest and brings one mention for each place in it that names a type, if it
succeeds at all.

## Main definitions

* `TypeUse.mentions` are the mentions at places in annotations.
* `timesUsed` counts a target among them.
-/

namespace ClassAtlas

open Name

/-! ## Places that name a type -/

namespace TypeUse

variable {pool : Pool} {i : UInt16} {text : String}

theorem class?_type (htext : pool.utf8 i = .ok text) {t : FieldType}
    (ht : FieldType.parse text = .ok t) : class? pool (.type i) = t.classLeaf? := by
  simp [class?, htext, ht, Except.toOption]

theorem class?_result (htext : pool.utf8 i = .ok text) {t : Option FieldType}
    (ht : FieldType.parseResult text = .ok t) :
    class? pool (.result i) = t.bind FieldType.classLeaf? := by
  simp [class?, htext, ht, Except.toOption]

theorem isPlain_class? {use : TypeUse} {name : String} (h : use.class? pool = some name) :
    IsPlain name := by
  cases use with
  | type i =>
    simp only [class?, Option.bind_eq_some_iff, toOption_eq_some_iff] at h
    obtain ⟨text, _, t, ht, hleaf⟩ := h
    exact FieldType.allPlain_of_parse ht name (Option.mem_toList.2 hleaf)
  | result i =>
    simp only [class?, Option.bind_eq_some_iff, toOption_eq_some_iff] at h
    obtain ⟨text, _, _, ht, t, rfl, hleaf⟩ := h
    rw [FieldType.parseResult] at ht
    split at ht
    · cases ht
    · obtain ⟨t', ht', heq⟩ := exists_of_map_eq_ok ht
      cases heq
      exact FieldType.allPlain_of_parse ht' name (Option.mem_toList.2 hleaf)

/-- The mentions at places in annotations. -/
def mentions (pool : Pool) (uses : List TypeUse) : Mentions :=
  Extract.mentionAll .annotationRef (uses.filterMap (class? pool))

theorem mentions_append (l m : List TypeUse) :
    mentions pool (l ++ m) = mentions pool l ++ mentions pool m := by
  rw [mentions, List.filterMap_append, Extract.mentionAll_append]
  rfl

theorem mentions_flatMap {α : Type} (l : List α) (f : α → List TypeUse) :
    mentions pool (l.flatMap f) = l.flatMap fun a => mentions pool (f a) := by
  rw [mentions, List.filterMap_flatMap, Extract.mentionAll_flatMap]
  rfl

end TypeUse

/-- How often places in annotations mention a class under a kind. -/
def timesUsed (pool : Pool) (uses : List TypeUse) (target : String) (kind : EdgeKind) : Nat :=
  if .annotationRef = kind then uses.countP fun use => use.class? pool = some target else 0

theorem TypeUse.timesMentioned_mentions {pool : Pool} (uses : List TypeUse) {target : String}
    (ht : target ≠ "") (kind : EdgeKind) :
    timesMentioned (mentions pool uses) target kind = timesUsed pool uses target kind := by
  have hplain : AllPlain (uses.filterMap (class? pool)) := by
    intro name hname
    obtain ⟨use, _, huse⟩ := List.mem_filterMap.1 hname
    exact isPlain_class? huse
  rw [mentions, timesMentioned_mentionAll hplain ht, List.count_filterMap]
  simp only [beq_eq_decide, timesUsed]

section

variable {pool : Pool} {target : String} {kind : EdgeKind}

theorem timesUsed_append (l m : List TypeUse) :
    timesUsed pool (l ++ m) target kind =
      timesUsed pool l target kind + timesUsed pool m target kind := by
  simp only [timesUsed, List.countP_append]
  split <;> rfl

theorem timesUsed_flatMap {α : Type} (l : List α) (f : α → List TypeUse) :
    timesUsed pool (l.flatMap f) target kind =
      sumOf (fun a => timesUsed pool (f a) target kind) l := by
  induction l with
  | nil => simp [timesUsed]
  | cons a l ih => rw [List.flatMap_cons, timesUsed_append, ih, sumOf_cons]

end

/-! ## Walking through the forest -/

namespace Extract

variable {pool : Pool} {config : ExtractionConfig}

theorem yields_typeMention (i : UInt16) :
    (typeMention pool i).Yields (· = TypeUse.mentions pool [.type i]) := by
  refine (yields_ofExcept _).bind fun text htext => (yields_fieldType text).bind fun t ht =>
    yields_pure ?_
  rw [← TypeUse.class?_type htext ht]
  rfl

theorem yields_classMention (i : UInt16) :
    (classMention pool i).Yields (· = TypeUse.mentions pool [.result i]) := by
  refine (yields_ofExcept _).bind fun text htext => (yields_ofText _).bind fun t ht =>
    yields_pure ?_
  rw [← TypeUse.class?_result htext ht]
  rfl

theorem yields_concat_mentions {α : Type} {part : α → Extract Mentions} {f : α → List TypeUse}
    (h : ∀ a, (part a).Yields (· = TypeUse.mentions pool (f a))) (l : List α) :
    (concat part l).Yields (· = TypeUse.mentions pool (l.flatMap f)) := by
  refine (yields_concat h l).imp ?_
  rintro _ ⟨lists, hlists, rfl⟩
  rw [TypeUse.mentions_flatMap]
  induction hlists with
  | nil => rfl
  | cons hfirst _ ih => rw [List.flatten_cons, List.flatMap_cons, hfirst, ih]

mutual

theorem yields_elementValue (pool : Pool) : (value : ElementValue) →
    (elementValue pool value).Yields (· = TypeUse.mentions pool value.typeUses)
  | .const _ _ => by
    rw [elementValue, ElementValue.typeUses]
    exact yields_pure rfl
  | .enum type _ => by
    rw [elementValue, ElementValue.typeUses]
    exact yields_typeMention type
  | .classInfo descriptor => by
    rw [elementValue, ElementValue.typeUses]
    exact yields_classMention descriptor
  | .nested type elements => by
    rw [elementValue, ElementValue.typeUses, ← List.singleton_append, TypeUse.mentions_append]
    exact (yields_typeMention type).bind_eq
      ((yields_elementValues pool elements).bind_eq (yields_pure rfl))
  | .array values => by
    rw [elementValue, ElementValue.typeUses]
    exact yields_arrayValues pool values

theorem yields_elementValues (pool : Pool) : (elements : List (UInt16 × ElementValue)) →
    (elementValues pool elements).Yields
      (· = TypeUse.mentions pool (ElementValue.namedTypeUses elements))
  | [] => by
    rw [elementValues, ElementValue.namedTypeUses]
    exact yields_pure rfl
  | (_, value) :: rest => by
    rw [elementValues, ElementValue.namedTypeUses, TypeUse.mentions_append]
    exact (yields_elementValue pool value).bind_eq
      ((yields_elementValues pool rest).bind_eq (yields_pure rfl))

theorem yields_arrayValues (pool : Pool) : (values : List ElementValue) →
    (arrayValues pool values).Yields
      (· = TypeUse.mentions pool (ElementValue.allTypeUses values))
  | [] => by
    rw [arrayValues, ElementValue.allTypeUses]
    exact yields_pure rfl
  | value :: rest => by
    rw [arrayValues, ElementValue.allTypeUses, TypeUse.mentions_append]
    exact (yields_elementValue pool value).bind_eq
      ((yields_arrayValues pool rest).bind_eq (yields_pure rfl))

end

theorem yields_annotationInfo (info : AnnotationInfo) :
    (annotationInfo config pool info).Yields
      (· = TypeUse.mentions pool (info.typeUses config)) := by
  rw [AnnotationInfo.typeUses, ← List.singleton_append, TypeUse.mentions_append]
  refine (yields_typeMention info.type).bind_eq ?_
  split
  · exact (yields_elementValues pool info.elements).bind_eq (yields_pure rfl)
  · exact (yields_pure (P := (· = TypeUse.mentions pool [])) rfl).bind_eq (yields_pure rfl)

theorem yields_annotationInfos (visible : Bool) (infos : List AnnotationInfo) :
    (annotationInfos config pool visible infos).Yields
      (· = TypeUse.mentions pool (annotationUses config visible infos)) := by
  rw [annotationInfos, annotationUses]
  split
  · exact yields_concat_mentions yields_annotationInfo infos
  · exact yields_pure rfl

/-- An attribute brings the mentions at the places in its annotations. -/
theorem yields_annotationsOf (a : Attribute) :
    (annotationsOf config pool a).Yields (· = TypeUse.mentions pool (a.typeUses config)) := by
  cases a with
  | annotations visible infos => exact yields_annotationInfos visible infos
  | parameterAnnotations visible parameters => exact yields_annotationInfos visible _
  | typeAnnotations visible infos => exact yields_annotationInfos visible _
  | defaultValue value =>
    rw [annotationsOf, Attribute.typeUses]
    split
    · exact yields_elementValue pool value
    · exact yields_pure rfl
  | code | exceptions | signature | other => exact yields_pure rfl

theorem yields_annotationsOfDetail (detail : CodeDetail) :
    (annotationsOfDetail config pool detail).Yields
      (· = TypeUse.mentions pool (detail.typeUses config)) := by
  cases detail with
  | typeAnnotations visible infos => exact yields_annotationInfos visible _
  | other name length => exact yields_pure rfl

end Extract

end ClassAtlas
