import ClassAtlas.Proofs.Extraction.Cache
import ClassAtlas.Proofs.Extraction.Operands

/-!
# Mentions in annotations

Annotations that were read back bring the mentions of the classes that their description names, in
the same order.
-/

namespace ClassAtlas

open Name

namespace Extract

variable {α β γ : Type}

theorem Gives.bind_ok {x : Extract α} {a : α} {f : α → Extract β} {r : Except DecodeError β}
    (hx : x.Gives (.ok a)) (hf : (f a).Gives r) : (x >>= f).Gives r :=
  hx.bind (g := fun _ => r) fun _ ha => Except.ok.inj ha ▸ hf

theorem gives_fieldType_of_ok {text : String} {t : FieldType} (h : FieldType.parse text = .ok t) :
    (fieldType text).Gives (.ok t) := by
  have htype := gives_fieldType text
  rwa [h] at htype

theorem gives_methodType_of_ok {text : String} {t : MethodType}
    (h : MethodType.parse text = .ok t) : (methodType text).Gives (.ok t) := by
  have htype := gives_methodType text
  rwa [h] at htype

theorem gives_mapM {part : β → Extract γ} {f : α → γ} {specs : List α} {l : List β}
    (h : List.Forall₂ (fun s b => (part b).Gives (.ok (f s))) specs l) :
    (l.mapM part).Gives (.ok (specs.map f)) := by
  induction h with
  | nil => exact gives_pure []
  | cons hfirst _ ih =>
    rw [List.mapM_cons]
    exact hfirst.bind_ok (ih.bind_ok (gives_pure _))

theorem gives_concat {part : β → Extract Mentions} {f : α → Mentions} {specs : List α} {l : List β}
    (h : List.Forall₂ (fun s b => (part b).Gives (.ok (f s))) specs l) :
    (concat part l).Gives (.ok (specs.flatMap f)) :=
  (gives_mapM h).bind_ok (gives_pure _)

theorem mentionAll_append (k : EdgeKind) (l m : List String) :
    mentionAll k (l ++ m) = mentionAll k l ++ mentionAll k m := List.map_append

theorem mentionAll_flatMap (k : EdgeKind) (l : List α) (f : α → List String) :
    mentionAll k (l.flatMap f) = l.flatMap fun a => mentionAll k (f a) := List.map_flatMap

/-! ## Annotations -/

section

variable {pool : Pool} {config : ExtractionConfig}

theorem gives_typeMention {i : UInt16} {text : String} (hi : pool.utf8 i = .ok text)
    (htext : (FieldType.parse text).isOk = true) :
    (typeMention pool i).Gives (.ok (mentionAll .annotationRef (descriptorClass text))) := by
  obtain ⟨t, ht⟩ := exists_of_isOk htext
  rw [descriptorClass, ht, typeMention, hi]
  exact (gives_ofExcept _).bind_ok ((gives_fieldType_of_ok ht).bind_ok (gives_pure _))

theorem gives_classMention {i : UInt16} {text : String} (hi : pool.utf8 i = .ok text)
    (htext : (FieldType.parseResult text).isOk = true) :
    (classMention pool i).Gives (.ok (mentionAll .annotationRef (resultClass text))) := by
  obtain ⟨t, ht⟩ := exists_of_isOk htext
  have hnames : resultClass text = (t.bind FieldType.classLeaf?).toList := by
    rw [FieldType.parseResult] at ht
    rw [resultClass]
    split at ht
    · next hvoid =>
      cases ht
      rw [if_pos hvoid]
      rfl
    · next hvoid =>
      rw [if_neg hvoid, descriptorClass]
      cases hparse : FieldType.parse text with
      | error e =>
        rw [hparse] at ht
        cases ht
      | ok type =>
        rw [hparse] at ht
        cases ht
        rfl
  rw [hnames, classMention, hi]
  refine (gives_ofExcept _).bind_ok ?_
  rw [ht]
  exact (gives_ofExcept _).bind_ok (gives_pure _)

mutual

theorem gives_elementValue : (e : ElementSpec) → (v : ElementValue) → e.wellFormed = true →
    e.ReadAs pool v → (elementValue pool v).Gives (.ok (mentionAll .annotationRef e.classNames))
  | .int n, v, _, hread => by
    cases v with
    | const tag i =>
      rw [elementValue, ElementSpec.classNames]
      exact gives_pure _
    | _ => simp [ElementSpec.ReadAs] at hread
  | .str text, v, _, hread => by
    cases v with
    | const tag i =>
      rw [elementValue, ElementSpec.classNames]
      exact gives_pure _
    | _ => simp [ElementSpec.ReadAs] at hread
  | .enum descriptor constant, v, hformed, hread => by
    cases v with
    | enum type name =>
      rw [ElementSpec.wellFormed] at hformed
      rw [ElementSpec.ReadAs] at hread
      rw [elementValue, ElementSpec.classNames]
      exact gives_typeMention hread.1 hformed
    | _ => simp [ElementSpec.ReadAs] at hread
  | .classValue descriptor, v, hformed, hread => by
    cases v with
    | classInfo i =>
      rw [ElementSpec.wellFormed] at hformed
      rw [ElementSpec.ReadAs] at hread
      rw [elementValue, ElementSpec.classNames]
      exact gives_classMention hread hformed
    | _ => simp [ElementSpec.ReadAs] at hread
  | .nested descriptor elements, v, hformed, hread => by
    cases v with
    | nested type values =>
      rw [ElementSpec.wellFormed, Bool.and_eq_true] at hformed
      rw [ElementSpec.ReadAs] at hread
      rw [elementValue, ElementSpec.classNames, mentionAll_append]
      exact (gives_typeMention hread.1 hformed.1).bind_ok
        ((gives_elementValues elements values hformed.2 hread.2).bind_ok (gives_pure _))
    | _ => simp [ElementSpec.ReadAs] at hread
  | .array elements, v, hformed, hread => by
    cases v with
    | array values =>
      rw [ElementSpec.wellFormed] at hformed
      rw [ElementSpec.ReadAs] at hread
      rw [elementValue, ElementSpec.classNames]
      exact gives_arrayValues elements values hformed hread
    | _ => simp [ElementSpec.ReadAs] at hread

theorem gives_elementValues : (l : List (String × ElementSpec)) →
    (values : List (UInt16 × ElementValue)) → ElementSpec.namedWellFormed l = true →
    ElementSpec.NamedReadAs pool l values →
    (elementValues pool values).Gives
      (.ok (mentionAll .annotationRef (ElementSpec.namedClassNames l)))
  | [], values, _, hread => by
    cases values with
    | nil =>
      rw [elementValues, ElementSpec.namedClassNames]
      exact gives_pure _
    | cons _ _ => simp [ElementSpec.NamedReadAs] at hread
  | (name, e) :: l, values, hformed, hread => by
    cases values with
    | nil => simp [ElementSpec.NamedReadAs] at hread
    | cons v values =>
      rw [ElementSpec.namedWellFormed, Bool.and_eq_true] at hformed
      rw [ElementSpec.NamedReadAs] at hread
      rw [elementValues, ElementSpec.namedClassNames, mentionAll_append]
      exact (gives_elementValue e v.2 hformed.1 hread.2.1).bind_ok
        ((gives_elementValues l values hformed.2 hread.2.2).bind_ok (gives_pure _))

theorem gives_arrayValues : (l : List ElementSpec) → (values : List ElementValue) →
    ElementSpec.allWellFormed l = true → ElementSpec.AllReadAs pool l values →
    (arrayValues pool values).Gives (.ok (mentionAll .annotationRef (ElementSpec.allClassNames l)))
  | [], values, _, hread => by
    cases values with
    | nil =>
      rw [arrayValues, ElementSpec.allClassNames]
      exact gives_pure _
    | cons _ _ => simp [ElementSpec.AllReadAs] at hread
  | e :: l, values, hformed, hread => by
    cases values with
    | nil => simp [ElementSpec.AllReadAs] at hread
    | cons v values =>
      rw [ElementSpec.allWellFormed, Bool.and_eq_true] at hformed
      rw [ElementSpec.AllReadAs] at hread
      rw [arrayValues, ElementSpec.allClassNames, mentionAll_append]
      exact (gives_elementValue e v hformed.1 hread.1).bind_ok
        ((gives_arrayValues l values hformed.2 hread.2).bind_ok (gives_pure _))

end

theorem gives_annotationInfo {a : AnnotationSpec} {info : AnnotationInfo}
    (hformed : a.wellFormed = true) (hread : a.ReadAs pool info) :
    (annotationInfo config pool info).Gives
      (.ok (mentionAll .annotationRef (a.classNames config))) := by
  rw [AnnotationSpec.wellFormed, Bool.and_eq_true] at hformed
  rw [AnnotationSpec.classNames, mentionAll_append, annotationInfo]
  refine (gives_typeMention hread.1 hformed.1).bind_ok ?_
  dsimp only
  split
  · exact (gives_elementValues a.elements info.elements hformed.2 hread.2).bind_ok (gives_pure _)
  · exact (gives_pure []).bind_ok (gives_pure _)

theorem gives_annotationInfos (visible : Bool) {l : List AnnotationSpec}
    {infos : List AnnotationInfo} (hformed : l.all AnnotationSpec.wellFormed = true)
    (hread : List.Forall₂ (AnnotationSpec.ReadAs pool) l infos) :
    (annotationInfos config pool visible infos).Gives
      (.ok (mentionAll .annotationRef (annotationClasses config visible l))) := by
  have hall := (List.forall₂_and_left _ _).2 ⟨List.all_eq_true.1 hformed, hread⟩
  rw [annotationInfos, annotationClasses]
  split
  · rw [mentionAll_flatMap]
    exact gives_concat (hall.imp fun a info h => gives_annotationInfo h.1 h.2)
  · exact gives_pure _

theorem gives_typeAnnotations {l : List AnnotationSpec} {infos : List TypeAnnotationInfo}
    (hformed : l.all AnnotationSpec.wellFormed = true)
    (hread : List.Forall₂ (fun a t => a.ReadAs pool t.info) l infos) :
    (annotationInfos config pool true (infos.map (·.info))).Gives
      (.ok (mentionAll .annotationRef (annotationClasses config true l))) :=
  gives_annotationInfos true hformed (List.forall₂_map_right_iff.2 hread)

end

end Extract

end ClassAtlas
