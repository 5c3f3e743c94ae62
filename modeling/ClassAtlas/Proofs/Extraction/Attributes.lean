import ClassAtlas.Proofs.Extraction.Annotations

/-!
# What attributes tell

Extraction reads the signature, the body, the declared exceptions and the annotations of a class or
a member off its attributes. Attributes that were read back tell just what the description says, and
those that were left out because they are empty are not missed.

## Main definitions

* `AttributeSpec.annotationNames` lists the classes in the annotations of an attribute.
-/

namespace ClassAtlas

open Name

/-! ## One attribute -/

namespace AttributeSpec

/-- The classes in the annotations of an attribute, if it is interpreted at the place. -/
def annotationNames (config : ExtractionConfig) (place : Place) : AttributeSpec → List String
  | annotations visible l => annotationClasses config visible l
  | typeAnnotations l => annotationClasses config true l
  | parameterAnnotations parameters =>
    if place = .onMethod then annotationClasses config true parameters.flatten else []
  | defaultValue value =>
    if place = .onMethod then if config.annotationValues then value.classNames else [] else []
  | code _ | exceptions _ | signature _ | other _ => []

/-- The annotations of an attribute can be read, if it is interpreted at the place. -/
def annotationsWellFormed (place : Place) : AttributeSpec → Bool
  | annotations _ l | typeAnnotations l => l.all AnnotationSpec.wellFormed
  | parameterAnnotations parameters =>
    place ≠ .onMethod || parameters.flatten.all AnnotationSpec.wellFormed
  | defaultValue value => place ≠ .onMethod || value.wellFormed
  | code _ | exceptions _ | signature _ | other _ => true

theorem allPlain_annotationNames (config : ExtractionConfig) (place : Place) (s : AttributeSpec) :
    AllPlain (s.annotationNames config place) := by
  cases s with
  | annotations visible l => exact allPlain_annotationClasses config visible l
  | typeAnnotations l => exact allPlain_annotationClasses config true l
  | parameterAnnotations parameters =>
    rw [annotationNames]
    split
    · exact allPlain_annotationClasses config true _
    · exact allPlain_nil
  | defaultValue value =>
    rw [annotationNames]
    split
    · split
      · exact value.allPlain_classNames
      · exact allPlain_nil
    · exact allPlain_nil
  | code | exceptions | signature | other => exact allPlain_nil

variable {pool : Pool} {config : ExtractionConfig} {place : Place}

theorem gives_of_isOther {a : Attribute} (h : a.IsOther) :
    (Extract.annotationsOf config pool a).Gives (.ok []) := by
  obtain ⟨name, length, rfl⟩ := h
  exact Extract.gives_pure []

theorem gives_annotationsOf {s : AttributeSpec} {a : Attribute}
    (hformed : s.annotationsWellFormed place = true) (hread : s.ReadAs pool place a) :
    (Extract.annotationsOf config pool a).Gives
      (.ok (Extract.mentionAll .annotationRef (s.annotationNames config place))) := by
  cases s with
  | annotations visible l =>
    obtain ⟨infos, rfl, hinfos⟩ := hread
    exact Extract.gives_annotationInfos visible hformed hinfos
  | typeAnnotations l =>
    obtain ⟨infos, rfl, hinfos⟩ := hread
    exact Extract.gives_typeAnnotations hformed hinfos
  | parameterAnnotations parameters =>
    rw [annotationNames]
    rw [ReadAs] at hread
    split at hread
    · next hplace =>
      obtain ⟨lists, rfl, hlists⟩ := hread
      rw [if_pos hplace]
      simp only [annotationsWellFormed, hplace] at hformed
      exact Extract.gives_annotationInfos true hformed (List.rel_flatten hlists)
    · next hplace =>
      rw [if_neg hplace]
      exact gives_of_isOther hread
  | defaultValue value =>
    rw [annotationNames]
    rw [ReadAs] at hread
    split at hread
    · next hplace =>
      obtain ⟨v, rfl, hv⟩ := hread
      rw [if_pos hplace]
      simp only [annotationsWellFormed, hplace] at hformed
      rw [Extract.annotationsOf]
      split
      · exact Extract.gives_elementValue value v hformed hv
      · exact Extract.gives_pure _
    · next hplace =>
      rw [if_neg hplace]
      exact gives_of_isOther hread
  | signature text =>
    cases hread
    exact Extract.gives_pure []
  | other name => exact gives_of_isOther hread
  | code c =>
    rw [ReadAs] at hread
    split at hread
    · obtain ⟨body, rfl, _⟩ := hread
      exact Extract.gives_pure []
    · exact gives_of_isOther hread
  | exceptions classes =>
    rw [ReadAs] at hread
    split at hread
    · obtain ⟨indices, rfl, _⟩ := hread
      exact Extract.gives_pure []
    · exact gives_of_isOther hread

/-- Attributes that were read back bring the classes of all their annotations. -/
theorem gives_concat_annotationsOf {specs : List AttributeSpec} {attrs : List Attribute}
    (hformed : ∀ s ∈ specs, s.annotationsWellFormed place = true)
    (hread : List.Forall₂ (fun s a => s.ReadAs pool place a) specs attrs) :
    (Extract.concat (Extract.annotationsOf config pool) attrs).Gives
      (.ok (Extract.mentionAll .annotationRef (specs.flatMap (annotationNames config place)))) := by
  have hall := (List.forall₂_and_left _ _).2 ⟨hformed, hread⟩
  rw [Extract.mentionAll_flatMap]
  exact Extract.gives_concat (hall.imp fun s a h => gives_annotationsOf h.1 h.2)

variable {s : AttributeSpec} {a : Attribute}

def signature? : AttributeSpec → Option String
  | signature text => some text
  | _ => none

def code? : AttributeSpec → Option CodeSpec
  | code c => some c
  | _ => none

def thrown : AttributeSpec → List String
  | exceptions classes => classes
  | _ => []

theorem ReadAs.signature?_eq (h : s.ReadAs pool place a) :
    Option.Rel (· = ·) s.signature? a.signature? := by
  cases s with
  | signature text =>
    cases h
    exact .some rfl
  | annotations | typeAnnotations =>
    obtain ⟨_, rfl, _⟩ := h
    exact .none
  | other =>
    obtain ⟨_, _, rfl⟩ := h
    exact .none
  | code | exceptions | parameterAnnotations | defaultValue =>
    rw [ReadAs] at h
    split at h
    · obtain ⟨_, rfl, _⟩ := h
      exact .none
    · obtain ⟨_, _, rfl⟩ := h
      exact .none

theorem ReadAs.code?_rel (h : s.ReadAs pool .onMethod a) :
    Option.Rel (CodeSpec.ReadAs pool) s.code? a.code? := by
  cases s with
  | code c =>
    obtain ⟨body, rfl, hbody⟩ := h
    exact .some hbody
  | signature text =>
    cases h
    exact .none
  | exceptions | annotations | parameterAnnotations | typeAnnotations | defaultValue =>
    obtain ⟨_, rfl, _⟩ := h
    exact .none
  | other =>
    obtain ⟨_, _, rfl⟩ := h
    exact .none

theorem ReadAs.thrown_rel : s.ReadAs pool .onMethod a →
    List.Forall₂ (fun name i => pool.className i = .ok name) s.thrown
      (match a with
        | .exceptions classes => classes
        | _ => []) := by
  intro h
  cases s with
  | exceptions classes =>
    obtain ⟨indices, rfl, hindices⟩ := h
    exact hindices
  | signature text =>
    cases h
    exact .nil
  | code | annotations | parameterAnnotations | typeAnnotations | defaultValue =>
    obtain ⟨_, rfl, _⟩ := h
    exact .nil
  | other =>
    obtain ⟨_, _, rfl⟩ := h
    exact .nil

end AttributeSpec

/-! ## All attributes of a list -/

theorem findSome?_rel {α β γ δ : Type} {R : α → β → Prop} {Q : γ → δ → Prop} {f : α → Option γ}
    {g : β → Option δ} (hfg : ∀ a b, R a b → Option.Rel Q (f a) (g b)) {l : List α} {m : List β}
    (h : List.Forall₂ R l m) : Option.Rel Q (l.findSome? f) (m.findSome? g) := by
  induction h with
  | nil => exact .none
  | @cons a b l m hab _ ih =>
    have hfirst := hfg a b hab
    rw [List.findSome?_cons, List.findSome?_cons]
    generalize f a = x, g b = y at hfirst
    cases hfirst with
    | some h => exact .some h
    | none => exact ih

section

variable {pool : Pool} {place : Place}

/-- The signature among the attributes is the one that was described. -/
theorem signatureOf?_eq {specs : List AttributeSpec} {attrs : List Attribute}
    (h : List.Forall₂ (fun s a => s.ReadAs pool place a) specs attrs) :
    signatureOf? attrs = specs.findSome? AttributeSpec.signature? := by
  have hrel := findSome?_rel (fun s a hread => AttributeSpec.ReadAs.signature?_eq hread) h
  rw [signatureOf?]
  generalize specs.findSome? AttributeSpec.signature? = x, attrs.findSome? Attribute.signature? = y
    at hrel
  cases hrel with
  | some heq => rw [heq]
  | none => rfl

end

section

variable {α β : Type} {f : List α → AttributeSpec} {g : AttributeSpec → List β}

theorem flatMap_filter_isEmpty {h : List α → List β} {l : List α} (hnil : h [] = []) :
    ([l].filter (!·.isEmpty)).flatMap h = h l := by
  cases l <;> simp [hnil]

theorem flatMap_unlessEmpty (l : List α) (hnil : g (f []) = []) :
    (([l].filter (!·.isEmpty)).map f).flatMap g = g (f l) := by
  rw [List.flatMap_map]
  exact flatMap_filter_isEmpty hnil

theorem flatMap_ifSome (o : Option α) (f : α → AttributeSpec) :
    (o.toList.map f).flatMap g = o.elim [] fun a => g (f a) := by
  cases o <;> simp

theorem elim_const_nil (o : Option α) : o.elim ([] : List β) (fun _ => []) = [] := by
  cases o <;> rfl

theorem flatMap_const_nil (l : List α) : l.flatMap (fun _ => ([] : List β)) = [] := by
  simp

theorem forall_mem_ifSome {P : AttributeSpec → Prop} {o : Option α} {f : α → AttributeSpec}
    (h : ∀ a ∈ o, P (f a)) : ∀ s ∈ o.toList.map f, P s := by
  simpa using h

theorem forall_mem_unlessEmpty {P : AttributeSpec → Prop} {l : List α} (h : P (f l)) :
    ∀ s ∈ ([l].filter (!·.isEmpty)).map f, P s := by
  intro s hs
  obtain ⟨l', hl', rfl⟩ := List.mem_map.1 hs
  rwa [List.mem_singleton.1 (List.mem_of_mem_filter hl')]

theorem findSome?_const_none (l : List α) : l.findSome? (fun _ => (none : Option β)) = none := by
  simp

theorem findSome?_toList (o : Option α) : o.toList.findSome? some = o := by
  cases o <;> rfl

end

theorem annotationClasses_nil (config : ExtractionConfig) (visible : Bool) :
    annotationClasses config visible [] = [] := by
  simp [annotationClasses]

/-! ## The attributes of a member -/

namespace MemberSpec

variable (m : MemberSpec)

theorem signature?_attributeSpecs :
    m.attributeSpecs.findSome? AttributeSpec.signature? = m.signature := by
  simp [attributeSpecs, List.findSome?_append, List.findSome?_map, Function.comp_def,
    AttributeSpec.signature?, findSome?_const_none, findSome?_toList]

theorem code?_attributeSpecs :
    m.attributeSpecs.findSome? AttributeSpec.code? = m.code := by
  simp [attributeSpecs, List.findSome?_append, List.findSome?_map, Function.comp_def,
    AttributeSpec.code?, findSome?_const_none, findSome?_toList]

theorem forall_mem_attributeSpecs {P : AttributeSpec → Prop} (hcode : ∀ c ∈ m.code, P (.code c))
    (hexceptions : P (.exceptions m.exceptions)) (hsignature : ∀ t ∈ m.signature, P (.signature t))
    (hvisible : P (.annotations true m.annotations))
    (hinvisible : P (.annotations false m.invisibleAnnotations))
    (hparameters : P (.parameterAnnotations m.parameterAnnotations))
    (htypes : P (.typeAnnotations m.typeAnnotations))
    (hdefault : ∀ v ∈ m.defaultValue, P (.defaultValue v)) : ∀ s ∈ m.attributeSpecs, P s := by
  simp only [attributeSpecs, List.forall_mem_append]
  exact ⟨⟨⟨⟨⟨⟨⟨forall_mem_ifSome hcode, forall_mem_unlessEmpty hexceptions⟩,
    forall_mem_ifSome hsignature⟩, forall_mem_unlessEmpty hvisible⟩,
    forall_mem_unlessEmpty hinvisible⟩, forall_mem_unlessEmpty hparameters⟩,
    forall_mem_unlessEmpty htypes⟩, forall_mem_ifSome hdefault⟩

/-- What is read off the attributes one after the other can be read off the member. -/
theorem flatMap_attributeSpecs {β : Type} {g : AttributeSpec → List β}
    (hexceptions : g (.exceptions []) = [])
    (hannotations : ∀ visible, g (.annotations visible []) = [])
    (hparameters : g (.parameterAnnotations []) = []) (htypes : g (.typeAnnotations []) = []) :
    m.attributeSpecs.flatMap g = m.code.elim [] (fun c => g (.code c)) ++
      g (.exceptions m.exceptions) ++ m.signature.elim [] (fun t => g (.signature t)) ++
      g (.annotations true m.annotations) ++ g (.annotations false m.invisibleAnnotations) ++
      g (.parameterAnnotations m.parameterAnnotations) ++ g (.typeAnnotations m.typeAnnotations) ++
      m.defaultValue.elim [] (fun v => g (.defaultValue v)) := by
  simp only [attributeSpecs, List.flatMap_append, flatMap_ifSome]
  rw [flatMap_unlessEmpty _ hexceptions, flatMap_unlessEmpty _ (hannotations true),
    flatMap_unlessEmpty _ (hannotations false), flatMap_unlessEmpty _ hparameters,
    flatMap_unlessEmpty _ htypes]

theorem thrown_attributeSpecs :
    m.attributeSpecs.flatMap AttributeSpec.thrown = m.exceptions := by
  rw [m.flatMap_attributeSpecs rfl (fun _ => rfl) rfl rfl]
  simp [AttributeSpec.thrown, elim_const_nil]

variable (config : ExtractionConfig)

theorem annotationNames_onField :
    m.attributeSpecs.flatMap (AttributeSpec.annotationNames config .onField) =
      m.annotationNames config := by
  rw [m.flatMap_attributeSpecs rfl (annotationClasses_nil config) rfl
    (annotationClasses_nil config true)]
  simp [AttributeSpec.annotationNames, annotationNames, elim_const_nil]

theorem count_annotationNames_onMethod (target : String) :
    (m.attributeSpecs.flatMap (AttributeSpec.annotationNames config .onMethod)).count target =
      (m.annotationNames config).count target + (m.methodAnnotationNames config).count target := by
  have hnil := annotationClasses_nil config
  rw [m.flatMap_attributeSpecs rfl hnil (by simp [AttributeSpec.annotationNames, hnil]) (hnil true)]
  have hdefault : (m.defaultValue.elim [] fun v =>
      AttributeSpec.annotationNames config .onMethod (.defaultValue v)) =
        if config.annotationValues then m.defaultValue.elim [] ElementSpec.classNames else [] := by
    cases m.defaultValue with
    | none => simp
    | some v => simp [AttributeSpec.annotationNames]
  rw [hdefault]
  simp only [AttributeSpec.annotationNames, annotationNames, methodAnnotationNames, elim_const_nil,
    List.count_append, List.count_nil, if_true]
  omega

variable {pool : Pool} {place : Place} {m : MemberSpec} {member : Member}

theorem ReadAs.signature?_eq (h : m.ReadAs pool place member) :
    member.signature? = m.signature := by
  rw [Member.signature?, signatureOf?_eq h.attributes, signature?_attributeSpecs]

theorem ReadAs.code?_rel (h : m.ReadAs pool .onMethod member) :
    Option.Rel (CodeSpec.ReadAs pool) m.code member.code? := by
  rw [← m.code?_attributeSpecs]
  exact findSome?_rel (fun s a hread => AttributeSpec.ReadAs.code?_rel hread) h.attributes

theorem ReadAs.exceptions (h : m.ReadAs pool .onMethod member) :
    List.Forall₂ (fun name i => pool.className i = .ok name) m.exceptions
      (Extract.exceptionIndices member) := by
  rw [← m.thrown_attributeSpecs]
  exact List.rel_flatMap h.attributes fun s a hread => hread.thrown_rel

end MemberSpec

/-! ## The attributes of a class -/

namespace ClassSpec

variable (c : ClassSpec)

theorem signature?_attributeSpecs :
    c.attributeSpecs.findSome? AttributeSpec.signature? = c.signature := by
  simp [attributeSpecs, List.findSome?_append, List.findSome?_map, Function.comp_def,
    AttributeSpec.signature?, findSome?_const_none, findSome?_toList]

theorem annotationNames_attributeSpecs (config : ExtractionConfig) :
    c.attributeSpecs.flatMap (AttributeSpec.annotationNames config .onClass) =
      annotationClasses config true c.annotations ++
        annotationClasses config false c.invisibleAnnotations := by
  simp only [attributeSpecs, List.flatMap_append, flatMap_ifSome]
  rw [flatMap_unlessEmpty _ (annotationClasses_nil config true),
    flatMap_unlessEmpty _ (annotationClasses_nil config false)]
  simp [AttributeSpec.annotationNames, elim_const_nil, List.flatMap_map, flatMap_const_nil]

end ClassSpec

end ClassAtlas
