import ClassAtlas.Analysis.Failure
import ClassAtlas.Proofs.Extraction.Attributes

/-!
# Extraction is faithful

The references of an assembled class are those that its description mentions. The description is
related to the decoded class by `ClassSpec.ReadAs`; each part of the extraction is then followed on
the decoded side while its mentions are counted on the side of the description.

## Main definitions

* `Extract.Counts` says that a computation gives mentions that add up to given numbers.
-/

namespace ClassAtlas

open Name

namespace Extract

variable {α β : Type} {pool : Pool} {config : ExtractionConfig}

/-- The computation gives mentions that add up to a number for each target and kind. -/
def Counts (x : Extract Mentions) (n : String → EdgeKind → Nat) : Prop :=
  ∃ l, x.Gives (.ok l) ∧
    ∀ target kind, target ≠ "" → timesMentioned l target kind = n target kind

theorem counts_concat {part : β → Extract Mentions} {n : α → String → EdgeKind → Nat}
    {specs : List α} {l : List β} (h : List.Forall₂ (fun s b => (part b).Counts (n s)) specs l) :
    (concat part l).Counts fun target kind => sumOf (fun s => n s target kind) specs := by
  suffices hlists : ∃ lists, (l.mapM part).Gives (.ok lists) ∧ ∀ target kind, target ≠ "" →
      timesMentioned lists.flatten target kind = sumOf (fun s => n s target kind) specs by
    obtain ⟨lists, hlists, hcount⟩ := hlists
    exact ⟨_, hlists.bind_ok (gives_pure _), hcount⟩
  induction h with
  | nil => exact ⟨[], gives_pure [], fun _ _ _ => rfl⟩
  | cons hfirst _ ih =>
    obtain ⟨first, hfirst, hn⟩ := hfirst
    obtain ⟨others, hothers, hns⟩ := ih
    refine ⟨first :: others, ?_, fun target kind ht => ?_⟩
    · rw [List.mapM_cons]
      exact hfirst.bind_ok (hothers.bind_ok (gives_pure _))
    · rw [List.flatten_cons, timesMentioned_append, hn target kind ht, hns target kind ht,
        sumOf_cons]

theorem counts_withSignature {declared : List (EdgeKind × List String)}
    {names : String → List (EdgeKind × List String)} {text? : Option String}
    {view : String → Except Malformed Tally} (hdeclared : ∀ part ∈ declared, AllPlain part.2)
    (hview : ∀ text ∈ text?, view text = .ok (.ofNames (names text)) ∧
      ∀ part ∈ names text, AllPlain part.2) :
    (withSignature config (.ofNames declared) text? view).Counts
      (timesDeclared config declared (text?.map names)) := by
  have hzero {parts : List (EdgeKind × List String)} (hparts : ∀ part ∈ parts, AllPlain part.2)
      {link : Link} (hlink : ¬ IsPlain link.unit) :
      ((Tally.ofNames parts).get? link).getD 0 = 0 := by
    rw [Tally.getD_ofNames]
    exact timesNamed_eq_zero (fun part hpart hmem => hlink (hparts part hpart _ hmem)) _
  have hsingle {target : String} {kind : EdgeKind} (ht : target ≠ "") :
      timesMentioned (Tally.ofNames declared).toList target kind =
        timesNamed declared target kind := by
    rw [Tally.timesMentioned_toList (fun _ => hzero hdeclared) ht, Tally.getD_ofNames]
  unfold withSignature
  cases hsignatures : config.signatures with
  | false =>
    refine ⟨_, gives_pure _, fun target kind ht => ?_⟩
    rw [hsingle ht, timesDeclared, hsignatures]
    rfl
  | true =>
    cases text? with
    | none =>
      refine ⟨_, gives_pure _, fun target kind ht => ?_⟩
      rw [hsingle ht, timesDeclared, hsignatures, if_pos rfl]
      exact (Nat.max_zero _).symm
    | some text =>
      obtain ⟨hview, hnames⟩ := hview text rfl
      refine ⟨((Tally.ofNames declared).mergeMax (.ofNames (names text))).toList, ?_,
        fun target kind ht => ?_⟩
      · dsimp only
        rw [hview]
        exact (gives_ofExcept _).bind_ok (gives_pure _)
      · rw [Tally.timesMentioned_toList _ ht, Tally.getD_mergeMax, Tally.getD_ofNames,
          Tally.getD_ofNames, timesDeclared, hsignatures, if_pos rfl]
        · rfl
        · intro link hlink
          rw [Tally.getD_mergeMax, hzero hdeclared hlink, hzero hnames hlink, Nat.max_self]

end Extract

/-! ## Code -/

section

variable {pool : Pool} {config : ExtractionConfig}

theorem Extract.gives_entryClass? {name : String} (h : IsEntryName name) :
    (entryClass? name).Gives (.ok (elementClass? name)) := by
  unfold entryClass?
  split
  · next harray =>
    obtain ⟨t, ht⟩ := exists_of_isOk (h.resolve_left (not_not.2 harray))
    exact (gives_fieldType_of_ok ht).bind_ok (gives_pure _)
  · exact gives_pure _

theorem CodeSpec.isEntryName_owner {c : CodeSpec} (h : c.wellFormed = true) {o : Operand}
    (ho : o ∈ c.operands) : IsEntryName o.owner := by
  rw [wellFormed, Bool.and_eq_true] at h
  simpa using List.all_eq_true.1 h.1 o ho

theorem CodeSpec.allPlain_touchedClasses {c : CodeSpec} (h : c.wellFormed = true) :
    AllPlain c.touchedClasses := by
  intro name hname
  obtain ⟨o, ho, hclass⟩ := List.mem_filterMap.1 hname
  exact (isEntryName_owner h (List.mem_dedup.1 ho)).isPlain_elementClass? hclass

theorem CodeSpec.gives_details (config : ExtractionConfig) {c : CodeSpec} {body : Code}
    (hformed : c.wellFormed = true) (hread : c.ReadAs pool body) :
    (Extract.concat (Extract.annotationsOfDetail config pool) body.details).Gives (.ok
      (Extract.mentionAll .annotationRef (annotationClasses config true c.typeAnnotations))) := by
  have hlists : ∀ l ∈ [c.typeAnnotations].filter (!·.isEmpty),
      l.all AnnotationSpec.wellFormed = true := by
    intro l hl
    rw [wellFormed, Bool.and_eq_true] at hformed
    rw [List.mem_singleton.1 (List.mem_of_mem_filter hl)]
    exact hformed.2
  have hdetails : List.Forall₂ (fun l detail =>
      (Extract.annotationsOfDetail config pool detail).Gives
        (.ok (Extract.mentionAll .annotationRef (annotationClasses config true l))))
      ([c.typeAnnotations].filter (!·.isEmpty)) body.details := by
    refine ((List.forall₂_and_left _ _).2 ⟨hlists, hread.details⟩).imp ?_
    rintro l detail ⟨hl, infos, rfl, hinfos⟩
    exact Extract.gives_typeAnnotations hl hinfos
  have hconcat := Extract.gives_concat hdetails
  rwa [← Extract.mentionAll_flatMap, flatMap_filter_isEmpty (annotationClasses_nil config true)]
    at hconcat

theorem CodeSpec.counts_code {c : CodeSpec} {body : Code} (hformed : c.wellFormed = true)
    (hread : c.ReadAs pool body) (hpool : pool.Distinct) :
    (Extract.code config pool body).Counts (timesNamed [(.instructionRef, c.touchedClasses),
      (.annotationRef, annotationClasses config true c.typeAnnotations)]) := by
  obtain ⟨m, hm, hperm⟩ := hread.touched hpool
  generalize howners : m.values.filterMap id = owners at hperm
  have hclasses : (owners.mapM Extract.entryClass?).Gives (.ok (owners.map elementClass?)) := by
    refine Extract.gives_mapM (List.forall₂_same.2 fun owner howner => ?_)
    obtain ⟨o, ho, rfl⟩ := List.mem_map.1 (hperm.mem_iff.1 howner)
    exact Extract.gives_entryClass? (isEntryName_owner hformed (List.mem_dedup.1 ho))
  have hmarks := gives_details config hformed hread
  have hgives : (Extract.code config pool body).Gives
      (.ok (Extract.mentionAll .instructionRef ((owners.map elementClass?).filterMap id) ++
        Extract.mentionAll .annotationRef (annotationClasses config true c.typeAnnotations))) := by
    rw [Extract.code, hm]
    refine (Extract.gives_ofExcept _).bind_ok ?_
    dsimp only
    rw [howners]
    exact hclasses.bind_ok (hmarks.bind_ok (Extract.gives_pure _))
  have htouched : ((owners.map elementClass?).filterMap id).Perm c.touchedClasses := by
    have hfilter := hperm.filterMap elementClass?
    rw [List.filterMap_map] at hfilter ⊢
    exact hfilter
  refine ⟨_, hgives, fun target kind ht => ?_⟩
  rw [timesMentioned_append, timesMentioned_mentionAll _ ht, timesMentioned_mentionAll _ ht,
    htouched.count_eq]
  · rfl
  · exact allPlain_annotationClasses config true _
  · exact fun name hname => allPlain_touchedClasses hformed name (htouched.mem_iff.1 hname)

end

/-! ## Members -/

section

variable {pool : Pool} {place : Place}

theorem fieldSignature_view {text : String} (h : (RefType.parse text).isOk = true) :
    Extract.fieldSignatureTally text = .ok (.ofNames (fieldSignatureNames text)) ∧
      ∀ part ∈ fieldSignatureNames text, AllPlain part.2 := by
  obtain ⟨t, ht⟩ := exists_of_isOk h
  rw [Extract.fieldSignatureTally, fieldSignatureNames, ht]
  refine ⟨rfl, ?_⟩
  simpa using RefType.allPlain_of_parse ht

theorem methodSignature_view {text : String} (h : (MethodSignature.parse text).isOk = true) :
    Extract.methodSignatureTally text = .ok (.ofNames (methodSignatureNames text)) ∧
      ∀ part ∈ methodSignatureNames text, AllPlain part.2 := by
  obtain ⟨t, ht⟩ := exists_of_isOk h
  rw [Extract.methodSignatureTally, methodSignatureNames, ht]
  refine ⟨rfl, ?_⟩
  simpa using MethodSignature.allPlain_of_parse ht

theorem classSignature_view {text : String} (h : (ClassSignature.parse text).isOk = true) :
    Extract.classSignatureTally text = .ok (.ofNames (classSignatureNames text)) ∧
      ∀ part ∈ classSignatureNames text, AllPlain part.2 := by
  obtain ⟨t, ht⟩ := exists_of_isOk h
  rw [Extract.classSignatureTally, classSignatureNames, ht]
  refine ⟨rfl, ?_⟩
  simpa using ClassSignature.allPlain_of_parse ht

/-- The mentions in the annotations of attributes. -/
theorem counts_annotationsOf (config : ExtractionConfig) {specs : List AttributeSpec}
    {attrs : List Attribute} (hformed : ∀ s ∈ specs, s.annotationsWellFormed place = true)
    (hread : List.Forall₂ (fun s a => s.ReadAs pool place a) specs attrs) :
    (Extract.concat (Extract.annotationsOf config pool) attrs).Counts
      (timesNamed
        [(.annotationRef, specs.flatMap (AttributeSpec.annotationNames config place))]) := by
  refine ⟨_, AttributeSpec.gives_concat_annotationsOf hformed hread, fun target kind ht => ?_⟩
  rw [timesMentioned_mentionAll _ ht]
  · rfl
  · exact .flatMap fun s _ => s.allPlain_annotationNames config place

namespace MemberSpec

variable {m : MemberSpec} {member : Member}

/-- The mentions in a field are those of its description. -/
theorem counts_field (config : ExtractionConfig) (hformed : m.fieldWellFormed = true)
    (hread : m.ReadAs pool .onField member) :
    (Extract.field config pool member).Counts (m.timesInField config) := by
  simp only [fieldWellFormed, annotationsWellFormed, Bool.and_eq_true] at hformed
  obtain ⟨⟨hdescriptor, hsignature⟩, ⟨hvisible, hinvisible⟩, htypes⟩ := hformed
  obtain ⟨t, ht⟩ := exists_of_isOk hdescriptor
  have htype := Extract.gives_fieldType_of_ok ht
  have hleaf : descriptorClass m.descriptor = t.classLeaf?.toList := by
    rw [descriptorClass, ht]
    rfl
  have hdeclared : (Extract.withSignature config
      (.ofNames [(.fieldType, descriptorClass m.descriptor)]) m.signature
      Extract.fieldSignatureTally).Counts (timesDeclared config
        [(.fieldType, descriptorClass m.descriptor)] (m.signature.map fieldSignatureNames)) := by
    refine Extract.counts_withSignature ?_ fun text htext => fieldSignature_view ?_
    · simpa using allPlain_descriptorClass m.descriptor
    · rw [htext] at hsignature
      exact hsignature
  have hannotations : (Extract.concat (Extract.annotationsOf config pool) member.attributes).Counts
      (timesNamed [(.annotationRef, m.annotationNames config)]) := by
    rw [← m.annotationNames_onField]
    exact counts_annotationsOf config (m.forall_mem_attributeSpecs (fun _ _ => rfl) rfl
      (fun _ _ => rfl) hvisible hinvisible rfl htypes fun _ _ => rfl) hread.attributes
  obtain ⟨declared, hgives, hcount⟩ := hdeclared
  obtain ⟨annotations, hgives', hcount'⟩ := hannotations
  refine ⟨declared ++ annotations, ?_, fun target kind ht => ?_⟩
  · rw [Extract.field, hread.descriptor, hread.signature?_eq]
    rw [hleaf] at hgives
    exact htype.bind_ok (hgives.bind_ok (hgives'.bind_ok (Extract.gives_pure _)))
  · rw [timesMentioned_append, hcount target kind ht, hcount' target kind ht, timesInField]

theorem allPlain_methodNames (hexceptions : ∀ name ∈ m.exceptions, IsEntryName name) :
    ∀ part ∈ m.methodNames, AllPlain part.2 := by
  rw [methodNames]
  split
  · next t ht =>
    have hnames := MethodType.allPlain_of_parse ht
    simp only [List.forall_mem_cons]
    refine ⟨fun name hname => hnames name (List.mem_append_left _ hname),
      fun name hname => hnames name (List.mem_append_right _ hname), ?_, by simp⟩
    intro leaf hleaf
    obtain ⟨name, hname, hclass⟩ := List.mem_filterMap.1 hleaf
    exact (hexceptions name hname).isPlain_elementClass? hclass
  · simp

theorem gives_thrown (hexceptions : ∀ name ∈ m.exceptions, IsEntryName name)
    (hread : m.ReadAs pool .onMethod member) :
    ((Extract.exceptionIndices member).mapM (Extract.thrownClass? pool)).Gives
      (.ok (m.exceptions.map elementClass?)) := by
  refine Extract.gives_mapM ?_
  refine ((List.forall₂_and_left _ _).2 ⟨hexceptions, hread.exceptions⟩).imp fun name i h => ?_
  rw [Extract.thrownClass?, h.2]
  exact (Extract.gives_ofExcept _).bind_ok (Extract.gives_entryClass? h.1)

theorem counts_body (config : ExtractionConfig) (hformed : m.code.all CodeSpec.wellFormed = true)
    (hread : m.ReadAs pool .onMethod member) (hpool : pool.Distinct) :
    (match member.code? with
      | some body => Extract.code config pool body
      | none => pure []).Counts (timesNamed
        [(.instructionRef, m.code.elim [] CodeSpec.touchedClasses),
          (.annotationRef, m.codeAnnotationNames config)]) := by
  have hcode := hread.code?_rel
  rw [codeAnnotationNames]
  generalize m.code = code, member.code? = body at hformed hcode
  cases hcode with
  | some hbody => exact CodeSpec.counts_code hformed hbody hpool
  | none =>
    refine ⟨[], Extract.gives_pure [], fun target kind _ => ?_⟩
    simp [timesNamed, timesMentioned]

/-- The mentions in a method are those of its description. -/
theorem counts_method (config : ExtractionConfig) (hformed : m.methodWellFormed = true)
    (hread : m.ReadAs pool .onMethod member) (hpool : pool.Distinct) :
    (Extract.method config pool member).Counts (m.timesInMethod config) := by
  simp only [methodWellFormed, annotationsWellFormed, Bool.and_eq_true] at hformed
  obtain ⟨⟨⟨⟨⟨⟨hdescriptor, hsignature⟩, ⟨hvisible, hinvisible⟩, htypes⟩, hexceptions⟩,
    hparameters⟩, hdefault⟩, hcode⟩ := hformed
  replace hexceptions : ∀ name ∈ m.exceptions, IsEntryName name := by simpa using hexceptions
  obtain ⟨t, ht⟩ := exists_of_isOk hdescriptor
  have htype := Extract.gives_methodType_of_ok ht
  have hdeclared : (Extract.withSignature config (.ofNames m.methodNames) m.signature
      Extract.methodSignatureTally).Counts (timesDeclared config m.methodNames
        (m.signature.map methodSignatureNames)) := by
    refine Extract.counts_withSignature (allPlain_methodNames hexceptions) fun text htext =>
      methodSignature_view ?_
    rw [htext] at hsignature
    exact hsignature
  have hannotations : (Extract.concat (Extract.annotationsOf config pool) member.attributes).Counts
      (timesNamed [(.annotationRef,
        m.attributeSpecs.flatMap (AttributeSpec.annotationNames config .onMethod))]) := by
    refine counts_annotationsOf config (m.forall_mem_attributeSpecs (fun _ _ => rfl) rfl
      (fun _ _ => rfl) hvisible hinvisible ?_ htypes ?_) hread.attributes
    · simpa [AttributeSpec.annotationsWellFormed] using hparameters
    · intro value hvalue
      rw [hvalue] at hdefault
      simpa [AttributeSpec.annotationsWellFormed] using hdefault
  obtain ⟨declared, hdeclared, hcount⟩ := hdeclared
  obtain ⟨body, hbody, hcount'⟩ := counts_body config hcode hread hpool
  obtain ⟨annotations, hannotations, hcount''⟩ := hannotations
  refine ⟨declared ++ body ++ annotations, ?_, fun target kind ht => ?_⟩
  · rw [Extract.method, hread.descriptor, hread.signature?_eq]
    refine htype.bind_ok ((gives_thrown hexceptions hread).bind_ok ?_)
    rw [List.filterMap_map]
    rw [methodNames, ht] at hdeclared
    refine hdeclared.bind_ok ?_
    cases hfound : member.code? with
    | some found =>
      rw [hfound] at hbody
      exact hbody.bind_ok (hannotations.bind_ok (Extract.gives_pure _))
    | none =>
      rw [hfound] at hbody
      exact hbody.bind_ok (hannotations.bind_ok (Extract.gives_pure _))
  · rw [timesMentioned_append, timesMentioned_append, hcount target kind ht, hcount' target kind ht,
      hcount'' target kind ht, timesInMethod]
    simp only [timesNamed, sumOf_cons, sumOf_nil, m.count_annotationNames_onMethod]
    by_cases hkind : EdgeKind.annotationRef = kind
    · simp only [if_pos hkind]
      omega
    · simp only [if_neg hkind]
      omega

end MemberSpec

end

/-! ## Classes -/

namespace ClassSpec

variable {pool : Pool} {c : ClassSpec} {f : ClassFile}

/-- The mentions in the header of a class are those of its description. -/
theorem counts_header (config : ExtractionConfig) (hformed : c.WellFormed)
    (hread : c.ReadAs pool f) :
    (Extract.header config f).Counts (timesDeclared config
      [(.superclass, c.superclass.toList), (.interface, c.interfaces)]
      (c.signature.map classSignatureNames)) := by
  rw [Extract.header, hread.superclass, hread.interfaces, signatureOf?_eq hread.attributes,
    signature?_attributeSpecs]
  refine Extract.counts_withSignature ?_ fun text htext => classSignature_view ?_
  · simpa [AllPlain] using ⟨hformed.superclass, hformed.interfaces⟩
  · have hsignature := hformed.signature
    rw [htext] at hsignature
    exact hsignature

theorem counts_annotations (config : ExtractionConfig) (hformed : c.WellFormed)
    (hread : c.ReadAs pool f) :
    (Extract.concat (Extract.annotationsOf config pool) f.attributes).Counts
      (timesNamed [(.annotationRef, annotationClasses config true c.annotations),
        (.annotationRef, annotationClasses config false c.invisibleAnnotations)]) := by
  have hspecs : ∀ s ∈ c.attributeSpecs, s.annotationsWellFormed .onClass = true := by
    simp only [attributeSpecs, List.forall_mem_append]
    refine ⟨⟨⟨forall_mem_ifSome fun _ _ => rfl, forall_mem_unlessEmpty hformed.annotations⟩,
      forall_mem_unlessEmpty hformed.invisibleAnnotations⟩, fun s hs => ?_⟩
    obtain ⟨r, _, rfl⟩ := List.mem_map.1 hs
    rfl
  obtain ⟨l, hl, hcount⟩ := counts_annotationsOf config hspecs hread.attributes
  refine ⟨l, hl, fun target kind ht => ?_⟩
  rw [hcount target kind ht, annotationNames_attributeSpecs]
  simp only [timesNamed, sumOf_cons, sumOf_nil, List.count_append]
  split <;> omega

/-- The mentions in a class are those of its description. -/
theorem counts_unit (config : ExtractionConfig) {u : CompiledUnit} (hformed : c.WellFormed)
    (hread : c.ReadAs u.pool u.classFile) (hpool : u.pool.Distinct) :
    (Extract.unit config u).Counts (c.timesReferenced config) := by
  have hfields := (List.forall₂_and_left _ _).2 ⟨List.all_eq_true.1 hformed.fields, hread.fields⟩
  have hmethods := (List.forall₂_and_left _ _).2
    ⟨List.all_eq_true.1 hformed.methods, hread.methods⟩
  obtain ⟨header, hheader, hcount₁⟩ := counts_header config hformed hread
  obtain ⟨annotations, hannotations, hcount₂⟩ := counts_annotations config hformed hread
  have hfields : List.Forall₂ (fun m member =>
      (Extract.field config u.pool member).Counts (m.timesInField config)) c.fields
      u.classFile.fields := hfields.imp fun m member h => MemberSpec.counts_field config h.1 h.2
  have hmethods : List.Forall₂ (fun m member =>
      (Extract.method config u.pool member).Counts (m.timesInMethod config)) c.methods
      u.classFile.methods :=
    hmethods.imp fun m member h => MemberSpec.counts_method config h.1 h.2 hpool
  obtain ⟨fields, hfields, hcount₃⟩ := Extract.counts_concat hfields
  obtain ⟨methods, hmethods, hcount₄⟩ := Extract.counts_concat hmethods
  refine ⟨header ++ annotations ++ fields ++ methods, ?_, fun target kind ht => ?_⟩
  · exact hheader.bind_ok (hannotations.bind_ok (hfields.bind_ok (hmethods.bind_ok
      (Extract.gives_pure _))))
  · rw [timesMentioned_append, timesMentioned_append, timesMentioned_append, hcount₁ target kind ht,
      hcount₂ target kind ht, hcount₃ target kind ht, hcount₄ target kind ht, timesReferenced]

/-- The references of an assembled class are those that its description mentions: extraction does
not fail, the unit has the name of the class, and each target other than the class itself is counted
as often as the description mentions it. -/
theorem extractReferences_assemble (hfits : c.Fits) (hformed : c.WellFormed)
    (config : ExtractionConfig) (hint : String) :
    ∃ refs, extractReferences config hint c.assemble = .ok refs ∧ refs.unit = c.name ∧
      ∀ target kind, target ≠ c.name → target ≠ "" →
        refs.count target kind = .ofNat (c.timesReferenced config target kind) := by
  obtain ⟨u, hdecode, _, hpool, hread⟩ := hfits.decode_assemble
  obtain ⟨mentions, hgives, hcount⟩ := counts_unit config hformed hread hpool
  obtain ⟨hmentions, _⟩ := hgives .empty DescriptorCache.sound_empty
  have hname : u.name = c.name := hread.thisClass
  have hextract : (extractUnit config u .empty).1 =
      .ok ((UnitReferences.empty c.name).addAll mentions) := by
    show (UnitReferences.empty u.name).addAll <$> ((Extract.unit config u).run.run .empty).1 = _
    rw [hmentions, hname]
    rfl
  refine ⟨(UnitReferences.empty c.name).addAll mentions, ?_, ?_, fun target kind hself ht => ?_⟩
  · rw [extractReferences, processUnit, hdecode]
    show Except.mapError _ (Except.mapError _ (extractUnit config u .empty).1) = _
    rw [hextract]
    rfl
  · rw [UnitReferences.unit_addAll]
    rfl
  · rw [UnitReferences.count_addAll hself, hcount target kind ht]
    show Count.ofNat 0 + _ = _
    rw [Count.ofNat_add, Nat.zero_add]

/-- A class whose method touches one class through three operands. -/
def threeOperands : ClassSpec where
  name := "p/A"
  major := 52
  accessFlags := 0x21
  superclass := some "p/Base"
  interfaces := ["p/I"]
  fields := [⟨0, "f", "Ljava/util/List;", some "Ljava/util/List<Lp/B;>;", [], [], [], [], [], none,
    none⟩]
  methods := [⟨0, "m", "([Lp/B;)V", none, ["p/E"],
    [⟨"Lp/Mark;", [("of", .classValue "Lp/B;")]⟩], [], [], [], none,
    some ⟨[.onClass .newObject "p/B", .loadLong 7, .onClass .checkCast "p/B",
      .onMember .invokeVirtual "p/B" "run" "()V", .onClass .instanceOf "[Lp/B;", .loadClass "p/B",
      .returnVoid], ["p/E"], []⟩⟩]
  signature := none
  annotations := []
  invisibleAnnotations := []
  rawAttributes := [("SourceFile", [0, 1])]

theorem fits_threeOperands : threeOperands.Fits where
  version := by decide
  interfaces := by decide
  fields := by decide
  methods := by decide
  annotations := by decide
  invisibleAnnotations := by decide
  attributes := by decide
  rawAttributes := by decide
  pool := by decide +kernel
  texts := by decide +kernel
  bodies := by decide +kernel

theorem wellFormed_threeOperands : threeOperands.WellFormed where
  superclass := by decide
  interfaces := by decide
  signature := by decide
  annotations := by decide
  invisibleAnnotations := by decide
  fields := by decide +kernel
  methods := by decide +kernel

theorem extractReferences_assemble_three_operands :
    threeOperands.Fits ∧ threeOperands.WellFormed ∧
      ∃ refs, extractReferences (.ofPreset .full) "p.A" threeOperands.assemble = .ok refs ∧
        refs.unit = "p/A" ∧ refs.count "p/B" .instructionRef = .ofNat 3 ∧
        refs.count "p/B" .fieldType = .ofNat 1 := by
  obtain ⟨refs, hrefs, hunit, hcount⟩ := extractReferences_assemble fits_threeOperands
    wellFormed_threeOperands (.ofPreset .full) "p.A"
  refine ⟨fits_threeOperands, wellFormed_threeOperands, refs, hrefs, hunit, ?_, ?_⟩
  · rw [hcount "p/B" .instructionRef (by decide) (by decide)]
    decide +kernel
  · rw [hcount "p/B" .fieldType (by decide) (by decide)]
    decide +kernel

end ClassSpec

end ClassAtlas
