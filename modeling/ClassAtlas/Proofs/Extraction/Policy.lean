import ClassAtlas.Proofs.Extraction.Declarations
import ClassAtlas.Proofs.Extraction.Forest
import ClassAtlas.Proofs.Extraction.Touched

/-!
# The counting policy

If the references of a unit can be extracted, each target is counted as often as the policy says,
which `CompiledUnit.timesReferenced` states on the decoded unit. Each part of the extraction is
followed along its successful runs: the mentions that it gives add up to the number that belongs to
the part. A unit that differs in the order and number of its instructions and handlers only succeeds
as well, with the same references.

## Main definitions

* `Extract.AddsUpTo` says that the mentions of a computation, if it gives any, add up to given
  numbers.
* `cacheAfter` is the cache of an extractor that has gone through some units.

## Main statements

* `CompiledUnit.count_extractUnit` is the counting policy.
-/

namespace ClassAtlas

open Name

namespace Extract

variable {config : ExtractionConfig} {pool : Pool}

/-- The mentions that the computation gives, if any, add up to a number for each target and kind. -/
def AddsUpTo (x : Extract Mentions) (n : String → EdgeKind → Nat) : Prop :=
  x.Yields fun l => ∀ target kind, target ≠ "" → timesMentioned l target kind = n target kind

theorem AddsUpTo.concat {α : Type} {part : α → Extract Mentions} {n : α → String → EdgeKind → Nat}
    (h : ∀ a, (part a).AddsUpTo (n a)) (l : List α) :
    (concat part l).AddsUpTo fun target kind => sumOf (fun a => n a target kind) l := by
  refine (yields_concat h l).imp ?_
  rintro _ ⟨lists, hlists, rfl⟩ target kind ht
  induction hlists with
  | nil => rfl
  | cons hfirst _ ih =>
    rw [List.flatten_cons, timesMentioned_append, hfirst target kind ht, ih]
    rfl

/-! ## Members -/

theorem addsUpTo_annotations (attributes : List Attribute) :
    (Extract.concat (annotationsOf config pool) attributes).AddsUpTo
      (timesUsed pool (attributes.flatMap (Attribute.typeUses config))) := by
  refine (yields_concat_mentions yields_annotationsOf attributes).imp ?_
  rintro _ rfl target kind ht
  exact TypeUse.timesMentioned_mentions _ ht kind

theorem addsUpTo_header (c : ClassFile) : (header config c).AddsUpTo (c.timesInherited config) :=
  (yields_withSignature fun _ _ => classSignatureTally_eq).imp fun _ h target kind _ =>
    h target kind

theorem addsUpTo_field (m : Member) : (field config pool m).AddsUpTo fun target kind =>
    m.timesInField config target kind + timesUsed pool (m.fieldTypeUses config) target kind := by
  refine (yields_fieldType m.descriptor).bind fun t ht => ?_
  have hleaf : t.classLeaf?.toList = descriptorClass m.descriptor := by
    rw [descriptorClass, ht]
    rfl
  rw [hleaf]
  have hdeclared : ∀ part ∈ [(EdgeKind.fieldType, descriptorClass m.descriptor)],
      AllPlain part.2 := by
    simpa using allPlain_descriptorClass m.descriptor
  refine (yields_withSignature_of_plain (fun _ _ => fieldSignatureTally_eq) hdeclared
    fun _ => allPlain_fieldSignatureNames).bind fun declared hdeclared =>
      (addsUpTo_annotations m.attributes).bind fun annotations hannotations =>
        yields_pure fun target kind htarget => ?_
  rw [timesMentioned_append, hdeclared target kind htarget, hannotations target kind htarget]
  rfl

/-! ## Methods -/

theorem yields_entryClass? (name : String) : (entryClass? name).Yields fun v =>
    v = elementClass? name ∧ ∀ leaf ∈ elementClass? name, IsPlain leaf := by
  unfold entryClass?
  split
  · exact (yields_fieldType name).bind fun t ht => yields_pure ⟨rfl, fun leaf hleaf =>
      IsEntryName.isPlain_elementClass? (.inr (by rw [ht]; rfl)) hleaf⟩
  · next hplain =>
    exact yields_pure ⟨rfl, fun leaf hleaf => IsEntryName.isPlain_elementClass? (.inl hplain) hleaf⟩

theorem yields_thrownClass? (i : UInt16) : (thrownClass? pool i).Yields fun v =>
    v = (pool.className i).toOption.bind elementClass? ∧
      ∀ leaf ∈ (pool.className i).toOption.bind elementClass?, IsPlain leaf :=
  (yields_ofExcept _).bind fun name hname => by
    rw [hname]
    exact yields_entryClass? name

theorem yields_mapM_classes {α : Type} {part : α → Extract (Option String)}
    {f : α → Option String}
    (h : ∀ a, (part a).Yields fun v => v = f a ∧ ∀ leaf ∈ f a, IsPlain leaf) (l : List α) :
    (l.mapM part).Yields fun vs => vs.filterMap id = l.filterMap f ∧ AllPlain (l.filterMap f) := by
  refine (Yields.mapM h l).imp fun vs hvs => ?_
  induction hvs with
  | nil => exact ⟨rfl, allPlain_nil⟩
  | @cons a v l vs hv _ ih =>
    obtain ⟨rfl, hplain⟩ := hv
    cases hclass : f a with
    | none =>
      rw [List.filterMap_cons_none hclass, List.filterMap_cons_none (by rfl)]
      exact ih
    | some leaf =>
      rw [List.filterMap_cons_some hclass, List.filterMap_cons_some (b := leaf) (by rfl), ih.1]
      exact ⟨rfl, List.forall_mem_cons.2 ⟨hplain leaf hclass, ih.2⟩⟩

theorem addsUpTo_code (c : Code) : (code config pool c).AddsUpTo fun target kind =>
    (if .instructionRef = kind then c.timesTouched pool target else 0) +
      timesUsed pool (c.details.flatMap (CodeDetail.typeUses config)) target kind := by
  refine (yields_ofExcept _).bind fun entries hentries => ?_
  obtain ⟨_, _, _, _, rfl⟩ := touched_eq_ok_iff.1 hentries
  refine (yields_mapM_classes yields_entryClass? _).bind fun classes hclasses =>
    (yields_concat_mentions yields_annotationsOfDetail c.details).bind_eq
      (yields_pure fun target kind ht => ?_)
  rw [hclasses.1, timesMentioned_append, timesMentioned_mentionAll hclasses.2 ht,
    Pool.count_owners, TypeUse.timesMentioned_mentions _ ht]
  rfl

theorem allPlain_methodNames {m : Member} (hthrown : AllPlain (m.thrownClasses pool)) :
    ∀ part ∈ m.methodNames pool, AllPlain part.2 := by
  rw [Member.methodNames]
  split
  · next t ht =>
    have hnames := MethodType.allPlain_of_parse ht
    simp only [List.forall_mem_cons]
    exact ⟨fun name hname => hnames name (List.mem_append_left _ hname),
      fun name hname => hnames name (List.mem_append_right _ hname), hthrown, by simp⟩
  · simp

theorem addsUpTo_method (m : Member) : (method config pool m).AddsUpTo fun target kind =>
    m.timesInMethod config pool target kind +
      (if .instructionRef = kind then m.timesTouched pool target else 0) +
      timesUsed pool (m.methodTypeUses config) target kind := by
  refine (yields_methodType m.descriptor).bind fun t ht =>
    (yields_mapM_classes yields_thrownClass? _).bind fun thrown hthrown => ?_
  have hnames : m.methodNames pool = [(.methodParam, t.params.filterMap FieldType.classLeaf?),
      (.methodReturn, (t.result.bind FieldType.classLeaf?).toList),
      (.methodThrows, thrown.filterMap id)] := by
    rw [Member.methodNames, ht, Member.thrownClasses, hthrown.1]
  rw [← hnames]
  refine (yields_withSignature_of_plain (fun _ _ => methodSignatureTally_eq)
    (allPlain_methodNames hthrown.2) fun _ => allPlain_methodSignatureNames).bind
      fun declared hdeclared => ?_
  -- what follows the body is the same whether there is one or not
  have hrest {body : Mentions} (hbody : ∀ target kind, target ≠ "" →
      timesMentioned body target kind =
        (if .instructionRef = kind then m.timesTouched pool target else 0) +
          timesUsed pool (m.code?.elim [] fun c => c.details.flatMap (CodeDetail.typeUses config))
            target kind) : (do
      let annotations ← Extract.concat (annotationsOf config pool) m.attributes
      return declared ++ body ++ annotations : Extract Mentions).AddsUpTo fun target kind =>
        m.timesInMethod config pool target kind +
          (if .instructionRef = kind then m.timesTouched pool target else 0) +
          timesUsed pool (m.methodTypeUses config) target kind := by
    refine (addsUpTo_annotations m.attributes).bind fun annotations hannotations =>
      yields_pure fun target kind htarget => ?_
    rw [timesMentioned_append, timesMentioned_append, hdeclared target kind htarget,
      hbody target kind htarget, hannotations target kind htarget]
    simp only [Member.timesInMethod, Member.methodTypeUses, timesUsed_append, Nat.add_assoc]
  simp only [Member.timesTouched] at hrest ⊢
  split
  · next c hcode =>
    rw [hcode] at hrest ⊢
    exact (addsUpTo_code c).bind fun body hbody => hrest hbody
  · next hcode =>
    rw [hcode] at hrest ⊢
    exact (yields_pure (P := (· = [])) rfl).bind_eq (hrest fun target kind _ => by
      simp [timesMentioned, timesUsed])

end Extract

/-! ## Units -/

/-- The three rules of the policy, each of which speaks about kinds of its own, in one sum. -/
theorem CompiledUnit.timesReferenced_eq_sum (config : ExtractionConfig) (u : CompiledUnit)
    (target : String) (kind : EdgeKind) :
    u.timesReferenced config target kind =
      u.classFile.timesInherited config target kind +
        sumOf (fun m => m.timesInField config target kind) u.classFile.fields +
        sumOf (fun m => m.timesInMethod config u.pool target kind) u.classFile.methods +
        sumOf (fun m => if .instructionRef = kind then m.timesTouched u.pool target else 0)
          u.classFile.methods +
        timesUsed u.pool (u.typeUses config) target kind := by
  have hdeclared (hinherited : kind.isInheritance = false) (hsignature : kind.isSignature = false) :
      u.classFile.timesInherited config target kind +
        sumOf (fun m => m.timesInField config target kind) u.classFile.fields +
        sumOf (fun m => m.timesInMethod config u.pool target kind) u.classFile.methods = 0 := by
    rw [u.classFile.timesInherited_eq_zero hinherited,
      sumOf_eq_zero fun m _ => m.timesInField_eq_zero hsignature,
      sumOf_eq_zero fun m _ => m.timesInMethod_eq_zero u.pool hsignature]
  have hnone : sumOf (fun _ => 0) u.classFile.methods = 0 := sumOf_eq_zero fun _ _ => rfl
  cases kind with
  | instructionRef => simp [hdeclared rfl rfl, timesReferenced, timesUsed]
  | annotationRef => simp [hdeclared rfl rfl, hnone, timesReferenced, timesUsed]
  | superclass | interface | fieldType | methodParam | methodReturn | methodThrows =>
    simp [hnone, timesReferenced, timesUsed]

namespace Extract

theorem addsUpTo_unit (config : ExtractionConfig) (u : CompiledUnit) :
    (unit config u).AddsUpTo (u.timesReferenced config) := by
  refine (addsUpTo_header u.classFile).bind fun header hheader =>
    (addsUpTo_annotations u.classFile.attributes).bind fun annotations hannotations =>
      (AddsUpTo.concat addsUpTo_field u.classFile.fields).bind fun fields hfields =>
        (AddsUpTo.concat addsUpTo_method u.classFile.methods).bind fun methods hmethods =>
          yields_pure fun target kind ht => ?_
  rw [timesMentioned_append, timesMentioned_append, timesMentioned_append, hheader target kind ht,
    hannotations target kind ht, hfields target kind ht, hmethods target kind ht,
    u.timesReferenced_eq_sum]
  simp only [CompiledUnit.typeUses, sumOf_add, timesUsed_append, timesUsed_flatMap]
  omega

end Extract

/-! ## Order and number of instructions and handlers -/

theorem map_eq_of_forall₂ {α β : Type} {R : α → α → Prop} {f : α → β}
    (hf : ∀ a b, R a b → f a = f b) {l m : List α} (h : List.Forall₂ R l m) :
    l.map f = m.map f := by
  induction h with
  | nil => rfl
  | cons hab _ ih => rw [List.map_cons, List.map_cons, hf _ _ hab, ih]

section

variable (config : ExtractionConfig) (pool : Pool)

theorem Code.SameUse.code_replacedBy {c c' : Code} (h : c.SameUse c') :
    (Extract.code config pool c).ReplacedBy (Extract.code config pool c') := by
  rw [Extract.code, Extract.code, h.details]
  exact (Extract.replacedBy_ofExcept fun _ hm => h.touched_eq hm).bind fun _ => .refl _

namespace Attribute.SameUse

variable {a a' : Attribute}

theorem signature?_eq (h : a.SameUse a') : a.signature? = a'.signature? := by
  cases h <;> rfl

theorem annotationsOf_eq (h : a.SameUse a') :
    Extract.annotationsOf config pool a = Extract.annotationsOf config pool a' := by
  cases h <;> rfl

theorem code?_rel (h : a.SameUse a') :
    Option.Rel (fun c c' => (Extract.code config pool c).ReplacedBy (Extract.code config pool c'))
      a.code? a'.code? := by
  cases h with
  | code h => exact .some (h.code_replacedBy config pool)
  | refl a =>
    cases a.code? with
    | none => exact .none
    | some c => exact .some (.refl _)

end Attribute.SameUse

theorem Member.SameUse.method_replacedBy {m m' : Member} (h : m.SameUse m') :
    (Extract.method config pool m).ReplacedBy (Extract.method config pool m') := by
  obtain ⟨attributes, rfl, hattributes⟩ := h
  have hsignature : signatureOf? m.attributes = signatureOf? attributes := by
    have hmap := map_eq_of_forall₂ (R := Attribute.SameUse) (fun _ _ ha => ha.signature?_eq)
      hattributes
    have hfind := congrArg (List.findSome? id) hmap
    rwa [List.findSome?_map, List.findSome?_map] at hfind
  have hexceptions : Extract.exceptionIndices m =
      Extract.exceptionIndices { m with attributes } := by
    refine congrArg List.flatten (map_eq_of_forall₂ (fun a a' ha => ?_) hattributes)
    cases ha <;> rfl
  have hrest (declared body : Mentions) : Extract.ReplacedBy (do
        let annotations ← Extract.concat (Extract.annotationsOf config pool) m.attributes
        return declared ++ body ++ annotations) (do
        let annotations ← Extract.concat (Extract.annotationsOf config pool) attributes
        return declared ++ body ++ annotations) :=
    (Extract.ReplacedBy.concat (fun _ _ ha => by
      rw [ha.annotationsOf_eq config pool]
      exact .refl _) hattributes).bind fun _ => .refl _
  have hcode := findSome?_rel (R := Attribute.SameUse) (fun _ _ ha => ha.code?_rel config pool)
    hattributes
  rw [Extract.method, Extract.method, ← hexceptions]
  simp only [Member.signature?, ← hsignature]
  refine (Extract.ReplacedBy.refl _).bind fun type => (Extract.ReplacedBy.refl _).bind
    fun thrown => (Extract.ReplacedBy.refl _).bind fun declared => ?_
  -- the first bodies are both there, and then of the same use, or both missing
  simp only [Member.code?]
  generalize m.attributes.findSome? Attribute.code? = x, attributes.findSome? Attribute.code? = y
    at hcode
  cases hcode with
  | some h => exact h.bind (hrest declared)
  | none => exact (Extract.ReplacedBy.refl _).bind (hrest declared)

theorem CompiledUnit.SameUse.unit_replacedBy {u u' : CompiledUnit} (h : u.SameUse u') :
    (Extract.unit config u).ReplacedBy (Extract.unit config u') := by
  obtain ⟨methods, rfl, hmethods⟩ := h
  have hreplaced := Extract.ReplacedBy.concat (R := Member.SameUse)
    (fun _ _ hm => hm.method_replacedBy config u.pool) hmethods
  exact (Extract.ReplacedBy.refl _).bind fun _ => (Extract.ReplacedBy.refl _).bind fun _ =>
    (Extract.ReplacedBy.refl _).bind fun _ => hreplaced.bind fun _ => .refl _

end

/-- The cache of an extractor that has gone through some units. -/
def cacheAfter (config : ExtractionConfig) (earlier : List CompiledUnit) : DescriptorCache :=
  earlier.foldl (fun cache u => (extractUnit config u cache).2) .empty

theorem sound_cacheAfter (config : ExtractionConfig) (earlier : List CompiledUnit) :
    (cacheAfter config earlier).Sound := by
  suffices h : ∀ cache : DescriptorCache, cache.Sound →
      (earlier.foldl (fun cache u => (extractUnit config u cache).2) cache).Sound from
    h .empty DescriptorCache.sound_empty
  induction earlier with
  | nil => exact fun _ hc => hc
  | cons u earlier ih => exact fun cache hc => ih _ (extractUnit_eq config u hc).2

namespace CompiledUnit

/-- Extraction follows the counting policy, whatever units the extractor has gone through before.
Each target other than the unit itself is counted as often as the policy says, up to the largest
count, and neither the order nor the number of instructions and handlers shows. -/
theorem count_extractUnit (config : ExtractionConfig) (earlier : List CompiledUnit)
    (u : CompiledUnit) {refs : UnitReferences}
    (h : (extractUnit config u (cacheAfter config earlier)).1 = .ok refs) :
    (∀ target kind, target ≠ "" → target ≠ u.name →
      (refs.count target kind).val = min (2 ^ 32 - 1) (u.timesReferenced config target kind)) ∧
    ∀ u', u.SameUse u' → extractUnit config u' (cacheAfter config earlier) =
      extractUnit config u (cacheAfter config earlier) := by
  obtain ⟨mentions, hmentions, rfl⟩ := exists_of_map_eq_ok h
  constructor
  · intro target kind ht hself
    have hcount := (Extract.addsUpTo_unit config u _ (sound_cacheAfter config earlier)).2 mentions
      hmentions target kind ht
    rw [UnitReferences.count_addAll hself, hcount]
    show (Count.ofNat 0 + Count.ofNat _).val = _
    rw [Count.ofNat_add, Nat.zero_add, Count.val_ofNat, Nat.min_comm]
    rfl
  · intro u' hu
    have hrun := hu.unit_replacedBy config (cacheAfter config earlier) mentions _
      (Prod.ext hmentions rfl)
    obtain ⟨methods, rfl, _⟩ := hu
    rw [extractUnit, hrun]
    show _ = (_ <$> _, _)
    rw [hmentions]
    rfl

/-- A class that implements an interface and an array of it, with a method that has a signature, a
nested annotation and a given body. -/
def withBody (body : Code) : CompiledUnit where
  version := ⟨0, 52⟩
  pool := ⟨#[none, some (.utf8 "p/B"), some (.classEntry 1), some (.classEntry 1),
    some (.utf8 "p/E"), some (.classEntry 4), some (.utf8 "Lp/Mark;")]⟩
  classFile := {
    accessFlags := 0x21
    thisClass := "p/A"
    superclass := some "p/Base"
    interfaces := ["p/I", "[Lp/I;"]
    fields := []
    methods := [⟨0, "m", "(Lp/B;)V", [.code body, .signature "<T:Lp/B;>(TT;Lp/B;)V",
      .annotations true [⟨6, [(1, .nested 6 [])]⟩]]⟩]
    attributes := [.signature "Lp/Base;Lp/I;"] }

/-- One class under two indices, and one handled class. -/
def twoIndices : Code :=
  ⟨1, 1, 0, [0xbb, 0, 2, 0xc0, 0, 3, 0xb1], [⟨0, 3, 6, 5⟩, ⟨0, 6, 6, 0⟩], []⟩

/-- The same in another order, and some of it twice. -/
def twoIndicesRearranged : Code :=
  ⟨1, 1, 0, [0xc0, 0, 3, 0xbb, 0, 2, 0xc0, 0, 3, 0xb1],
    [⟨0, 6, 6, 0⟩, ⟨0, 3, 6, 5⟩, ⟨3, 6, 6, 5⟩], []⟩

theorem sameUse_twoIndices : twoIndices.SameUse twoIndicesRearranged := by
  have hdecode : Instruction.decodeAll twoIndices.bytes twoIndices.offset = .ok
      [(0, .reference 0xbb 2 []), (3, .reference 0xc0 3 []), (6, .plain 0xb1 [])] := by
    decide +kernel
  have hdecode' : Instruction.decodeAll twoIndicesRearranged.bytes twoIndicesRearranged.offset =
      .ok [(0, .reference 0xc0 3 []), (3, .reference 0xbb 2 []), (6, .reference 0xc0 3 []),
        (9, .plain 0xb1 [])] := by
    decide +kernel
  refine Code.sameUse_of_instructions hdecode hdecode' ?_ ?_ rfl
  · simp only [List.map_cons, List.map_nil]
    grind
  · simp only [twoIndices, twoIndicesRearranged, List.map_cons, List.map_nil]
    grind

theorem sameUse_withBody : (withBody twoIndices).SameUse (withBody twoIndicesRearranged) :=
  ⟨_, rfl, .cons ⟨_, rfl, .cons (.code sameUse_twoIndices) (.cons (.refl _) (.cons (.refl _) .nil))⟩
    .nil⟩

theorem count_extractUnit_two_indices :
    ∃ refs, (extractUnit (.ofPreset .full) (withBody twoIndices)
        (cacheAfter (.ofPreset .full) [withBody twoIndices])).1 = .ok refs ∧
      (refs.count "p/B" .instructionRef).val = 2 ∧ (refs.count "p/E" .instructionRef).val = 1 ∧
      (refs.count "p/I" .interface).val = 2 ∧ (refs.count "p/B" .methodParam).val = 2 ∧
      (refs.count "p/Mark" .annotationRef).val = 2 ∧
      (withBody twoIndices).SameUse (withBody twoIndicesRearranged) ∧
      (extractUnit (.ofPreset .full) (withBody twoIndicesRearranged)
        (cacheAfter (.ofPreset .full) [withBody twoIndices])).1 = .ok refs := by
  have hok : (extractUnit (.ofPreset .full) (withBody twoIndices)
      (cacheAfter (.ofPreset .full) [withBody twoIndices])).1.isOk = true := by decide +kernel
  obtain ⟨refs, hrefs⟩ := exists_of_isOk hok
  obtain ⟨hcount, hsame⟩ := count_extractUnit _ _ _ hrefs
  refine ⟨refs, hrefs, ?_, ?_, ?_, ?_, ?_, sameUse_withBody, ?_⟩
  · rw [hcount "p/B" .instructionRef (by decide) (by decide)]
    decide +kernel
  · rw [hcount "p/E" .instructionRef (by decide) (by decide)]
    decide +kernel
  · rw [hcount "p/I" .interface (by decide) (by decide)]
    decide +kernel
  · rw [hcount "p/B" .methodParam (by decide) (by decide)]
    decide +kernel
  · rw [hcount "p/Mark" .annotationRef (by decide) (by decide)]
    decide +kernel
  · rw [hsame _ sameUse_withBody]
    exact hrefs

end CompiledUnit

end ClassAtlas
