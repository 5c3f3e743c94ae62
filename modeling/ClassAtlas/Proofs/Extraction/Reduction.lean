import ClassAtlas.Proofs.Extraction.Declarations
import ClassAtlas.Proofs.Extraction.Forest
import ClassAtlas.Proofs.Signature.Spelling

/-!
# Names are reduced once

The name of an array is reduced to the class at its bottom where a class entry is read, and whatever
is added to the references of a unit is reduced again. The first time is enough: the grammar of
descriptors keeps brackets out of the names of classes, so what is found at the bottom of an array
stands for itself, like every name that a descriptor or a generic signature spells out.

The header is left out. It takes the names of supertypes as they stand in their entries, so they are
reduced for the first time where they are added.

## Main definitions

* `UnitReferences.addNamed` adds mentions under a name as it stands.
* `Mentions.AllReduced` says that all mentions are under names that stand for themselves.

## Main statements

* `Extract.yields_allReduced_field`, `Extract.yields_allReduced_method`: members bring such
  mentions only.
* `Extract.names_reduced_once`: reducing a name again has no effect.
-/

namespace ClassAtlas

open Name

/-! ## Adding under reduced names -/

namespace UnitReferences

/-- Adds `n` mentions under the name as it stands. -/
def addNamed (refs : UnitReferences) (name : String) (kind : EdgeKind) (n : Count) :
    UnitReferences :=
  if n = 0 ∨ name = refs.unit then refs
  else { refs with counts := refs.counts.alter ⟨name, kind⟩ fun old => old.getD 0 + n }

/-- Adds numbers of mentions, each under the name in its link as it stands. -/
def addAllNamed (refs : UnitReferences) (mentions : Mentions) : UnitReferences :=
  mentions.foldl (fun refs m => refs.addNamed m.1.unit m.1.kind (.ofNat m.2)) refs

variable {refs : UnitReferences} {kind : EdgeKind} {n : Count} {target name : String}

theorem addCount_of_elementClass? (h : elementClass? target = some name) :
    refs.addCount target kind n = refs.addNamed name kind n := by
  rw [addCount, h]
  rfl

theorem addCount_of_elementClass?_eq_none (h : elementClass? target = none) :
    refs.addCount target kind n = refs := by
  rw [addCount, h]

end UnitReferences

/-- Every mention is under a reduced name. -/
def Mentions.AllReduced (mentions : Mentions) : Prop := ∀ m ∈ mentions, IsReduced m.1.unit

namespace Mentions.AllReduced

variable {mentions others : Mentions}

theorem nil : AllReduced [] := List.forall_mem_nil _

theorem append (h : AllReduced mentions) (hothers : AllReduced others) :
    AllReduced (mentions ++ others) := List.forall_mem_append.2 ⟨h, hothers⟩

theorem mentionAll {names : List String} (h : ∀ name ∈ names, IsReduced name) (kind : EdgeKind) :
    AllReduced (Extract.mentionAll kind names) := List.forall_mem_map.2 h

/-- Such mentions can be added as they stand. -/
theorem addAll_eq (h : AllReduced mentions) (refs : UnitReferences) :
    refs.addAll mentions = refs.addAllNamed mentions := by
  induction mentions generalizing refs with
  | nil => rfl
  | cons m mentions ih =>
    obtain ⟨hm, hmentions⟩ := List.forall_mem_cons.1 h
    calc refs.addAll (m :: mentions)
        = (refs.addCount m.1.unit m.1.kind (.ofNat m.2)).addAll mentions := rfl
      _ = (refs.addNamed m.1.unit m.1.kind (.ofNat m.2)).addAll mentions := by
          rw [UnitReferences.addCount_of_elementClass? hm]
      _ = refs.addAllNamed (m :: mentions) := ih hmentions _

end Mentions.AllReduced

/-! ## Tallies of reduced names -/

namespace Tally

/-- Every name in the tally is reduced. -/
def AllReduced (tally : Tally) : Prop :=
  ∀ link n, tally.get? link = some n → IsReduced link.unit

variable {tally other : Tally}

namespace AllReduced

theorem toList (h : tally.AllReduced) : Mentions.AllReduced tally.toList :=
  fun m hm => h m.1 m.2 (SortedMap.mem_toList.1 hm)

theorem alter (h : tally.AllReduced) {link : Link} (hlink : IsReduced link.unit)
    (f : Option Nat → Nat) : AllReduced (tally.alter link f) := by
  intro link' n hn
  rw [SortedMap.get?_alter] at hn
  split at hn
  · next heq => exact heq ▸ hlink
  · exact h link' n hn

theorem addNames (h : tally.AllReduced) {names : List String}
    (hnames : ∀ name ∈ names, IsReduced name) (kind : EdgeKind) :
    (tally.addNames kind names).AllReduced := by
  induction names generalizing tally with
  | nil => exact h
  | cons name names ih =>
    obtain ⟨hname, hnames⟩ := List.forall_mem_cons.1 hnames
    exact ih (h.alter hname _) hnames

theorem mergeMax (h : tally.AllReduced) (hother : other.AllReduced) :
    (tally.mergeMax other).AllReduced := by
  have hentries : Mentions.AllReduced other.toList := hother.toList
  rw [Tally.mergeMax]
  generalize other.toList = entries at hentries
  induction entries generalizing tally with
  | nil => exact h
  | cons e entries ih =>
    obtain ⟨he, hentries⟩ := List.forall_mem_cons.1 hentries
    exact ih (h.alter he _) hentries

end AllReduced

theorem allReduced_ofNames {parts : List (EdgeKind × List String)}
    (h : ∀ part ∈ parts, ∀ name ∈ part.2, IsReduced name) : (ofNames parts).AllReduced := by
  suffices hfold : ∀ tally : Tally, tally.AllReduced →
      AllReduced (parts.foldl (fun t part => t.addNames part.1 part.2) tally) from
    hfold .empty fun _ _ hn => by cases hn
  induction parts with
  | nil => exact fun _ htally => htally
  | cons part parts ih =>
    obtain ⟨hpart, hparts⟩ := List.forall_mem_cons.1 h
    exact fun tally htally => ih hparts _ (htally.addNames hpart part.1)

end Tally

/-! ## Places in annotations -/

/-- The class at a place in an annotation is the one at the bottom of a descriptor. -/
theorem TypeUse.isReduced_class? {pool : Pool} {use : TypeUse} {name : String}
    (h : use.class? pool = some name) : IsReduced name := by
  cases use with
  | type i =>
    simp only [class?, Option.bind_eq_some_iff, toOption_eq_some_iff] at h
    obtain ⟨text, _, t, ht, hleaf⟩ := h
    exact FieldType.isReduced_classLeaf? ht hleaf
  | result i =>
    simp only [class?, Option.bind_eq_some_iff, toOption_eq_some_iff] at h
    obtain ⟨text, _, _, ht, t, rfl, hleaf⟩ := h
    rw [FieldType.parseResult] at ht
    split at ht
    · cases ht
    · obtain ⟨t', ht', heq⟩ := exists_of_map_eq_ok ht
      cases heq
      exact FieldType.isReduced_classLeaf? ht' hleaf

theorem TypeUse.allReduced_mentions (pool : Pool) (uses : List TypeUse) :
    Mentions.AllReduced (mentions pool uses) := by
  refine .mentionAll (fun name hname => ?_) _
  obtain ⟨use, _, huse⟩ := List.mem_filterMap.1 hname
  exact isReduced_class? huse

namespace Extract

variable {config : ExtractionConfig} {pool : Pool}

theorem yields_allReduced_annotationsOf (a : Attribute) :
    (annotationsOf config pool a).Yields Mentions.AllReduced :=
  (yields_annotationsOf a).imp fun _ h => h ▸ TypeUse.allReduced_mentions pool _

theorem yields_allReduced_annotations (attributes : List Attribute) :
    (concat (annotationsOf config pool) attributes).Yields Mentions.AllReduced :=
  (yields_concat_mentions yields_annotationsOf attributes).imp fun _ h =>
    h ▸ TypeUse.allReduced_mentions pool _

/-! ## Class entries -/

/-- What a class entry stands for is reduced, if the entry can be read at all. -/
theorem yields_isReduced (name : String) :
    (entryClass? name).Yields fun class? => ∀ leaf ∈ class?, IsReduced leaf := by
  unfold entryClass?
  split
  · next harray =>
    refine (yields_fieldType name).bind fun t ht => yields_pure fun leaf hleaf => ?_
    rw [FieldType.elementClass?_eq ht harray] at hleaf
    exact FieldType.isReduced_classLeaf? ht hleaf
  · next hplain =>
    refine yields_pure fun leaf hleaf => ?_
    have hne : leaf ≠ "" := by
      rintro rfl
      rw [elementClass?] at hleaf
      split at hleaf
      · cases hleaf
      · next rest hcons => exact hplain (by rw [hcons]; rfl)
      · next hnil _ =>
        cases hleaf
        exact hnil rfl
    obtain rfl := (elementClass?_eq_some_iff hplain hne).1 hleaf
    exact hleaf

theorem Yields.forall_results {α β : Type} {part : α → Extract β} {P : β → Prop}
    (h : ∀ a, (part a).Yields P) (l : List α) : (l.mapM part).Yields fun bs => ∀ b ∈ bs, P b := by
  refine (Yields.mapM (P := fun _ b => P b) h l).imp fun bs hbs => ?_
  induction hbs with
  | nil => exact List.forall_mem_nil _
  | cons hfirst _ ih => exact List.forall_mem_cons.2 ⟨hfirst, ih⟩

/-- So are the classes of the entries that are read one after the other. -/
theorem yields_isReduced_mapM {α : Type} {part : α → Extract (Option String)}
    (h : ∀ a, (part a).Yields fun class? => ∀ leaf ∈ class?, IsReduced leaf) (l : List α) :
    (l.mapM part).Yields fun classes => ∀ leaf ∈ classes.filterMap id, IsReduced leaf := by
  refine (Yields.forall_results h l).imp fun classes hclasses leaf hleaf => ?_
  obtain ⟨class?, hmem, heq⟩ := List.mem_filterMap.1 hleaf
  exact hclasses class? hmem leaf heq

theorem yields_isReduced_thrownClass? (i : UInt16) :
    (thrownClass? pool i).Yields fun class? => ∀ leaf ∈ class?, IsReduced leaf :=
  (yields_ofExcept _).bind fun name _ => yields_isReduced name

/-! ## Members -/

theorem yields_allReduced_withSignature {tally : Tally} {text? : Option String}
    {view : String → Except Malformed Tally} (htally : tally.AllReduced)
    (hview : ∀ text generic, view text = .ok generic → generic.AllReduced) :
    (withSignature config tally text? view).Yields Mentions.AllReduced := by
  unfold withSignature
  split
  · next text _ =>
    exact (yields_ofText _).bind fun generic hgeneric =>
      yields_pure (htally.mergeMax (hview text generic hgeneric)).toList
  · exact yields_pure htally.toList

theorem allReduced_fieldSignatureTally {text : String} {tally : Tally}
    (h : fieldSignatureTally text = .ok tally) : tally.AllReduced := by
  obtain ⟨t, ht, h⟩ := exists_of_bind_eq_ok h
  cases h
  refine Tally.allReduced_ofNames ?_
  rw [List.forall_mem_singleton]
  exact (RefType.spelledIn_of_parse ht).isReduced

theorem allReduced_methodSignatureTally {text : String} {tally : Tally}
    (h : methodSignatureTally text = .ok tally) : tally.AllReduced := by
  obtain ⟨s, hs, h⟩ := exists_of_bind_eq_ok h
  cases h
  obtain ⟨hparams, hothers⟩ :=
    List.forall_mem_append.1 (MethodSignature.spelledIn_of_parse hs).isReduced
  obtain ⟨hresult, hthrows⟩ := List.forall_mem_append.1 hothers
  refine Tally.allReduced_ofNames ?_
  rw [List.forall_mem_cons, List.forall_mem_cons, List.forall_mem_singleton]
  exact ⟨hparams, hresult, hthrows⟩

theorem yields_allReduced_field (m : Member) :
    (field config pool m).Yields Mentions.AllReduced := by
  refine (yields_fieldType m.descriptor).bind fun t ht => ?_
  have htally : (Tally.ofNames [(.fieldType, t.classLeaf?.toList)]).AllReduced := by
    refine Tally.allReduced_ofNames ?_
    rw [List.forall_mem_singleton]
    exact (FieldType.spelledIn_of_parse ht).isReduced
  exact (yields_allReduced_withSignature htally fun _ _ => allReduced_fieldSignatureTally).bind
    fun _ hdeclared => (yields_allReduced_annotations m.attributes).bind fun _ hannotations =>
      yields_pure (hdeclared.append hannotations)

theorem yields_allReduced_code (c : Code) : (code config pool c).Yields Mentions.AllReduced :=
  (yields_ofExcept _).bind fun _ _ => (yields_isReduced_mapM yields_isReduced _).bind
    fun _ hclasses => (yields_concat_mentions yields_annotationsOfDetail c.details).bind
      fun _ hannotations => yields_pure <|
        (Mentions.AllReduced.mentionAll hclasses _).append
          (hannotations ▸ TypeUse.allReduced_mentions pool _)

theorem yields_allReduced_method (m : Member) :
    (method config pool m).Yields Mentions.AllReduced := by
  refine (yields_methodType m.descriptor).bind fun t ht =>
    (yields_isReduced_mapM yields_isReduced_thrownClass? _).bind fun thrown hthrown => ?_
  have htally : (Tally.ofNames [(.methodParam, t.params.filterMap FieldType.classLeaf?),
      (.methodReturn, (t.result.bind FieldType.classLeaf?).toList),
      (.methodThrows, thrown.filterMap id)]).AllReduced := by
    obtain ⟨hparams, hresult⟩ :=
      List.forall_mem_append.1 (MethodType.spelledIn_of_parse ht).isReduced
    refine Tally.allReduced_ofNames ?_
    rw [List.forall_mem_cons, List.forall_mem_cons, List.forall_mem_singleton]
    exact ⟨hparams, hresult, hthrown⟩
  refine (yields_allReduced_withSignature htally fun _ _ => allReduced_methodSignatureTally).bind
    fun declared hdeclared => ?_
  have hrest (body : Mentions) (hbody : Mentions.AllReduced body) : (do
      let annotations ← concat (annotationsOf config pool) m.attributes
      return declared ++ body ++ annotations : Extract Mentions).Yields Mentions.AllReduced :=
    (yields_allReduced_annotations m.attributes).bind fun _ hannotations =>
      yields_pure ((hdeclared.append hbody).append hannotations)
  split
  · exact (yields_allReduced_code _).bind hrest
  · exact (yields_pure .nil).bind hrest

/-! ## Reducing again -/

/-- The name of an array that is a descriptor stands for the class at the bottom of the type, if
there is one, and reading a class entry of that name gives this class. The name of the class stands
for itself, so reducing it again when it is read or added has no effect. Everything that fields,
methods and annotations mention can be added as it stands. -/
theorem names_reduced_once (config : ExtractionConfig) (pool : Pool) :
    (∀ (text : String) (t : FieldType), FieldType.parse text = .ok t →
      text.toList.head? = some '[' →
        elementClass? text = t.classLeaf? ∧ (entryClass? text).Gives (.ok t.classLeaf?) ∧
        (t.classLeaf? = none → ∀ (refs : UnitReferences) (kind : EdgeKind) (n : Count),
          refs.addCount text kind n = refs) ∧
        ∀ leaf, t.classLeaf? = some leaf →
          elementClass? leaf = some leaf ∧ entryClass? leaf = pure (some leaf) ∧
          ∀ (refs : UnitReferences) (kind : EdgeKind) (n : Count),
            refs.addCount text kind n = refs.addNamed leaf kind n ∧
              refs.addCount leaf kind n = refs.addNamed leaf kind n) ∧
    (∀ m : Member, (field config pool m).Yields fun mentions =>
      ∀ refs : UnitReferences, refs.addAll mentions = refs.addAllNamed mentions) ∧
    (∀ m : Member, (method config pool m).Yields fun mentions =>
      ∀ refs : UnitReferences, refs.addAll mentions = refs.addAllNamed mentions) ∧
    ∀ a : Attribute, (annotationsOf config pool a).Yields fun mentions =>
      ∀ refs : UnitReferences, refs.addAll mentions = refs.addAllNamed mentions := by
  refine ⟨fun text t ht harray => ?_,
    fun m => (yields_allReduced_field m).imp fun _ h => h.addAll_eq,
    fun m => (yields_allReduced_method m).imp fun _ h => h.addAll_eq,
    fun a => (yields_allReduced_annotationsOf a).imp fun _ h => h.addAll_eq⟩
  have hclass : elementClass? text = t.classLeaf? := FieldType.elementClass?_eq ht harray
  refine ⟨hclass, ?_, fun hnone refs kind n => ?_, fun leaf hleaf => ?_⟩
  · rw [entryClass?, if_pos harray, hclass]
    exact (gives_fieldType_of_ok ht).bind_ok (gives_pure _)
  · exact UnitReferences.addCount_of_elementClass?_eq_none (hclass.trans hnone)
  · have hreduced : IsReduced leaf := FieldType.isReduced_classLeaf? ht hleaf
    have hplain : ¬ leaf.toList.head? = some '[' :=
      ((FieldType.parse_eq_ok_iff.1 ht).1.isClassName hleaf).isPlain
    refine ⟨hreduced, ?_, fun refs kind n => ⟨?_, ?_⟩⟩
    · rw [entryClass?, if_neg hplain, hreduced]
    · exact UnitReferences.addCount_of_elementClass? (hclass.trans hleaf)
    · exact UnitReferences.addCount_of_elementClass? hreduced

/-- A class whose name has an `L` and a `)` in it, at the bottom of an array. -/
theorem names_reduced_once_odd_name :
    FieldType.parse "[[LL)/x;" = .ok ⟨2, .object "L)/x"⟩ ∧
      elementClass? "[[LL)/x;" = some "L)/x" ∧ elementClass? "L)/x" = some "L)/x" ∧
      elementClass? "[[I" = none := by
  have hread : FieldType.parse "[[LL)/x;" = .ok ⟨2, .object "L)/x"⟩ := by decide +kernel
  have hprimitive : FieldType.parse "[[I" = .ok ⟨2, .primitive .int⟩ := by decide +kernel
  obtain ⟨harrays, -⟩ := names_reduced_once (.ofPreset .full) ⟨#[none]⟩
  obtain ⟨hclass, -, -, hleaf⟩ := harrays _ _ hread (by decide)
  exact ⟨hread, hclass, (hleaf _ rfl).1, (harrays _ _ hprimitive (by decide)).1⟩

end Extract

end ClassAtlas
