import ClassAtlas.Proofs.Extraction.Policy
import ClassAtlas.Proofs.Extraction.Richer

/-!
# Names in class entries

A class entry may hold the name of an array, which has to be a descriptor. Methods read entries for
declared exceptions, operands and handlers, and one that holds a malformed name makes the extraction
fail. The header reads entries for the superclass and the interfaces; their names are not checked,
and one that begins like an array may stand for a class whose name begins so again.

## Main definitions

* `CompiledUnit.ReadsEntry` says that the name of a class entry is read when references are
  extracted, by the header or by a method.

## Main statements

* `CompiledUnit.entryNames_of_extractUnit`: which names of arrays an extraction that succeeds has
  read, and which of its targets begin like one.
-/

namespace ClassAtlas

open Name

/-! ## Entries -/

/-- The header names a class in this way. -/
inductive ClassFile.Inherits (c : ClassFile) : EdgeKind → String → Prop
  | superclass {name : String} (h : c.superclass = some name) : c.Inherits .superclass name
  | interface {name : String} (h : name ∈ c.interfaces) : c.Inherits .interface name

/-- A method leads to a name in a class entry: that of a declared exception, or one that an
instruction or a handler touches. -/
inductive Member.ReadsEntry (pool : Pool) (m : Member) : String → Prop
  | thrown {i : UInt16} {name : String} (hi : i ∈ Extract.exceptionIndices m)
      (hname : pool.className i = .ok name) : Member.ReadsEntry pool m name
  | touched {c : Code} {i : UInt16} {owner : String} (hc : m.code? = some c)
      (hi : i ∈ c.touchedIndices) (howner : pool.ownerAt? i = some owner) :
      Member.ReadsEntry pool m owner

/-- The name of a class entry is read when the references of the unit are extracted. -/
inductive CompiledUnit.ReadsEntry (u : CompiledUnit) (name : String) : Prop
  | inherited {kind : EdgeKind} (h : u.classFile.Inherits kind name)
  | inMethod {m : Member} (hm : m ∈ u.classFile.methods) (h : m.ReadsEntry u.pool name)

/-! ## Methods -/

namespace Extract

variable {config : ExtractionConfig} {pool : Pool}

theorem yields_isEntryName (name : String) :
    (entryClass? name).Yields fun _ => IsEntryName name := by
  unfold entryClass?
  split
  · exact (yields_fieldType name).bind fun t ht => yields_pure (.inr (by rw [ht]; rfl))
  · next hplain => exact yields_pure (.inl hplain)

theorem yields_isEntryName_thrown (i : UInt16) : (thrownClass? pool i).Yields fun _ =>
    ∀ name, pool.className i = .ok name → IsEntryName name :=
  (yields_ofExcept _).bind fun name hname => (yields_isEntryName name).imp fun _ h name' hname' => by
    rw [hname] at hname'
    cases hname'
    exact h

theorem Yields.forall_mapM {α β : Type} {part : α → Extract β} {P : α → Prop}
    (h : ∀ a, (part a).Yields fun _ => P a) (l : List α) :
    (l.mapM part).Yields fun _ => ∀ a ∈ l, P a := by
  refine (Yields.mapM h l).imp fun bs hbs => ?_
  induction hbs with
  | nil => exact List.forall_mem_nil _
  | cons hfirst _ ih => exact List.forall_mem_cons.2 ⟨hfirst, ih⟩

/-- A body of code that is gone through has read entry names only. -/
theorem yields_isEntryName_code (c : Code) : (code config pool c).Yields fun _ =>
    ∀ i ∈ c.touchedIndices, ∀ owner, pool.ownerAt? i = some owner → IsEntryName owner := by
  refine (yields_ofExcept _).bind fun entries hentries =>
    (Yields.forall_mapM yields_isEntryName _).bind fun _ hnames =>
      (yields_concat_mentions yields_annotationsOfDetail c.details).bind fun _ _ =>
        yields_pure fun i hi owner howner => hnames owner ?_
  obtain ⟨_, _, _, _, rfl⟩ := touched_eq_ok_iff.1 hentries
  have hentry : (i, some owner) ∈ (pool.ownersAt c.touchedIndices).toList :=
    Pool.mem_toList_ownersAt.2 ⟨hi, howner.symm⟩
  exact List.mem_filterMap.2 ⟨some owner, List.mem_map_of_mem hentry, rfl⟩

/-- So has a method. -/
theorem yields_isEntryName_method (m : Member) : (method config pool m).Yields fun _ =>
    ∀ name, m.ReadsEntry pool name → IsEntryName name := by
  refine (yields_methodType m.descriptor).bind fun t _ =>
    (Yields.forall_mapM yields_isEntryName_thrown _).bind fun thrown hthrown =>
      (yields_withSignature fun _ _ => methodSignatureTally_eq).bind fun declared _ => ?_
  -- what is known once the body, if there is one, is gone through
  have hrest (body : Mentions) (hbody : ∀ c, m.code? = some c → ∀ i ∈ c.touchedIndices,
      ∀ owner, pool.ownerAt? i = some owner → IsEntryName owner) : (do
        let annotations ← Extract.concat (annotationsOf config pool) m.attributes
        return declared ++ body ++ annotations : Extract Mentions).Yields fun _ =>
          ∀ name, m.ReadsEntry pool name → IsEntryName name := by
    refine (addsUpTo_annotations m.attributes).bind fun _ _ => yields_pure fun name h => ?_
    cases h with
    | thrown hi hname => exact hthrown _ hi name hname
    | touched hc hi howner => exact hbody _ hc _ hi name howner
  split
  · next c hcode =>
    refine (yields_isEntryName_code c).bind fun body hbody => hrest body fun c' hc' => ?_
    rw [hcode] at hc'
    cases hc'
    exact hbody
  · next hcode =>
    refine (yields_pure (P := fun _ => True) trivial).bind fun body _ => hrest body fun c hc => ?_
    rw [hcode] at hc
    cases hc

theorem yields_isEntryName_unit (config : ExtractionConfig) (u : CompiledUnit) :
    (unit config u).Yields fun _ =>
      ∀ m ∈ u.classFile.methods, ∀ name, m.ReadsEntry u.pool name → IsEntryName name :=
  (addsUpTo_header u.classFile).bind fun _ _ =>
    (addsUpTo_annotations u.classFile.attributes).bind fun _ _ =>
      (AddsUpTo.concat addsUpTo_field u.classFile.fields).bind fun _ _ =>
        ((Yields.forall_mapM yields_isEntryName_method _).bind fun _ h => yields_pure h).bind
          fun _ h => yields_pure h

end Extract

/-! ## Targets that begin like arrays -/

section

variable {config : ExtractionConfig} {pool : Pool} {target : String} {kind : EdgeKind}

/-- A generic signature does not name such a target. -/
theorem timesDeclared_of_not_isPlain {declared : List (EdgeKind × List String)}
    {names : String → List (EdgeKind × List String)} {text? : Option String}
    (htarget : ¬ IsPlain target) (hnames : ∀ text, ∀ part ∈ names text, AllPlain part.2) :
    timesDeclared config declared (text?.map names) target kind =
      timesNamed declared target kind := by
  have hzero : timesNamed ((text?.map names).getD []) target kind = 0 := by
    cases text? with
    | none => rfl
    | some text =>
      exact timesNamed_eq_zero (fun part hpart hmem => htarget (hnames text part hpart _ hmem)) kind
  rw [timesDeclared, hzero, Nat.max_zero, ite_self]

theorem timesDeclared_of_allPlain {declared : List (EdgeKind × List String)}
    {names : String → List (EdgeKind × List String)} {text? : Option String}
    (htarget : ¬ IsPlain target) (hnames : ∀ text, ∀ part ∈ names text, AllPlain part.2)
    (hdeclared : ∀ part ∈ declared, AllPlain part.2) :
    timesDeclared config declared (text?.map names) target kind = 0 := by
  rw [timesDeclared_of_not_isPlain htarget hnames]
  exact timesNamed_eq_zero (fun part hpart hmem => htarget (hdeclared part hpart _ hmem)) kind

namespace Member

variable {m : Member}

theorem timesInField_of_not_isPlain (htarget : ¬ IsPlain target) :
    m.timesInField config target kind = 0 :=
  timesDeclared_of_allPlain htarget (fun _ => allPlain_fieldSignatureNames)
    (by simpa using allPlain_descriptorClass m.descriptor)

variable (hentries : ∀ name, m.ReadsEntry pool name → IsEntryName name)

include hentries

theorem allPlain_thrownClasses : AllPlain (m.thrownClasses pool) := by
  intro leaf hleaf
  obtain ⟨i, hi, hclass⟩ := List.mem_filterMap.1 hleaf
  obtain ⟨name, hname, hleaf⟩ := Option.bind_eq_some_iff.1 hclass
  exact (hentries name (.thrown hi (toOption_eq_some_iff.1 hname))).isPlain_elementClass? hleaf

theorem timesInMethod_of_not_isPlain (htarget : ¬ IsPlain target) :
    m.timesInMethod config pool target kind = 0 :=
  timesDeclared_of_allPlain htarget (fun _ => allPlain_methodSignatureNames)
    (Extract.allPlain_methodNames (allPlain_thrownClasses hentries))

theorem timesTouched_of_not_isPlain (htarget : ¬ IsPlain target) :
    m.timesTouched pool target = 0 := by
  rw [timesTouched]
  cases hc : m.code? with
  | none => rfl
  | some c =>
    refine List.countP_eq_zero.2 fun i hi hclass => htarget ?_
    obtain ⟨owner, howner, hleaf⟩ := Option.bind_eq_some_iff.1 (of_decide_eq_true hclass)
    exact (hentries owner (.touched hc (List.mem_dedup.1 hi) howner)).isPlain_elementClass? hleaf

end Member

theorem timesUsed_of_not_isPlain (uses : List TypeUse) (htarget : ¬ IsPlain target) :
    timesUsed pool uses target kind = 0 := by
  rw [timesUsed, List.countP_eq_zero.2, ite_self]
  exact fun use _ hclass => htarget (TypeUse.isPlain_class? (of_decide_eq_true hclass))

/-- Where the entries of the methods are in order, only the header mentions such a target. -/
theorem CompiledUnit.timesReferenced_of_not_isPlain {u : CompiledUnit}
    (hentries : ∀ m ∈ u.classFile.methods, ∀ name, m.ReadsEntry u.pool name → IsEntryName name)
    (htarget : ¬ IsPlain target) :
    u.timesReferenced config target kind = u.classFile.timesInherited config target kind := by
  have htouched : ∀ m ∈ u.classFile.methods,
      (if .instructionRef = kind then m.timesTouched u.pool target else 0) = 0 := fun m hm => by
    rw [Member.timesTouched_of_not_isPlain (hentries m hm) htarget, ite_self]
  rw [timesReferenced_eq_sum, timesUsed_of_not_isPlain _ htarget, sumOf_eq_zero htouched,
    sumOf_eq_zero fun m _ => Member.timesInField_of_not_isPlain htarget,
    sumOf_eq_zero fun m hm => Member.timesInMethod_of_not_isPlain (hentries m hm) htarget]
  rfl

namespace ClassFile

variable {c : ClassFile}

theorem timesNamed_ne_zero_iff {name : String} :
    timesNamed [(.superclass, c.superclass.toList), (.interface, c.interfaces)] name kind ≠ 0 ↔
      c.Inherits kind name := by
  have hpart {part : EdgeKind × List String} :
      (if part.1 = kind then part.2.count name else 0) ≠ 0 ↔ part.1 = kind ∧ name ∈ part.2 := by
    split <;> simp_all [List.count_eq_zero]
  rw [timesNamed, sumOf_ne_zero_iff]
  simp only [hpart, List.mem_cons, List.not_mem_nil, or_false, exists_eq_or_imp, exists_eq_left,
    Option.mem_toList]
  constructor
  · rintro (⟨rfl, h⟩ | ⟨rfl, h⟩)
    · exact .superclass h
    · exact .interface h
  · rintro (h | h)
    · exact .inl ⟨rfl, h⟩
    · exact .inr ⟨rfl, h⟩

/-- The names in the header that stand for such a target are taken as they are. -/
theorem timesInherited_ne_zero_iff (htarget : ¬ IsPlain target) :
    c.timesInherited config target kind ≠ 0 ↔
      ∃ name, c.Inherits kind name ∧ elementClass? name = some target := by
  have hne : target ≠ "" := ne_empty_of_not_isPlain htarget
  -- a plain name stands for itself, so it cannot stand for the target
  have hdeclared {name : String} (hclass : elementClass? name = some target) :
      timesDeclared config [(.superclass, c.superclass.toList), (.interface, c.interfaces)]
        ((signatureOf? c.attributes).map classSignatureNames) name kind ≠ 0 ↔
          c.Inherits kind name := by
    have hname : ¬ IsPlain name := fun hplain =>
      htarget ((elementClass?_eq_some_iff hplain hne).1 hclass ▸ hplain)
    rw [timesDeclared_of_not_isPlain hname fun _ => allPlain_classSignatureNames,
      timesNamed_ne_zero_iff]
  rw [timesInherited, timesReduced, sumOf_ne_zero_iff]
  simp only [List.mem_filter, List.mem_dedup, decide_eq_true_eq]
  constructor
  · rintro ⟨name, ⟨-, hclass⟩, htimes⟩
    exact ⟨name, (hdeclared hclass).1 htimes, hclass⟩
  · rintro ⟨name, hinherits, hclass⟩
    refine ⟨name, ⟨?_, hclass⟩, (hdeclared hclass).2 hinherits⟩
    cases hinherits <;> simp_all

end ClassFile

end

/-! ## Extraction -/

namespace CompiledUnit

/-- Where an extraction succeeds, the names that methods lead to are in order: one that begins like
an array is a descriptor. The names in the header need not be: a target that begins like an array
is listed exactly if the header names it as the element of an array, and is not the unit itself. -/
theorem entryNames_of_extractUnit (config : ExtractionConfig) (earlier : List CompiledUnit)
    (u : CompiledUnit) {refs : UnitReferences}
    (h : (extractUnit config u (cacheAfter config earlier)).1 = .ok refs) :
    (∀ m ∈ u.classFile.methods, ∀ name, m.ReadsEntry u.pool name → IsEntryName name) ∧
      (∀ target kind, ¬ IsPlain target → (⟨target, kind⟩ ∈ refs.counts.keys ↔ target ≠ u.name ∧
        ∃ name, u.classFile.Inherits kind name ∧ elementClass? name = some target)) ∧
      ((∀ kind name, u.classFile.Inherits kind name → IsEntryName name) →
        AllPlain refs.targets) := by
  obtain ⟨mentions, hmentions, rfl⟩ := exists_of_map_eq_ok h
  have hsound := sound_cacheAfter config earlier
  have hentries := (Extract.yields_isEntryName_unit config u _ hsound).2 mentions hmentions
  have htimes := (Extract.addsUpTo_unit config u _ hsound).2 mentions hmentions
  have hlisted (target : String) (kind : EdgeKind) (htarget : ¬ IsPlain target) :
      ⟨target, kind⟩ ∈ ((UnitReferences.empty u.name).addAll mentions).counts.keys ↔
        target ≠ u.name ∧
          ∃ name, u.classFile.Inherits kind name ∧ elementClass? name = some target := by
    have hne : target ≠ "" := ne_empty_of_not_isPlain htarget
    have hheader : timesMentioned mentions target kind ≠ 0 ↔
        ∃ name, u.classFile.Inherits kind name ∧ elementClass? name = some target := by
      rw [htimes target kind hne, timesReferenced_of_not_isPlain hentries htarget,
        ClassFile.timesInherited_ne_zero_iff htarget]
    rw [SortedMap.mem_keys, SortedMap.contains, Option.isSome_iff_exists, ← hheader]
    simp [UnitReferences.get?_addAll_empty]
  refine ⟨hentries, hlisted, fun hheader target htarget => ?_⟩
  by_contra hbracket
  obtain ⟨⟨_, kind⟩, hlink, rfl⟩ := List.mem_map.1 (mem_sortedDistinct.1 htarget)
  obtain ⟨-, name, hinherits, hclass⟩ := (hlisted _ kind hbracket).1 hlink
  exact hbracket ((hheader kind name hinherits).isPlain_elementClass? hclass)

/-- A class with a malformed name of an array for a superclass, and a cast to an array. -/
def arraySuperclass : CompiledUnit where
  version := ⟨0, 52⟩
  pool := ⟨#[none, some (.utf8 "[[Lp/B;"), some (.classEntry 1)]⟩
  classFile := {
    accessFlags := 0x21
    thisClass := "p/A"
    superclass := some "[L[B;"
    interfaces := ["[Lp/I;"]
    fields := []
    methods := [⟨0, "m", "()V", [.code ⟨1, 1, 0, [0xc0, 0, 2, 0xb1], [], []⟩]⟩]
    attributes := [] }

theorem entryNames_of_extractUnit_array_superclass :
    ∃ refs, (extractUnit (.ofPreset .full) arraySuperclass
        (cacheAfter (.ofPreset .full) [arraySuperclass])).1 = .ok refs ∧
      IsEntryName "[[Lp/B;" ∧ ⟨"[B", .superclass⟩ ∈ refs.counts.keys ∧
      ⟨"[B", .interface⟩ ∉ refs.counts.keys := by
  have hok : (extractUnit (.ofPreset .full) arraySuperclass
      (cacheAfter (.ofPreset .full) [arraySuperclass])).1.isOk = true := by decide +kernel
  obtain ⟨refs, hrefs⟩ := exists_of_isOk hok
  obtain ⟨hmethods, hlisted, -⟩ := entryNames_of_extractUnit _ _ _ hrefs
  refine ⟨refs, hrefs, ?_, ?_, fun h => ?_⟩
  · refine hmethods _ List.mem_cons_self "[[Lp/B;" (.touched (i := 2) rfl ?_ ?_)
    · decide +kernel
    · decide +kernel
  · exact (hlisted "[B" .superclass (by decide)).2 ⟨by decide, _, .superclass rfl, by decide⟩
  · obtain ⟨-, name, hname, hclass⟩ := (hlisted "[B" .interface (by decide)).1 h
    cases hname with
    | interface hmem =>
      obtain rfl := List.mem_singleton.1 hmem
      exact absurd hclass (by decide)

/-- The class file of a class `A` whose superclass has the name `[L[B;`. -/
def arraySuperclassBytes : List UInt8 :=
  [0xCA, 0xFE, 0xBA, 0xBE, 0, 0, 0, 52, 0, 5, 1, 0, 1, 65, 7, 0, 1, 1, 0, 5, 91, 76, 91, 66, 59,
    7, 0, 3, 0, 0x21, 0, 2, 0, 4, 0, 0, 0, 0, 0, 0, 0, 0]

/-- The name of a superclass is not checked: no descriptor reads `[L[B;`, and the references of the
class are those to a class `[B`. -/
theorem exists_malformed_entry_extracted : ∃ u refs, decode arraySuperclassBytes = .ok u ∧
    u.ReadsEntry "[L[B;" ∧ ¬ IsEntryName "[L[B;" ∧
    (extractUnit (.ofPreset .full) u .empty).1 = .ok refs ∧ refs.targets = ["[B"] := by
  obtain ⟨u, hu⟩ := exists_of_isOk (x := decode arraySuperclassBytes) (by decide +kernel)
  have hsuper : (decode arraySuperclassBytes).toOption.bind (·.classFile.superclass) =
      some "[L[B;" := by decide +kernel
  have hrefs : (decode arraySuperclassBytes).toOption.bind (fun u =>
      (extractUnit (.ofPreset .full) u .empty).1.toOption) =
        some ⟨"A", SortedMap.empty.insert ⟨"[B", .superclass⟩ (.ofNat 1)⟩ := by decide +kernel
  rw [hu] at hsuper hrefs
  refine ⟨u, _, hu, .inherited (.superclass hsuper), by decide +kernel,
    toOption_eq_some_iff.1 hrefs, by decide +kernel⟩

end CompiledUnit

end ClassAtlas
