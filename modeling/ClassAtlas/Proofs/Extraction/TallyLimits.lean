import ClassAtlas.Proofs.ClassFile.Sizes
import ClassAtlas.Proofs.Extraction.Declarations
import ClassAtlas.Proofs.Extraction.Policy
import ClassAtlas.Proofs.Signature.Spelling

/-!
# Limits of tallies

The counters of a tally are added to without any check, so they have to stay in their range by
themselves. An extraction with a limit checks every tally after each step and stops as soon as a
counter is beyond the limit. For a unit that was decoded it never stops, if the limit is at least
65535 * 65535: a method has at most 65535 attributes with at most 65535 declared exceptions each,
and every other counter stands for names that are spelt out in one text.

## Main definitions

* `Tally.Within` says that no counter is beyond a limit.
* `LimitedExtract` is a computation that may stop at a limit, `LimitedExtract.unit` the extraction
  with its tallies checked.
* `LimitedExtract.RunsAs` says that such a computation does not stop and gives what another one
  gives.

## Main statements

* `Tally.addNames?_eq_check?`: counters only grow, so it is the last check that counts.
* `LimitedExtract.runsAs_header`, `LimitedExtract.runsAs_field` and `LimitedExtract.runsAs_method`
  are about the tallies of a unit.
* `CompiledUnit.extractUnit_within_limit`: the extraction of a unit stays in the range of its
  counters.
-/

namespace ClassAtlas

open Name

/-! ## Checked tallies -/

theorem timesNamed_le (parts : List (EdgeKind × List String)) (target : String) (kind : EdgeKind) :
    timesNamed parts target kind ≤ (parts.flatMap (·.2)).length := by
  induction parts with
  | nil => exact Nat.le_refl 0
  | cons part parts ih =>
    have hpart : (if part.1 = kind then part.2.count target else 0) ≤ part.2.length := by
      split
      · exact List.count_le_length
      · exact Nat.zero_le _
    rw [timesNamed, sumOf_cons, ← timesNamed, List.flatMap_cons, List.length_append]
    omega

namespace Tally

variable {limit : Nat} {tally other : Tally} {kind : EdgeKind} {names : List String}
  {parts : List (EdgeKind × List String)}

/-- No counter is beyond the limit. -/
def Within (limit : Nat) (tally : Tally) : Prop := ∀ n ∈ tally.values, n ≤ limit

instance (limit : Nat) (tally : Tally) : Decidable (tally.Within limit) :=
  inferInstanceAs (Decidable (∀ n ∈ _, n ≤ limit))

theorem within_iff : tally.Within limit ↔ ∀ link, (tally.get? link).getD 0 ≤ limit := by
  constructor
  · intro h link
    cases hn : tally.get? link with
    | none => exact Nat.zero_le _
    | some n => exact h n (List.mem_map.2 ⟨(link, n), SortedMap.mem_toList.2 hn, rfl⟩)
  · intro h n hn
    obtain ⟨⟨link, m⟩, hmem, rfl⟩ := List.mem_map.1 hn
    have hcount := h link
    rwa [SortedMap.mem_toList.1 hmem] at hcount

/-- The tally, if no counter is beyond the limit. -/
def check? (limit : Nat) (tally : Tally) : Option Tally :=
  if tally.Within limit then some tally else none

/-- Counts each name once per occurrence, with a check after each of them. -/
def addNames? (limit : Nat) (tally : Tally) (kind : EdgeKind) (names : List String) :
    Option Tally :=
  names.foldlM (fun t name => (t.addNames kind [name]).check? limit) tally

/-- The tally of names given by kind, with a check after each of them. -/
def ofNames? (limit : Nat) (parts : List (EdgeKind × List String)) : Option Tally :=
  parts.foldlM (fun t part => t.addNames? limit part.1 part.2) SortedMap.empty

theorem check?_eq_some (h : tally.Within limit) : tally.check? limit = some tally := if_pos h

theorem check?_eq_none (h : ¬ tally.Within limit) : tally.check? limit = none := if_neg h

theorem addNames_append (tally : Tally) (kind : EdgeKind) (names others : List String) :
    tally.addNames kind (names ++ others) = (tally.addNames kind names).addNames kind others :=
  List.foldl_append

theorem Within.of_addNames (h : (tally.addNames kind names).Within limit) :
    tally.Within limit := by
  rw [within_iff] at h ⊢
  intro link
  have hcount := h link
  rw [getD_addNames] at hcount
  omega

theorem Within.addNames (h : tally.Within limit)
    (hkind : ∀ name, (tally.get? ⟨name, kind⟩).getD 0 + names.length ≤ limit) :
    (tally.addNames kind names).Within limit := by
  rw [within_iff] at h ⊢
  rintro ⟨name, k⟩
  rw [getD_addNames]
  split
  · next hk =>
    obtain rfl : kind = k := hk
    exact Nat.le_trans (Nat.add_le_add_left List.count_le_length _) (hkind name)
  · exact h _

theorem Within.mergeMax (h : tally.Within limit) (hother : other.Within limit) :
    (tally.mergeMax other).Within limit := by
  rw [within_iff] at *
  intro link
  rw [getD_mergeMax]
  exact Nat.max_le.2 ⟨h link, hother link⟩

/-- A tally of as many names as the limit is within it. -/
theorem within_ofNames (h : (parts.flatMap (·.2)).length ≤ limit) :
    (ofNames parts).Within limit := by
  rw [within_iff]
  intro link
  rw [getD_ofNames]
  exact Nat.le_trans (timesNamed_le parts _ _) h

/-- Counters only grow, so a check after each name is a check in the end. -/
theorem addNames?_eq_check? (h : tally.Within limit) :
    tally.addNames? limit kind names = (tally.addNames kind names).check? limit := by
  induction names generalizing tally with
  | nil => exact (check?_eq_some h).symm
  | cons name names ih =>
    rw [addNames?, List.foldlM_cons]
    by_cases hfirst : (tally.addNames kind [name]).Within limit
    · rw [check?_eq_some hfirst]
      exact ih hfirst
    · have hall : ¬ ((tally.addNames kind [name]).addNames kind names).Within limit :=
        fun hall => hfirst hall.of_addNames
      rw [check?_eq_none hfirst]
      exact (check?_eq_none hall).symm

/-- The tally with names added kind by kind. -/
def addParts (tally : Tally) (parts : List (EdgeKind × List String)) : Tally :=
  parts.foldl (fun t part => t.addNames part.1 part.2) tally

theorem Within.of_addParts (h : (tally.addParts parts).Within limit) : tally.Within limit := by
  induction parts generalizing tally with
  | nil => exact h
  | cons part parts ih =>
    have hfirst : (tally.addNames part.1 part.2).Within limit := ih h
    exact hfirst.of_addNames

theorem ofNames?_eq_check? (limit : Nat) (parts : List (EdgeKind × List String)) :
    ofNames? limit parts = (ofNames parts).check? limit := by
  suffices hfold : ∀ tally : Tally, tally.Within limit →
      parts.foldlM (fun t part => t.addNames? limit part.1 part.2) tally =
        (tally.addParts parts).check? limit from
    hfold .empty (List.forall_mem_nil _)
  induction parts with
  | nil => exact fun tally h => (check?_eq_some h).symm
  | cons part parts ih =>
    intro tally h
    rw [List.foldlM_cons, addNames?_eq_check? h]
    by_cases hfirst : (tally.addNames part.1 part.2).Within limit
    · rw [check?_eq_some hfirst]
      exact ih _ hfirst
    · have hall : ¬ ((tally.addNames part.1 part.2).addParts parts).Within limit :=
        fun hall => hfirst hall.of_addParts
      rw [check?_eq_none hfirst]
      exact (check?_eq_none hall).symm

theorem ofNames?_eq_some (h : (ofNames parts).Within limit) :
    ofNames? limit parts = some (ofNames parts) :=
  (ofNames?_eq_check? limit parts).trans (check?_eq_some h)

end Tally

/-! ## Computations with a limit -/

theorem Extract.Transparent.yields {α : Type} {x : Extract α} (h : x.Transparent) :
    x.Yields fun _ => True := by
  obtain ⟨r, hr⟩ := h
  exact hr.yields.imp fun _ _ => trivial

/-- A computation that looks descriptors up in a cache and may fail, or stop at a limit. -/
abbrev LimitedExtract (α : Type) := ExceptT DecodeError (StateT DescriptorCache Option) α

namespace LimitedExtract

variable {α β : Type}

/-- A computation that meets no limit. -/
def lift (x : Extract α) : LimitedExtract α := ExceptT.mk fun cache => some (x.run.run cache)

/-- Stops where there is no value. -/
def ofOption (x : Option α) : LimitedExtract α :=
  ExceptT.mk fun cache => x.map fun a => (.ok a, cache)

/-- Under every sound cache the first computation runs to its end, as the second one does. -/
def RunsAs (x : LimitedExtract α) (y : Extract α) : Prop :=
  ∀ cache : DescriptorCache, cache.Sound → x.run.run cache = some (y.run.run cache)

theorem runsAs_lift (x : Extract α) : (lift x).RunsAs x := fun _ _ => rfl

theorem runsAs_pure (a : α) : (pure a : LimitedExtract α).RunsAs (pure a) := fun _ _ => rfl

/-- What follows a value that is there. -/
theorem runsAs_ofOption_bind {x : Option α} {a : α} (hx : x = some a) {f : α → LimitedExtract β}
    {y : Extract β} (hf : (f a).RunsAs y) : (ofOption x >>= f).RunsAs y := by
  subst hx
  exact hf

/-- One step after the other, where the second one can rely on what the first one gives. -/
theorem RunsAs.bind {x : LimitedExtract α} {y : Extract α} {P : α → Prop}
    {f : α → LimitedExtract β} {g : α → Extract β} (hx : x.RunsAs y) (hy : y.Yields P)
    (hf : ∀ a, P a → (f a).RunsAs (g a)) : (x >>= f).RunsAs (y >>= g) := by
  intro cache hc
  obtain ⟨hsound, hresult⟩ := hy cache hc
  have hrun := hx cache hc
  rw [ExceptT.run_bind, StateT.run_bind, ExceptT.run_bind, StateT.run_bind, hrun]
  generalize y.run.run cache = p at hsound hresult
  obtain ⟨result, cache'⟩ := p
  cases result with
  | error e => rfl
  | ok a => exact hf a (hresult a rfl) cache' hsound

/-- Parts one after the other. -/
theorem runsAs_mapM {part : α → LimitedExtract β} {plain : α → Extract β}
    (hplain : ∀ a, (plain a).Transparent) {l : List α} (h : ∀ a ∈ l, (part a).RunsAs (plain a)) :
    (l.mapM part).RunsAs (l.mapM plain) := by
  induction l with
  | nil => exact runsAs_pure []
  | cons a l ih =>
    obtain ⟨ha, hl⟩ := List.forall_mem_cons.1 h
    rw [List.mapM_cons, List.mapM_cons]
    refine ha.bind (hplain a).yields fun b _ => ?_
    exact (ih hl).bind (Extract.Transparent.mapM hplain l).yields fun bs _ => runsAs_pure _

/-! ## Extraction with a limit -/

/-- The names in a class signature. -/
def classSignatureParts (text : String) : Except Malformed (List (EdgeKind × List String)) := do
  let s ← ClassSignature.parse text
  return [(.superclass, s.superclass.classNames),
    (.interface, s.interfaces.flatMap ClassType.classNames)]

/-- The names in a field signature. -/
def fieldSignatureParts (text : String) : Except Malformed (List (EdgeKind × List String)) := do
  let s ← RefType.parse text
  return [(.fieldType, s.classNames)]

/-- The names in a method signature. -/
def methodSignatureParts (text : String) : Except Malformed (List (EdgeKind × List String)) := do
  let s ← MethodSignature.parse text
  return [(.methodParam,
      s.typeParams.flatMap TypeParam.classNames ++ s.params.flatMap SigType.classNames),
    (.methodReturn, s.result.elim [] SigType.classNames),
    (.methodThrows, s.throws.flatMap RefType.classNames)]

/-- Joins the tally of a declaration with that of its signature. Both the tally of the signature and
the joined one are checked. -/
def withSignature (limit : Nat) (config : ExtractionConfig) (tally : Tally) (text? : Option String)
    (parts : String → Except Malformed (List (EdgeKind × List String))) :
    LimitedExtract Mentions := do
  match config.signatures, text? with
  | true, some text =>
    let names ← lift (Extract.ofText (parts text))
    let generic ← ofOption (Tally.ofNames? limit names)
    let joined ← ofOption ((tally.mergeMax generic).check? limit)
    return joined.toList
  | _, _ => return tally.toList

/-- The mentions in the header of a class. -/
def header (limit : Nat) (config : ExtractionConfig) (c : ClassFile) : LimitedExtract Mentions := do
  let tally ← ofOption
    (Tally.ofNames? limit [(.superclass, c.superclass.toList), (.interface, c.interfaces)])
  withSignature limit config tally (signatureOf? c.attributes) classSignatureParts

/-- The mentions in a field. -/
def field (limit : Nat) (config : ExtractionConfig) (pool : Pool) (m : Member) :
    LimitedExtract Mentions := do
  let type ← lift (Extract.fieldType m.descriptor)
  let tally ← ofOption (Tally.ofNames? limit [(.fieldType, type.classLeaf?.toList)])
  let declared ← withSignature limit config tally m.signature? fieldSignatureParts
  let annotations ← lift (Extract.concat (Extract.annotationsOf config pool) m.attributes)
  return declared ++ annotations

/-- The names in the descriptor of a method. -/
def describedParts (type : MethodType) : List (EdgeKind × List String) :=
  [(.methodParam, type.params.filterMap FieldType.classLeaf?),
    (.methodReturn, (type.result.bind FieldType.classLeaf?).toList)]

/-- Adds declared exceptions to a tally, one after the other as they are read. -/
def addThrown (limit : Nat) (pool : Pool) (tally : Tally) : List UInt16 → LimitedExtract Tally
  | [] => return tally
  | index :: rest => do
    let class? ← lift (Extract.thrownClass? pool index)
    let tally ← ofOption (tally.addNames? limit .methodThrows class?.toList)
    addThrown limit pool tally rest

/-- The mentions in a method. -/
def method (limit : Nat) (config : ExtractionConfig) (pool : Pool) (m : Member) :
    LimitedExtract Mentions := do
  let type ← lift (Extract.methodType m.descriptor)
  let described ← ofOption (Tally.ofNames? limit (describedParts type))
  let tally ← addThrown limit pool described (Extract.exceptionIndices m)
  let declared ← withSignature limit config tally m.signature? methodSignatureParts
  let body ← match m.code? with
    | some body => lift (Extract.code config pool body)
    | none => pure []
  let annotations ← lift (Extract.concat (Extract.annotationsOf config pool) m.attributes)
  return declared ++ body ++ annotations

/-- The mentions in a unit. -/
def unit (limit : Nat) (config : ExtractionConfig) (u : CompiledUnit) :
    LimitedExtract Mentions := do
  let header ← header limit config u.classFile
  let annotations ← lift
    (Extract.concat (Extract.annotationsOf config u.pool) u.classFile.attributes)
  let fields ← u.classFile.fields.mapM (field limit config u.pool)
  let methods ← u.classFile.methods.mapM (method limit config u.pool)
  return header ++ annotations ++ fields.flatten ++ methods.flatten

/-! ## Running to the end -/

section

variable {limit : Nat} {config : ExtractionConfig} {pool : Pool}

theorem transparent_annotations (attributes : List Attribute) :
    (Extract.concat (Extract.annotationsOf config pool) attributes).Transparent :=
  .concat (Extract.transparent_annotationsOf config pool) attributes

theorem runsAs_withSignature {tally : Tally} {text? : Option String}
    {parts : String → Except Malformed (List (EdgeKind × List String))}
    (htally : tally.Within limit) (hparts : ∀ text ∈ text?, ∀ names, parts text = .ok names →
      (names.flatMap (·.2)).length ≤ limit) :
    (withSignature limit config tally text? parts).RunsAs
      (Extract.withSignature config tally text? fun text => Tally.ofNames <$> parts text) := by
  unfold withSignature Extract.withSignature
  cases config.signatures with
  | false => exact runsAs_pure _
  | true =>
    cases text? with
    | none => exact runsAs_pure _
    | some text =>
      cases hnames : parts text with
      | error e =>
        dsimp only
        rw [hnames]
        exact fun _ _ => rfl
      | ok names =>
        have hgeneric := Tally.within_ofNames (hparts text rfl names hnames)
        dsimp only
        rw [hnames]
        exact runsAs_ofOption_bind (Tally.ofNames?_eq_some hgeneric)
          (runsAs_ofOption_bind (Tally.check?_eq_some (htally.mergeMax hgeneric)) fun _ _ => rfl)

/-- The names in a signature fit into its text. -/
theorem length_classSignatureParts_le {text : String} {names : List (EdgeKind × List String)}
    (h : classSignatureParts text = .ok names) :
    (names.flatMap (·.2)).length ≤ text.toList.length := by
  obtain ⟨s, hs, h⟩ := exists_of_bind_eq_ok h
  cases h
  simpa using (ClassSignature.spelledIn_of_parse hs).length_le

theorem length_fieldSignatureParts_le {text : String} {names : List (EdgeKind × List String)}
    (h : fieldSignatureParts text = .ok names) :
    (names.flatMap (·.2)).length ≤ text.toList.length := by
  obtain ⟨t, ht, h⟩ := exists_of_bind_eq_ok h
  cases h
  simpa using (RefType.spelledIn_of_parse ht).length_le

theorem length_methodSignatureParts_le {text : String} {names : List (EdgeKind × List String)}
    (h : methodSignatureParts text = .ok names) :
    (names.flatMap (·.2)).length ≤ text.toList.length := by
  obtain ⟨s, hs, h⟩ := exists_of_bind_eq_ok h
  cases h
  simpa using (MethodSignature.spelledIn_of_parse hs).length_le

theorem classSignatureTally_eq_ofNames :
    Extract.classSignatureTally = fun text => Tally.ofNames <$> classSignatureParts text := by
  funext text
  rw [Extract.classSignatureTally, classSignatureParts, map_bind]
  rfl

theorem fieldSignatureTally_eq_ofNames :
    Extract.fieldSignatureTally = fun text => Tally.ofNames <$> fieldSignatureParts text := by
  funext text
  rw [Extract.fieldSignatureTally, fieldSignatureParts, map_bind]
  rfl

theorem methodSignatureTally_eq_ofNames :
    Extract.methodSignatureTally = fun text => Tally.ofNames <$> methodSignatureParts text := by
  funext text
  rw [Extract.methodSignatureTally, methodSignatureParts, map_bind]
  rfl

theorem runsAs_header (hlimit : 65536 ≤ limit) {c : ClassFile} (h : c.IsSized) :
    (header limit config c).RunsAs (Extract.header config c) := by
  have hinterfaces := h.length_interfaces_le
  have htally : (Tally.ofNames
      [(.superclass, c.superclass.toList), (.interface, c.interfaces)]).Within limit := by
    refine Tally.within_ofNames ?_
    have hsuperclass : c.superclass.toList.length ≤ 1 := Option.length_toList_le
    simp only [List.flatMap_cons, List.flatMap_nil, List.append_nil, List.length_append]
    omega
  unfold header Extract.header
  rw [classSignatureTally_eq_ofNames]
  refine runsAs_ofOption_bind (Tally.ofNames?_eq_some htally)
    (runsAs_withSignature htally fun text htext names hnames => ?_)
  have htext := h.attributes.length_signature_le htext
  have hnames := length_classSignatureParts_le hnames
  omega

theorem runsAs_field (hlimit : 65536 ≤ limit) {m : Member} (h : m.IsSized) :
    (field limit config pool m).RunsAs (Extract.field config pool m) := by
  unfold field Extract.field
  rw [fieldSignatureTally_eq_ofNames]
  refine (runsAs_lift _).bind (Extract.transparent_fieldType _).yields
    fun type _ => ?_
  have htally : (Tally.ofNames [(.fieldType, type.classLeaf?.toList)]).Within limit := by
    refine Tally.within_ofNames ?_
    have hleaf : type.classLeaf?.toList.length ≤ 1 := Option.length_toList_le
    simp only [List.flatMap_cons, List.flatMap_nil, List.append_nil]
    omega
  refine runsAs_ofOption_bind (Tally.ofNames?_eq_some htally) ?_
  refine (runsAs_withSignature htally fun text htext names hnames => ?_).bind
    (Extract.transparent_withSignature _ _ _ _).yields fun declared _ => ?_
  · have htext := h.attributes.length_signature_le htext
    have hnames := length_fieldSignatureParts_le hnames
    omega
  · exact (runsAs_lift _).bind (transparent_annotations m.attributes).yields
      fun _ _ => runsAs_pure _

/-- The tally with declared exceptions, which are added once all of them are read. -/
def thrownTally (pool : Pool) (tally : Tally) (indices : List UInt16) : Extract Tally := do
  let thrown ← indices.mapM (Extract.thrownClass? pool)
  return tally.addNames .methodThrows (thrown.filterMap id)

/-- Declared exceptions are added without going beyond the limit if it has room for all of them. -/
theorem runsAs_addThrown {tally : Tally} {indices : List UInt16} (htally : tally.Within limit)
    (hroom : ∀ name, (tally.get? ⟨name, .methodThrows⟩).getD 0 + indices.length ≤ limit) :
    (addThrown limit pool tally indices).RunsAs (thrownTally pool tally indices) := by
  induction indices generalizing tally with
  | nil => exact runsAs_pure tally
  | cons index rest ih =>
    simp only [addThrown, thrownTally, List.mapM_cons, bind_assoc, pure_bind]
    refine (runsAs_lift _).bind (Extract.transparent_thrownClass? pool index).yields
      fun class? _ => ?_
    have hone : class?.toList.length ≤ 1 := Option.length_toList_le
    simp only [List.length_cons] at hroom
    have hfirst : (tally.addNames .methodThrows class?.toList).Within limit :=
      htally.addNames fun name => Nat.le_trans (by omega) (hroom name)
    have hsplit (classes : List (Option String)) :
        tally.addNames .methodThrows ((class? :: classes).filterMap id) =
          (tally.addNames .methodThrows class?.toList).addNames .methodThrows
            (classes.filterMap id) := by
      rw [← Tally.addNames_append]
      cases class? <;> rfl
    simp only [hsplit]
    rw [Tally.addNames?_eq_check? htally]
    refine runsAs_ofOption_bind (Tally.check?_eq_some hfirst) (ih hfirst fun name => ?_)
    have hcount : class?.toList.count name ≤ 1 := Nat.le_trans List.count_le_length hone
    have hname := hroom name
    rw [Tally.getD_addNames, if_pos rfl]
    dsimp only
    omega

theorem yields_thrownTally {tally : Tally} {indices : List UInt16} (htally : tally.Within limit)
    (hroom : ∀ name, (tally.get? ⟨name, .methodThrows⟩).getD 0 + indices.length ≤ limit) :
    (thrownTally pool tally indices).Yields (Tally.Within limit) := by
  have hlength := Extract.Yields.mapM (P := fun _ _ => True)
    (fun i => (Extract.transparent_thrownClass? pool i).yields) indices
  refine hlength.bind fun thrown hthrown => Extract.yields_pure (htally.addNames fun name => ?_)
  have hfewer : (thrown.filterMap id).length ≤ thrown.length := List.length_filterMap_le id thrown
  have hname := hroom name
  have hsame := hthrown.length_eq
  omega

theorem method_eq (m : Member) : Extract.method config pool m = do
    let type ← Extract.methodType m.descriptor
    let tally ← thrownTally pool (Tally.ofNames (describedParts type))
      (Extract.exceptionIndices m)
    let declared ← Extract.withSignature config tally m.signature? Extract.methodSignatureTally
    let body ← match m.code? with
      | some body => Extract.code config pool body
      | none => pure []
    let annotations ← Extract.concat (Extract.annotationsOf config pool) m.attributes
    return declared ++ body ++ annotations := by
  simp only [Extract.method, thrownTally, bind_assoc, pure_bind]
  rfl

theorem length_describedParts_le {text : String} {type : MethodType}
    (h : MethodType.parse text = .ok type) :
    ((describedParts type).flatMap (·.2)).length ≤ text.toList.length := by
  have hlength := (MethodType.spelledIn_of_parse h).length_le
  rw [MethodType.classNames] at hlength
  simpa [describedParts] using hlength

theorem runsAs_method (hlimit : 65535 * 65535 ≤ limit) {m : Member} (h : m.IsSized) :
    (method limit config pool m).RunsAs (Extract.method config pool m) := by
  rw [method_eq, methodSignatureTally_eq_ofNames]
  unfold method
  refine (runsAs_lift _).bind (Extract.yields_methodType _) fun type htype => ?_
  have hdescribed : (Tally.ofNames (describedParts type)).Within limit := by
    have hdescriptor := h.length_descriptor_le
    have hnames := length_describedParts_le htype
    exact Tally.within_ofNames (by omega)
  -- the descriptor brings no declared exceptions, so there is room for those of all attributes
  have hroom (name : String) :
      ((Tally.ofNames (describedParts type)).get? ⟨name, .methodThrows⟩).getD 0 +
        (Extract.exceptionIndices m).length ≤ limit := by
    have hnone : timesNamed (describedParts type) name .methodThrows = 0 := rfl
    have hthrown := h.length_exceptionIndices_le
    rw [Tally.getD_ofNames, hnone]
    omega
  refine runsAs_ofOption_bind (Tally.ofNames?_eq_some hdescribed) ?_
  refine (runsAs_addThrown hdescribed hroom).bind (yields_thrownTally hdescribed hroom)
    fun tally htally => ?_
  refine (runsAs_withSignature htally fun text htext names hnames => ?_).bind
    (Extract.transparent_withSignature _ _ _ _).yields fun declared _ => ?_
  · have htext := h.attributes.length_signature_le htext
    have hnames := length_methodSignatureParts_le hnames
    omega
  have hrest (body : Mentions) : (do
      let annotations ← lift (Extract.concat (Extract.annotationsOf config pool) m.attributes)
      return declared ++ body ++ annotations : LimitedExtract Mentions).RunsAs (do
        let annotations ← Extract.concat (Extract.annotationsOf config pool) m.attributes
        return declared ++ body ++ annotations) :=
    (runsAs_lift _).bind (transparent_annotations m.attributes).yields fun _ _ => runsAs_pure _
  cases m.code? with
  | some c =>
    exact (runsAs_lift _).bind (Extract.transparent_code config pool c).yields
      fun body _ => hrest body
  | none =>
    exact (runsAs_pure []).bind (Extract.yields_pure (P := fun _ => True) trivial)
      fun body _ => hrest body

theorem runsAs_unit (hlimit : 65535 * 65535 ≤ limit) {u : CompiledUnit}
    (h : u.classFile.IsSized) : (unit limit config u).RunsAs (Extract.unit config u) := by
  unfold unit Extract.unit
  refine (runsAs_header (by omega) h).bind
    (Extract.transparent_withSignature _ _ _ _).yields fun _ _ => ?_
  refine (runsAs_lift _).bind (transparent_annotations u.classFile.attributes).yields fun _ _ => ?_
  have hfield := Extract.transparent_field config u.pool
  have hfields : (u.classFile.fields.mapM (field limit config u.pool)).RunsAs
      (u.classFile.fields.mapM (Extract.field config u.pool)) :=
    runsAs_mapM hfield fun m hm => runsAs_field (by omega) (h.fields m hm)
  have hmethod := Extract.transparent_method config u.pool
  have hmethods : (u.classFile.methods.mapM (method limit config u.pool)).RunsAs
      (u.classFile.methods.mapM (Extract.method config u.pool)) :=
    runsAs_mapM hmethod fun m hm => runsAs_method hlimit (h.methods m hm)
  simp only [Extract.concat, bind_assoc, pure_bind]
  refine hfields.bind (Extract.Transparent.mapM hfield _).yields fun _ _ => ?_
  exact hmethods.bind (Extract.Transparent.mapM hmethod _).yields fun _ _ => runsAs_pure _

end

/-- The references of a unit, unless a tally goes beyond the limit, with the cache after the
extraction. -/
def extractUnit (limit : Nat) (config : ExtractionConfig) (u : CompiledUnit)
    (cache : DescriptorCache) : Option (Except DecodeError UnitReferences × DescriptorCache) :=
  ((unit limit config u).run.run cache).map fun (mentions, cache) =>
    ((UnitReferences.empty u.name).addAll <$> mentions, cache)

end LimitedExtract

/-! ## Units that were decoded -/

namespace CompiledUnit

/-- The extraction of a unit that was decoded never stops at the limit 65535 * 65535, whether it
succeeds or fails, and whatever the extractor has gone through before. The limit is below that of
counters of 32 bits. -/
theorem extractUnit_within_limit {raw : List UInt8} {u : CompiledUnit} (h : decode raw = .ok u)
    (config : ExtractionConfig) (earlier : List CompiledUnit) :
    LimitedExtract.extractUnit (65535 * 65535) config u (cacheAfter config earlier) =
        some (extractUnit config u (cacheAfter config earlier)) ∧
      65535 * 65535 < 2 ^ 32 := by
  have hruns : (LimitedExtract.unit (65535 * 65535) config u).RunsAs (Extract.unit config u) :=
    LimitedExtract.runsAs_unit (Nat.le_refl _) (isSized_of_decode h)
  refine ⟨?_, by decide⟩
  rw [LimitedExtract.extractUnit, hruns _ (sound_cacheAfter config earlier)]
  rfl

/-- The class file of a class `A` with a method whose two lists of exceptions both name `E`. -/
def thrownTwiceBytes : List UInt8 :=
  [0xCA, 0xFE, 0xBA, 0xBE, 0, 0, 0, 52, 0, 8, 1, 0, 1, 65, 7, 0, 1, 1, 0, 1, 109,
    1, 0, 3, 40, 41, 86, 1, 0, 10, 69, 120, 99, 101, 112, 116, 105, 111, 110, 115,
    1, 0, 1, 69, 7, 0, 6, 4, 1, 0, 2, 0, 0, 0, 0, 0, 0, 0, 1, 4, 1, 0, 3, 0, 4, 0, 2,
    0, 5, 0, 0, 0, 4, 0, 1, 0, 7, 0, 5, 0, 0, 0, 4, 0, 1, 0, 7, 0, 0]

/-- The counter of the exception gets to two, so the limit one would have stopped the extraction. -/
theorem extractUnit_within_limit_thrown_twice : ∃ u, decode thrownTwiceBytes = .ok u ∧
    LimitedExtract.extractUnit 1 (.ofPreset .full) u (cacheAfter (.ofPreset .full) [u]) = none ∧
    LimitedExtract.extractUnit (65535 * 65535) (.ofPreset .full) u
        (cacheAfter (.ofPreset .full) [u]) =
      some (extractUnit (.ofPreset .full) u (cacheAfter (.ofPreset .full) [u])) := by
  obtain ⟨u, hu⟩ := exists_of_isOk (x := decode thrownTwiceBytes) (by decide +kernel)
  have hstops : (decode thrownTwiceBytes).toOption.all (fun u =>
      (LimitedExtract.extractUnit 1 (.ofPreset .full) u
        (cacheAfter (.ofPreset .full) [u])).isNone) = true := by decide +kernel
  rw [hu] at hstops
  exact ⟨u, hu, Option.isNone_iff_eq_none.1 hstops,
    (extractUnit_within_limit hu (.ofPreset .full) [u]).1⟩

end CompiledUnit

end ClassAtlas
