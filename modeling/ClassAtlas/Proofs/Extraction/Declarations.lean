import ClassAtlas.Proofs.Extraction.Faithful
import ClassAtlas.Proofs.Extraction.Runs
import ClassAtlas.Proofs.Extraction.UnitMeaning

/-!
# Mentions in declarations

A declaration is counted through a tally, which the tally of its signature is merged into. Adding up
the merged tally gives the larger number of the two views for each name, summed over the names that
stand for a class; where no name is that of an array, this is the larger number of times that the
class itself is named.
-/

namespace ClassAtlas

open Name

/-! ## Sums over names -/

section

variable {α β : Type}

theorem sumOf_map (f : β → Nat) (g : α → β) (l : List α) :
    sumOf f (l.map g) = sumOf (fun a => f (g a)) l := by
  induction l with
  | nil => rfl
  | cons a l ih => rw [List.map_cons, sumOf_cons, sumOf_cons, ih]

theorem sumOf_add (f g : α → Nat) (l : List α) :
    sumOf (fun a => f a + g a) l = sumOf f l + sumOf g l := by
  induction l with
  | nil => rfl
  | cons a l ih =>
    simp only [sumOf_cons, ih]
    omega

/-- Only the elements that count have to be the same. -/
theorem sumOf_eq_of_nodup {f : α → Nat} {l m : List α} (hl : l.Nodup) (hm : m.Nodup)
    (h : ∀ a, f a ≠ 0 → (a ∈ l ↔ a ∈ m)) : sumOf f l = sumOf f m := by
  have hfilter (l : List α) : sumOf f (l.filter (f · ≠ 0)) = sumOf f l := by
    rw [← sumOf_ite]
    exact sumOf_congr fun a _ => by split <;> omega
  rw [← hfilter l, ← hfilter m]
  refine sumOf_perm f ((List.perm_ext_iff_of_nodup (hl.filter _) (hm.filter _)).2 fun a => ?_)
  simp only [List.mem_filter, decide_eq_true_eq]
  exact and_congr_left (h a)

end

/-! ## Merged tallies -/

namespace Tally

variable {tally : Tally} {target : String} {kind : EdgeKind}

/-- A tally adds up to what it says about the names that stand for the target. -/
theorem timesMentioned_toList_eq_sumOf {names : List String} (hnodup : names.Nodup)
    (hnames : ∀ name, (tally.get? ⟨name, kind⟩).getD 0 ≠ 0 → name ∈ names) :
    timesMentioned tally.toList target kind =
      sumOf (fun name => (tally.get? ⟨name, kind⟩).getD 0)
        (names.filter (elementClass? · = some target)) := by
  rw [timesMentioned, sumOf_ite]
  generalize hentries : tally.toList.filter
    (fun e => elementClass? e.1.unit = some target ∧ e.1.kind = kind) = entries
  have hmem {e : Link × Nat} : e ∈ entries ↔
      tally.get? e.1 = some e.2 ∧ elementClass? e.1.unit = some target ∧ e.1.kind = kind := by
    rw [← hentries, List.mem_filter, SortedMap.mem_toList, decide_eq_true_eq]
  -- the entries are compared with the names through the name in their link
  have hvalue : sumOf (fun e => e.2) entries =
      sumOf (fun name => (tally.get? ⟨name, kind⟩).getD 0) (entries.map fun e => e.1.unit) := by
    rw [sumOf_map]
    refine sumOf_congr fun e he => ?_
    obtain ⟨hget, _, rfl⟩ := hmem.1 he
    exact (congrArg (·.getD 0) hget).symm
  rw [hvalue]
  refine sumOf_eq_of_nodup ?_ (hnodup.filter _) fun name hname => ?_
  · have hkeys : (entries.map Prod.fst).Nodup := by
      refine tally.nodup_keys.sublist (List.Sublist.map _ ?_)
      rw [← hentries]
      exact List.filter_sublist
    have hunits : entries.map (fun e => e.1.unit) = (entries.map Prod.fst).map Link.unit := by
      rw [List.map_map]
      rfl
    rw [hunits]
    refine List.Nodup.map_on ?_ hkeys
    have hlink {link : Link} (h : link ∈ entries.map Prod.fst) : link = ⟨link.unit, kind⟩ := by
      obtain ⟨e, he, rfl⟩ := List.mem_map.1 h
      rw [← (hmem.1 he).2.2]
    intro link h link' h' hunit
    rw [hlink h, hlink h', hunit]
  · simp only [List.mem_map, hmem, List.mem_filter, hnames name hname, true_and, decide_eq_true_eq]
    constructor
    · rintro ⟨e, he, rfl⟩
      exact he.2.1
    · intro hclass
      cases hget : tally.get? ⟨name, kind⟩ with
      | none => simp [hget] at hname
      | some n => exact ⟨(⟨name, kind⟩, n), ⟨hget, hclass, rfl⟩, rfl⟩

end Tally

section

variable {config : ExtractionConfig} {declared : List (EdgeKind × List String)}
  {signature : Option (List (EdgeKind × List String))} {target : String} {kind : EdgeKind}

theorem timesDeclared_eq_zero (h : target ∉ (declared ++ signature.getD []).flatMap (·.2)) :
    timesDeclared config declared signature target kind = 0 := by
  have hparts : ∀ part ∈ declared ++ signature.getD [], target ∉ part.2 :=
    fun part hpart hmem => h (List.mem_flatMap.2 ⟨part, hpart, hmem⟩)
  obtain ⟨hdeclared, hsignature⟩ := List.forall_mem_append.1 hparts
  rw [timesDeclared, timesNamed_eq_zero hdeclared, timesNamed_eq_zero hsignature]
  exact ite_self 0

theorem timesMentioned_eq_timesReduced {tally : Tally}
    (h : ∀ link, (tally.get? link).getD 0 =
      timesDeclared config declared signature link.unit link.kind) :
    timesMentioned tally.toList target kind =
      timesReduced config declared signature target kind := by
  rw [Tally.timesMentioned_toList_eq_sumOf
    (List.nodup_dedup ((declared ++ signature.getD []).flatMap (·.2))), timesReduced]
  · exact sumOf_congr fun name _ => h ⟨name, kind⟩
  · intro name hname
    rw [List.mem_dedup]
    by_contra hnot
    exact hname ((h ⟨name, kind⟩).trans (timesDeclared_eq_zero hnot))

/-- Kinds other than those of the two views do not occur. -/
theorem timesDeclared_eq_zero_of_kind {names : String → List (EdgeKind × List String)}
    {text? : Option String} {p : EdgeKind → Bool} (hdeclared : ∀ part ∈ declared, p part.1 = true)
    (hnames : ∀ text, ∀ part ∈ names text, p part.1 = true) (hkind : p kind = false) :
    timesDeclared config declared (text?.map names) target kind = 0 := by
  have hzero {parts : List (EdgeKind × List String)} (h : ∀ part ∈ parts, p part.1 = true) :
      timesNamed parts target kind = 0 := by
    refine sumOf_eq_zero fun part hpart => if_neg ?_
    rintro rfl
    simp [h part hpart] at hkind
  have hview : ∀ part ∈ (text?.map names).getD [], p part.1 = true := by
    cases text? with
    | none => simp
    | some text => exact hnames text
  rw [timesDeclared, hzero hdeclared, hzero hview]
  exact ite_self 0

/-- Where no name is that of an array, a class is counted under its own name. -/
theorem timesReduced_eq_timesDeclared
    (hplain : AllPlain ((declared ++ signature.getD []).flatMap (·.2))) (ht : target ≠ "") :
    timesReduced config declared signature target kind =
      timesDeclared config declared signature target kind := by
  rw [timesReduced]
  generalize hnames : (declared ++ signature.getD []).flatMap (·.2) = names at hplain
  have hfilter : names.dedup.filter (elementClass? · = some target) =
      names.dedup.filter (· = target) := by
    refine List.filter_congr fun name hname => ?_
    rw [decide_eq_decide]
    exact elementClass?_eq_some_iff (hplain name (List.mem_dedup.1 hname)) ht
  rw [hfilter, List.filter_eq, List.count_dedup]
  split
  · rw [List.replicate_one, sumOf_cons, sumOf_nil, Nat.add_zero]
  · next hnot =>
    rw [List.replicate_zero, sumOf_nil]
    exact (timesDeclared_eq_zero (hnames ▸ hnot)).symm

end

namespace Extract

variable {config : ExtractionConfig} {pool : Pool}

/-- A declaration is counted by the larger number of its two views, name by name. -/
theorem yields_withSignature {declared : List (EdgeKind × List String)}
    {names : String → List (EdgeKind × List String)} {text? : Option String}
    {view : String → Except Malformed Tally}
    (hview : ∀ text tally, view text = .ok tally → tally = .ofNames (names text)) :
    (withSignature config (.ofNames declared) text? view).Yields fun l => ∀ target kind,
      timesMentioned l target kind =
        timesReduced config declared (text?.map names) target kind := by
  unfold withSignature
  cases hsignatures : config.signatures with
  | false =>
    refine yields_pure fun target kind => timesMentioned_eq_timesReduced fun link => ?_
    rw [Tally.getD_ofNames, timesDeclared, hsignatures]
    rfl
  | true =>
    cases text? with
    | none =>
      refine yields_pure fun target kind => timesMentioned_eq_timesReduced fun link => ?_
      rw [Tally.getD_ofNames, timesDeclared, hsignatures]
      exact (Nat.max_zero _).symm
    | some text =>
      refine (yields_ofText _).bind fun tally htally => yields_pure fun target kind =>
        timesMentioned_eq_timesReduced fun link => ?_
      rw [hview text tally htally, Tally.getD_mergeMax, Tally.getD_ofNames, Tally.getD_ofNames,
        timesDeclared, hsignatures]
      rfl

/-- Without the names of arrays this is the larger number of times that a class is named. -/
theorem yields_withSignature_of_plain {declared : List (EdgeKind × List String)}
    {names : String → List (EdgeKind × List String)} {text? : Option String}
    {view : String → Except Malformed Tally}
    (hview : ∀ text tally, view text = .ok tally → tally = .ofNames (names text))
    (hdeclared : ∀ part ∈ declared, AllPlain part.2)
    (hnames : ∀ text, ∀ part ∈ names text, AllPlain part.2) :
    (withSignature config (.ofNames declared) text? view).Yields fun l => ∀ target kind,
      target ≠ "" → timesMentioned l target kind =
        timesDeclared config declared (text?.map names) target kind := by
  refine (yields_withSignature hview).imp fun l hl target kind ht => ?_
  rw [hl target kind, timesReduced_eq_timesDeclared _ ht]
  refine .flatMap (List.forall_mem_append.2 ⟨hdeclared, ?_⟩)
  cases text? with
  | none => simp
  | some text => exact hnames text

theorem classSignatureTally_eq {text : String} {tally : Tally}
    (h : classSignatureTally text = .ok tally) : tally = .ofNames (classSignatureNames text) := by
  obtain ⟨s, hs, h⟩ := exists_of_bind_eq_ok h
  cases h
  rw [classSignatureNames, hs]

theorem fieldSignatureTally_eq {text : String} {tally : Tally}
    (h : fieldSignatureTally text = .ok tally) : tally = .ofNames (fieldSignatureNames text) := by
  obtain ⟨s, hs, h⟩ := exists_of_bind_eq_ok h
  cases h
  rw [fieldSignatureNames, hs]

theorem methodSignatureTally_eq {text : String} {tally : Tally}
    (h : methodSignatureTally text = .ok tally) : tally = .ofNames (methodSignatureNames text) := by
  obtain ⟨s, hs, h⟩ := exists_of_bind_eq_ok h
  cases h
  rw [methodSignatureNames, hs]

end Extract

/-! ## The declarations of a unit -/

section

variable {text : String}

theorem allPlain_fieldSignatureNames : ∀ part ∈ fieldSignatureNames text, AllPlain part.2 := by
  cases h : RefType.parse text with
  | error e => simp [fieldSignatureNames, h]
  | ok s => exact (fieldSignature_view (by rw [h]; rfl)).2

theorem allPlain_methodSignatureNames : ∀ part ∈ methodSignatureNames text, AllPlain part.2 := by
  cases h : MethodSignature.parse text with
  | error e => simp [methodSignatureNames, h]
  | ok s => exact (methodSignature_view (by rw [h]; rfl)).2

theorem allPlain_classSignatureNames : ∀ part ∈ classSignatureNames text, AllPlain part.2 := by
  cases h : ClassSignature.parse text with
  | error e => simp [classSignatureNames, h]
  | ok s => exact (classSignature_view (by rw [h]; rfl)).2

end

section

variable {config : ExtractionConfig} {target : String} {kind : EdgeKind}

theorem ClassFile.timesInherited_eq_zero (c : ClassFile) (h : kind.isInheritance = false) :
    c.timesInherited config target kind = 0 := by
  refine sumOf_eq_zero fun name _ => timesDeclared_eq_zero_of_kind (p := EdgeKind.isInheritance)
    (by simp [EdgeKind.isInheritance]) (fun text => ?_) h
  rw [classSignatureNames]
  split <;> simp [EdgeKind.isInheritance]

theorem Member.timesInField_eq_zero (m : Member) (h : kind.isSignature = false) :
    m.timesInField config target kind = 0 := by
  refine timesDeclared_eq_zero_of_kind (p := EdgeKind.isSignature)
    (by simp [EdgeKind.isSignature]) (fun text => ?_) h
  rw [fieldSignatureNames]
  split <;> simp [EdgeKind.isSignature]

theorem Member.timesInMethod_eq_zero (pool : Pool) (m : Member) (h : kind.isSignature = false) :
    m.timesInMethod config pool target kind = 0 := by
  refine timesDeclared_eq_zero_of_kind (p := EdgeKind.isSignature) ?_ (fun text => ?_) h
  · rw [Member.methodNames]
    split <;> simp [EdgeKind.isSignature]
  · rw [methodSignatureNames]
    split <;> simp [EdgeKind.isSignature]

end

end ClassAtlas
