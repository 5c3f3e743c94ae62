import ClassAtlas.Proofs.Analysis.Search

/-!
# Missing names

A name is missing if the library has no unit of that name: nothing is found under it, or a unit that
declares another one. A search reports the missing names among those that it looks up, and a name
that some loaded unit declares is not looked up any more. If that unit was found under another name,
a later reference to the name it declares is not reported, although the library has no unit of this
name; an earlier one is.

## Main definitions

* `Library.Lacks` says that the library has no unit of a name.
* `loadedUnits` are the units that a search loads, in order.

## Main statements

* `mem_missing_iff` describes the missing names that a search reports.
-/

namespace ClassAtlas

/-- Nothing is found under the name, or a unit that declares another one. -/
def Library.Lacks (config : ExtractionConfig) (library : Library) (name : String) : Prop :=
  library.get? name = none ∨ ∃ bytes refs, library.get? name = some bytes ∧
    extractReferences config name bytes = .ok refs ∧ refs.unit ≠ name

instance (config : ExtractionConfig) (library : Library) (name : String) :
    Decidable (library.Lacks config name) :=
  match hbytes : library.get? name with
  | none => isTrue (.inl hbytes)
  | some bytes =>
    match hrefs : extractReferences config name bytes with
    | .error _ => isFalse (by simp [Library.Lacks, hbytes, hrefs])
    | .ok refs =>
      if hunit : refs.unit = name then isFalse (by simp [Library.Lacks, hbytes, hrefs, hunit])
      else isTrue (.inr ⟨bytes, refs, hbytes, hrefs, hunit⟩)

/-- The units that an analysis from a root loads, in order. -/
def loadedUnits (config : AnalysisConfig) (library : Library) (root : String) :
    List UnitReferences :=
  (Search.visitsFrom config library (Name.normalize root)).filterMap Visit.loaded?

variable {config : AnalysisConfig} {library : Library} {root : String}

/-- A visit that tells what the library has tells whether it lacks the name. -/
theorem Visit.Right.isMissing_iff {config : ExtractionConfig} {v : Visit}
    (h : v.Right config library) : v.isMissing = true ↔ library.Lacks config v.name := by
  obtain ⟨name, finding⟩ := v
  have hfound {refs : UnitReferences} (hrefs : ∃ bytes, library.get? name = some bytes ∧
      extractReferences config name bytes = .ok refs) :
      refs.unit ≠ name ↔ library.Lacks config name := by
    obtain ⟨bytes, hbytes, hrefs⟩ := hrefs
    simp [Library.Lacks, hbytes, hrefs]
  cases finding with
  | absent => exact ⟨fun _ => .inl h, fun _ => rfl⟩
  | failed failure =>
    obtain ⟨bytes, hbytes, hfailure⟩ := h
    constructor
    · intro hmissing
      cases hmissing
    · rintro (hnone | ⟨bytes', refs, hbytes', hrefs, -⟩)
      · cases hbytes.symm.trans hnone
      · cases hbytes.symm.trans hbytes'
        simp [failureOf?, hrefs] at hfailure
  | loaded refs | known refs => exact decide_eq_true_iff.trans (hfound h)

theorem Search.units_final (config : AnalysisConfig) (library : Library) (root : String) :
    (final config library (Name.normalize root)).units = loadedUnits config library root := by
  rw [units, loadedUnits, ← List.filterMap_reverse]
  rfl

/-- A missing name that a search reports is one that it looked up and that the library lacks. -/
theorem mem_missing_iff_final {name : String} :
    name ∈ (analyzeClosure config library root).missing ↔
      name ∈ (Search.final config library (Name.normalize root)).names ∧
        library.Lacks config.extraction name := by
  have hright := (Search.traces_final config library (Name.normalize root)).1.right
  have hmissing : (analyzeClosure config library root).missing = sortedDistinct
      (((Search.final config library (Name.normalize root)).visits.reverse.filter
        Visit.isMissing).map Visit.name) := rfl
  rw [hmissing, mem_sortedDistinct, Search.names]
  simp only [List.mem_map, List.mem_filter, List.mem_reverse]
  constructor
  · rintro ⟨v, ⟨hv, hlacks⟩, rfl⟩
    exact ⟨⟨v, hv, rfl⟩, (hright v hv).isMissing_iff.1 hlacks⟩
  · rintro ⟨⟨v, hv, rfl⟩, hlacks⟩
    exact ⟨v, ⟨hv, (hright v hv).isMissing_iff.2 hlacks⟩, rfl⟩

/-- The names that a search looks up. -/
theorem Search.mem_names_final {name : String} :
    name ∈ (final config library (Name.normalize root)).names ↔ name = Name.normalize root ∨
      Wants config.graph (loadedUnits config library root) name := by
  obtain ⟨htraces, hqueue⟩ := traces_final config library (Name.normalize root)
  rw [← units_final, ← htraces.asked, hqueue]
  simp

/-- Where no unit declares the name, the order of the units does not matter. -/
theorem Search.wants_iff {config : GraphConfig} {units : List UnitReferences} {name : String}
    (h : ∀ u ∈ units, u.unit ≠ name) :
    Wants config units name ↔ ∃ u ∈ units, name ∈ targets config u := by
  constructor
  · rintro ⟨earlier, refs, later, rfl, hname, -⟩
    exact ⟨refs, by simp, hname⟩
  · rintro ⟨u, hu, hname⟩
    obtain ⟨earlier, later, rfl⟩ := List.append_of_mem hu
    refine ⟨earlier, u, later, rfl, hname, fun v hv => h v ?_⟩
    simp only [List.mem_append, List.mem_cons, List.not_mem_nil, or_false] at hv ⊢
    tauto

open Search

/-- The missing names are those that the library lacks among the root and the names that the loaded
units refer to, except for a name that is declared by a unit loaded no later than the first one that
refers to it. For a name that no loaded unit declares, there is no such exception. -/
theorem mem_missing_iff (config : AnalysisConfig) (library : Library) (root name : String) :
    (name ∈ (analyzeClosure config library root).missing ↔
      library.Lacks config.extraction name ∧ (name = Name.normalize root ∨
        Wants config.graph (loadedUnits config library root) name)) ∧
    ((∀ u ∈ loadedUnits config library root, u.unit ≠ name) →
      (name ∈ (analyzeClosure config library root).missing ↔
        library.Lacks config.extraction name ∧ (name = Name.normalize root ∨
          ∃ u ∈ loadedUnits config library root, name ∈ targets config.graph u))) := by
  have hiff : name ∈ (analyzeClosure config library root).missing ↔
      library.Lacks config.extraction name ∧ (name = Name.normalize root ∨
        Wants config.graph (loadedUnits config library root) name) := by
    rw [mem_missing_iff_final, mem_names_final, and_comm]
  refine ⟨hiff, fun hnone => ?_⟩
  rw [hiff, wants_iff hnone]

/-- The class file of a class and its superclass, both with names of one letter. -/
def extending (name parent : UInt8) : List UInt8 :=
  [0xCA, 0xFE, 0xBA, 0xBE, 0, 0, 0, 52, 0, 5, 1, 0, 1, name, 7, 0, 1, 1, 0, 1, parent, 7, 0, 3,
    0, 0x21, 0, 2, 0, 4, 0, 0, 0, 0, 0, 0, 0, 0]

/-- The class `X` is found under the name `R` only, and its superclass `C` extends it. -/
def Library.misnamed : Library :=
  SortedMap.ofList [("R", extending 88 67), ("C", extending 67 88)]

/-- The root is missing, because the unit found under its name declares another one. -/
theorem mem_missing_iff_root : "R" ∈ (analyzeClosure .default .misnamed "R").missing := by
  have hnone : ∀ u ∈ loadedUnits .default .misnamed "R", u.unit ≠ "R" := by decide +kernel
  have hlacks : Library.misnamed.Lacks AnalysisConfig.default.extraction "R" := by decide +kernel
  exact ((mem_missing_iff .default .misnamed "R" "R").2 hnone).2 ⟨hlacks, .inl (by decide)⟩

/-- A loaded unit refers to a name that the library lacks, and the name is not reported. -/
theorem exists_unreported_missing :
    Library.misnamed.Lacks AnalysisConfig.default.extraction "X" ∧
      (∃ u ∈ loadedUnits .default .misnamed "R",
        "X" ∈ targets AnalysisConfig.default.graph u) ∧
      "X" ∉ (analyzeClosure .default .misnamed "R").missing := by
  decide +kernel

end ClassAtlas
