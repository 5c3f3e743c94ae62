import Mathlib.Data.Finset.Card
import ClassAtlas.Proofs.Analysis.Missing

/-!
# The accounts of a search

A search takes one name after the other from its queue, until the queue is empty. `Search.LooksUp`
says which names it takes and in which state it ends, one name at a time. Such a run exists for any
library and any configuration, and it is the only one; the rounds of `Search.run` come to the same,
although each of them passes over all names at once that cannot be found.

Each name looked up is accounted for once: it is missing, or it failed, or a unit that declares it
was loaded. A name may be missing while the unit found under it is loaded under the name that it
declares.

## Main definitions

* `Search.LooksUp` is a whole search, with the names it looks up.
* `Library.Fails` says that what is found under a name cannot be decoded or extracted.
* `ClosureResult.Accounts` says that a result accounts for the names looked up.

## Main statements

* `Search.looksUp_run`: rounds that end with an empty queue are a whole search.
* `analyzeClosure_accounts`: a search ends, and its result accounts for every name.
-/

namespace ClassAtlas

/-! ## One name at a time -/

namespace Search

/-- Looks one name up. -/
def turn (config : AnalysisConfig) (library : Library) (name : String) (s : Search) : Search :=
  match library.get? name with
  | none => s.note name .absent
  | some bytes => load config name bytes s

theorem turn_none {config : AnalysisConfig} {library : Library} {name : String}
    (h : library.get? name = none) (s : Search) :
    turn config library name s = s.note name .absent := by
  simp only [turn, h]

theorem turn_some {config : AnalysisConfig} {library : Library} {name : String}
    {bytes : List UInt8} (h : library.get? name = some bytes) (s : Search) :
    turn config library name s = load config name bytes s := by
  simp only [turn, h]

/-- The search looks up these names, in order, and ends in the last state with nothing left in the
queue. -/
inductive LooksUp (config : AnalysisConfig) (library : Library) :
    Search → List String → Search → Prop where
  | done {s : Search} : s.queue = [] → LooksUp config library s [] s
  | next {s s' : Search} {name : String} {rest names : List String} :
    s.queue = name :: rest →
    LooksUp config library (turn config library name { s with queue := rest }) names s' →
    LooksUp config library s (name :: names) s'

variable {config : AnalysisConfig} {library : Library} {s s' s'' : Search}
  {names names' : List String}

/-- There is one way to go on. -/
theorem LooksUp.unique (h : LooksUp config library s names s')
    (h' : LooksUp config library s names' s'') : names' = names ∧ s'' = s' := by
  induction h generalizing names' with
  | done hqueue =>
    cases h' with
    | done => exact ⟨rfl, rfl⟩
    | next hqueue' => simp [hqueue] at hqueue'
  | next hqueue _ ih =>
    cases h' with
    | done hqueue' => simp [hqueue] at hqueue'
    | next hqueue' hrest =>
      obtain ⟨rfl, rfl⟩ := List.cons.inj (hqueue.symm.trans hqueue')
      obtain ⟨rfl, rfl⟩ := ih hrest
      exact ⟨rfl, rfl⟩

theorem names_turn (config : AnalysisConfig) (library : Library) (name : String) (s : Search) :
    (turn config library name s).names = name :: s.names := by
  cases hbytes : library.get? name with
  | none =>
    rw [turn_none hbytes]
    rfl
  | some bytes =>
    obtain ⟨finding, hvisits⟩ := visits_load config name bytes s
    rw [turn_some hbytes]
    simp [Search.names, hvisits]

/-- The names looked up are those of the visits that were added. -/
theorem LooksUp.names_eq (h : LooksUp config library s names s') :
    s'.names = names.reverse ++ s.names := by
  induction h with
  | done => rfl
  | next _ _ ih =>
    rw [ih, names_turn]
    simp [Search.names]

/-- Passing over names that cannot be found is looking them up one by one. -/
theorem LooksUp.of_passAbsent (h : LooksUp config library (s.passAbsent library) names s') :
    LooksUp config library s
      ((s.queue.takeWhile fun name => !library.contains name) ++ names) s' := by
  obtain ⟨queue, queued, loaded, visits, cache⟩ := s
  induction queue generalizing visits with
  | nil => simpa [passAbsent] using h
  | cons name rest ih =>
    by_cases hname : library.contains name = true
    · simpa [passAbsent, hname] using h
    · have hnone : library.get? name = none := by simpa [SortedMap.contains] using hname
      have hrest := ih (⟨name, .absent⟩ :: visits) (by simpa [passAbsent, hname] using h)
      rw [List.takeWhile_cons_of_pos (by simpa using hname), List.cons_append]
      refine .next rfl ?_
      rw [turn_none hnone]
      exact hrest

/-- Rounds that end with an empty queue are a whole search. -/
theorem looksUp_run {n : Nat} (hn : (Search.run config library n s).queue = []) :
    ∃ names, LooksUp config library s names (Search.run config library n s) := by
  induction n generalizing s with
  | zero => exact ⟨[], .done hn⟩
  | succ n ih =>
    rw [Search.run] at hn ⊢
    cases hqueue : (s.passAbsent library).queue with
    | nil => exact ⟨_, LooksUp.of_passAbsent (.done hqueue)⟩
    | cons name rest =>
      simp only [hqueue] at hn ⊢
      cases hbytes : library.get? name with
      | none => simp [hbytes, hqueue] at hn
      | some bytes =>
        simp only [hbytes] at hn ⊢
        obtain ⟨names, hnames⟩ := ih hn
        have hnext : LooksUp config library (s.passAbsent library) (name :: names) _ :=
          .next hqueue (by rwa [turn_some hbytes])
        exact ⟨_, hnext.of_passAbsent⟩

/-- A search from a root comes to its end. -/
theorem looksUp_final (config : AnalysisConfig) (library : Library) (root : String) :
    LooksUp config library (start root) (final config library root).names.reverse
      (final config library root) := by
  obtain ⟨names, h⟩ := looksUp_run (traces_final config library root).2
  have hnames : (final config library root).names = names.reverse ++ [] := h.names_eq
  rw [hnames, List.append_nil, List.reverse_reverse]
  exact h

end Search

/-! ## Failures by name -/

/-- Something is found under the name, and it cannot be decoded or its references cannot be
extracted. -/
def Library.Fails (config : ExtractionConfig) (library : Library) (name : String) : Prop :=
  ∃ bytes e, library.get? name = some bytes ∧ extractReferences config name bytes = .error e

/-- The failure of what is found under the name. -/
def Library.failureAt? (config : ExtractionConfig) (library : Library) (name : String) :
    Option UnitFailure :=
  (library.get? name).bind fun bytes => failureOf? config ⟨name, bytes⟩

section

variable {config : ExtractionConfig} {library : Library}

theorem Library.isSome_failureAt? {name : String} :
    (library.failureAt? config name).isSome = true ↔ library.Fails config name := by
  unfold failureAt? Fails
  cases library.get? name with
  | none => simp
  | some bytes =>
    rcases outcomeOf_cases config ⟨name, bytes⟩ with ⟨refs, he, -⟩ | ⟨unit, e, he, -⟩ <;>
      simp [failureOf?, he]

/-- A visit that tells what the library has tells the failure. -/
theorem Visit.Right.failure?_eq {v : Visit} (h : v.Right config library) :
    v.failure? = library.failureAt? config v.name := by
  obtain ⟨name, finding⟩ := v
  cases finding with
  | absent =>
    have hnone : library.get? name = none := h
    simp [Visit.failure?, Library.failureAt?, hnone]
  | failed failure =>
    obtain ⟨bytes, hbytes, hfailure⟩ := h
    simp [Visit.failure?, Library.failureAt?, hbytes, hfailure]
  | loaded refs | known refs =>
    obtain ⟨bytes, hbytes, hrefs⟩ := h
    simp [Visit.failure?, Library.failureAt?, failureOf?, hbytes, hrefs]

end

/-! ## The accounts -/

/-- The result accounts for the names that a search from the root looks up, where these are the
units that it loads. -/
structure ClosureResult.Accounts (result : ClosureResult) (config : AnalysisConfig)
    (library : Library) (root : String) (names : List String) (units : List UnitReferences) :
    Prop where
  /-- No name is looked up twice. -/
  nodup : names.Nodup
  /-- A name other than the root is one that a loaded unit refers to. -/
  origin : ∀ name ∈ names, name = root ∨ ∃ u ∈ units,
    (∃ kind, config.graph.includes kind = true ∧ u.counts.contains ⟨name, kind⟩ = true) ∧
      config.graph.excludes name = false
  missing_iff : ∀ name, name ∈ result.missing ↔
    name ∈ names ∧ library.Lacks config.extraction name
  missing_nodup : result.missing.Nodup
  /-- Each name contributes its failure, if it has one. -/
  failures_perm : result.failures.Perm (names.filterMap (library.failureAt? config.extraction))
  failure_iff : ∀ name, (library.failureAt? config.extraction name).isSome = true ↔
    library.Fails config.extraction name
  /-- What is neither missing nor failed was loaded. -/
  loaded_of : ∀ name ∈ names, ¬ library.Lacks config.extraction name →
    ¬ library.Fails config.extraction name → ∃ u ∈ units, u.unit = name
  /-- What was loaded was found under a name that was looked up. -/
  found : ∀ u ∈ units, ∃ name ∈ names, ∃ bytes, library.get? name = some bytes ∧
    extractReferences config.extraction name bytes = .ok u
  /-- No two loaded units declare one name. -/
  units_nodup : (units.map (·.unit)).Nodup
  loaded_eq : result.loaded = (units.map (·.unit)).toFinset.card
  graph_eq : result.graph = ((GraphBuilder.start config.graph).ingestAll units).finish

namespace Search

variable {config : AnalysisConfig} {library : Library} {root : String} {s : Search}

theorem mem_units {u : UnitReferences} : u ∈ s.units ↔ ∃ name, ⟨name, .loaded u⟩ ∈ s.visits := by
  simp only [units, List.mem_reverse, List.mem_filterMap]
  constructor
  · rintro ⟨⟨name, finding⟩, hv, hu⟩
    cases finding with
    | loaded refs =>
      cases hu
      exact ⟨name, hv⟩
    | absent | failed | known => cases hu
  · rintro ⟨name, hv⟩
    exact ⟨_, hv, rfl⟩

/-- A name whose unit was found to declare it is declared by a loaded unit. -/
theorem Traces.exists_unit (h : s.Traces config library root) {name : String}
    (hname : name ∈ s.names) (hlacks : ¬ library.Lacks config.extraction name)
    (hfails : ¬ library.Fails config.extraction name) : ∃ u ∈ s.units, u.unit = name := by
  obtain ⟨⟨name, finding⟩, hv, rfl⟩ := List.mem_map.1 hname
  have hright := h.right _ hv
  have hdeclares {refs : UnitReferences} (hrefs : ∃ bytes, library.get? name = some bytes ∧
      extractReferences config.extraction name bytes = .ok refs) : refs.unit = name := by
    obtain ⟨bytes, hbytes, hrefs⟩ := hrefs
    by_contra hunit
    exact hlacks (.inr ⟨bytes, refs, hbytes, hrefs, hunit⟩)
  cases finding with
  | absent => exact absurd (.inl hright) hlacks
  | failed failure =>
    have hsome := hright.failure?_eq
    exact absurd (Library.isSome_failureAt?.1 (by rw [← hsome]; rfl)) hfails
  | loaded refs => exact ⟨refs, mem_units.2 ⟨name, hv⟩, hdeclares hright⟩
  | known refs =>
    -- The unit was loaded before, under another name.
    obtain ⟨u, hu, hunit⟩ := (h.loaded_iff refs.unit).1 (h.known name refs hv)
    exact ⟨u, List.mem_reverse.2 hu, hunit.trans (hdeclares hright)⟩

theorem nodup_loadedUnits (config : AnalysisConfig) (library : Library) (root : String) :
    ((loadedUnits config library root).map (·.unit)).Nodup := by
  rw [← units_final, units, List.map_reverse]
  exact List.nodup_reverse.2 (traces_final config library _).1.units_nodup

/-- The failures noted are those of the names looked up. -/
theorem Traces.failures_eq (h : s.Traces config library root) :
    s.visits.filterMap Visit.failure? =
      s.names.filterMap (library.failureAt? config.extraction) := by
  rw [names, List.filterMap_map]
  exact List.filterMap_congr fun v hv => (h.right v hv).failure?_eq

/-- The result of an analysis accounts for the names in the state in which its search ends. -/
theorem accounts_final (config : AnalysisConfig) (library : Library) (root : String) :
    (analyzeClosure config library root).Accounts config library (Name.normalize root)
      (final config library (Name.normalize root)).names.reverse
      (loadedUnits config library root) := by
  have hunits := units_final config library root
  have h := (traces_final config library (Name.normalize root)).1
  constructor
  case nodup => exact List.nodup_reverse.2 (List.nodup_append.1 h.nodup).1
  case origin =>
    intro name hname
    rcases mem_names_final.1 (List.mem_reverse.1 hname) with hroot | hwants
    · exact .inl hroot
    · obtain ⟨earlier, refs, later, hsplit, htarget, -⟩ := hwants
      exact .inr ⟨refs, by simp [hsplit], mem_targets.1 htarget⟩
  case missing_iff =>
    intro name
    rw [mem_missing_iff_final, List.mem_reverse]
  case missing_nodup => exact nodup_sortedDistinct _
  case failures_perm =>
    refine (List.mergeSort_perm _ _).trans ?_
    rw [visitsFrom, List.filterMap_reverse, List.filterMap_reverse, ← h.failures_eq]
    rfl
  case failure_iff => exact fun _ => Library.isSome_failureAt?
  case loaded_of =>
    intro name hname hlacks hfails
    rw [← hunits]
    exact h.exists_unit (List.mem_reverse.1 hname) hlacks hfails
  case found =>
    intro u hu
    obtain ⟨name, hv⟩ := mem_units.1 (hunits ▸ hu)
    obtain ⟨bytes, hbytes, hrefs⟩ := h.right _ hv
    exact ⟨name, List.mem_reverse.2 (List.mem_map_of_mem hv), bytes, hbytes, hrefs⟩
  case units_nodup => exact nodup_loadedUnits config library root
  case loaded_eq =>
    rw [List.toFinset_card_of_nodup (nodup_loadedUnits config library root), List.length_map]
    rfl
  case graph_eq => rfl

end Search

/-- For any library and any configuration a search ends after finitely many look-ups, in one way,
and the result of the analysis accounts for the names looked up. -/
theorem analyzeClosure_accounts (config : AnalysisConfig) (library : Library) (root : String) :
    ∃ names final,
      Search.LooksUp config library (.start (Name.normalize root)) names final ∧
      (∀ names' final', Search.LooksUp config library (.start (Name.normalize root)) names' final' →
        names' = names ∧ final' = final) ∧
      analyzeClosure config library root =
        .ofVisits config.graph (Name.normalize root) final.visits.reverse ∧
      (analyzeClosure config library root).Accounts config library (Name.normalize root) names
        final.units := by
  have hlooks := Search.looksUp_final config library (Name.normalize root)
  have haccounts := Search.accounts_final config library root
  rw [← Search.units_final] at haccounts
  exact ⟨_, _, hlooks, fun names' final' h' => hlooks.unique h', rfl, haccounts⟩

-- The class `A` extends `C`, which is absent, and has a field of type `B`, whose class file is cut
-- off.
example :
    let bytes : List UInt8 := [0xCA, 0xFE, 0xBA, 0xBE, 0, 0, 0, 52, 0, 7, 1, 0, 1, 65, 7, 0, 1,
      1, 0, 1, 67, 7, 0, 3, 1, 0, 1, 102, 1, 0, 3, 76, 66, 59, 0, 0x21, 0, 2, 0, 4, 0, 0,
      0, 1, 0, 0, 0, 5, 0, 6, 0, 0, 0, 0, 0, 0]
    let library : Library := SortedMap.ofList [("A", bytes), ("B", [0xCA])]
    let visits := Search.visitsFrom .default library "A"
    visits.map Visit.name = ["A", "B", "C"] ∧
      (visits.filterMap Visit.failure?).map UnitFailure.unit = ["B"] ∧
      (analyzeClosure .default library "A").missing = ["C"] ∧
      (analyzeClosure .default library "A").loaded = 1 := by
  decide +kernel

end ClassAtlas
