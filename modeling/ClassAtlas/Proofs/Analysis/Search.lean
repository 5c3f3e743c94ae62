import Mathlib.Logic.Relation
import ClassAtlas.Analysis.Closure
import ClassAtlas.Proofs.Analysis.Scheduling

/-!
# The search from a root

A search looks names up, one after the other, and queues what the units found refer to. The
invariant `Search.Traces` relates a search in progress to the library: each visit tells what the
library has under its name, no name is looked up or queued twice, what the loaded units refer to is
queued, and nothing else is. Each step of a search preserves it, so it holds when the search ends;
and a search ends with an empty queue, because each round looks up another name of the library.

## Main definitions

* `Visit.Right` says that a visit tells what the library has.
* `Search.Leads` relates a loaded unit to the names it refers to.
* `Search.Wants` says that a unit refers to a name that no unit loaded up to it declares.
* `Search.Traces` is the invariant of a search.
-/

namespace ClassAtlas

/-- The visit tells what the library has under the name. -/
def Visit.Right (config : ExtractionConfig) (library : Library) (v : Visit) : Prop :=
  match v.finding with
  | .absent => library.get? v.name = none
  | .failed failure => ∃ bytes, library.get? v.name = some bytes ∧
      failureOf? config ⟨v.name, bytes⟩ = some failure
  | .loaded refs | .known refs => ∃ bytes, library.get? v.name = some bytes ∧
      extractReferences config v.name bytes = .ok refs

namespace Search

open Relation

/-! ## Queueing -/

/-- The names already looked up. -/
def names (s : Search) : List String := s.visits.map Visit.name

/-- Queueing names puts the new ones at the end, each once. -/
theorem foldl_enqueue (l : List String) (s : Search) :
    ∃ fresh queued, l.foldl enqueue s = { s with queue := s.queue ++ fresh, queued } ∧
      fresh.Nodup ∧ (∀ name ∈ fresh, name ∈ l ∧ s.queued.contains name = false) ∧
      (∀ name ∈ l, s.queued.contains name = true ∨ name ∈ fresh) ∧
      ∀ name, queued.contains name = true ↔ s.queued.contains name = true ∨ name ∈ fresh := by
  induction l generalizing s with
  | nil => exact ⟨[], s.queued, by simp, by simp, by simp, by simp, by simp⟩
  | cons first l ih =>
    rw [List.foldl_cons, enqueue]
    by_cases hq : s.queued.contains first = true
    · rw [if_pos hq]
      obtain ⟨fresh, queued, heq, hnodup, hnew, hall, hqueued⟩ := ih s
      refine ⟨fresh, queued, heq, hnodup, ?_, ?_, hqueued⟩
      · intro name hname
        exact ⟨List.mem_cons_of_mem first (hnew name hname).1, (hnew name hname).2⟩
      · intro name hname
        rcases List.mem_cons.1 hname with rfl | hname
        · exact .inl hq
        · exact hall name hname
    · rw [if_neg hq]
      obtain ⟨fresh, queued, heq, hnodup, hnew, hall, hqueued⟩ :=
        ih { s with queue := s.queue ++ [first], queued := s.queued.add first }
      simp only [← Bool.not_eq_true, SortedSet.contains_add, not_or] at hnew hall hqueued hq ⊢
      refine ⟨first :: fresh, queued, by simp [heq], ?_, ?_, ?_, ?_⟩
      · exact List.nodup_cons.2 ⟨fun h => (hnew first h).2.1 rfl, hnodup⟩
      · intro name hname
        rcases List.mem_cons.1 hname with rfl | hname
        · exact ⟨List.mem_cons_self, hq⟩
        · exact ⟨List.mem_cons_of_mem first (hnew name hname).1, (hnew name hname).2.2⟩
      · intro name hname
        rcases List.mem_cons.1 hname with rfl | hname
        · exact .inr List.mem_cons_self
        · have := hall name hname
          rw [List.mem_cons]
          tauto
      · intro name
        rw [hqueued, List.mem_cons]
        tauto

theorem mem_targets {config : GraphConfig} {refs : UnitReferences} {name : String} :
    name ∈ targets config refs ↔
      (∃ kind, config.includes kind = true ∧ refs.counts.contains ⟨name, kind⟩ = true) ∧
        config.excludes name = false := by
  simp only [targets, mem_sortedDistinct, List.mem_filter, List.mem_map, SortedMap.mem_keys,
    Bool.not_eq_true']
  refine and_congr_left fun _ => ⟨?_, ?_⟩
  · rintro ⟨link, ⟨hlink, hkind⟩, rfl⟩
    exact ⟨link.kind, hkind, hlink⟩
  · rintro ⟨kind, hkind, hlink⟩
    exact ⟨⟨name, kind⟩, ⟨hlink, hkind⟩, rfl⟩

/-- The units loaded so far, in order. -/
def units (s : Search) : List UnitReferences := (s.visits.filterMap Visit.loaded?).reverse

/-- Among units in the order in which they are loaded, one refers to the name, and neither it nor
any before it declares the name. -/
def Wants (config : GraphConfig) (units : List UnitReferences) (name : String) : Prop :=
  ∃ earlier refs later, units = earlier ++ refs :: later ∧ name ∈ targets config refs ∧
    ∀ u ∈ earlier ++ [refs], u.unit ≠ name

theorem wants_append_singleton {config : GraphConfig} {units : List UnitReferences}
    {refs : UnitReferences} {name : String} :
    Wants config (units ++ [refs]) name ↔ Wants config units name ∨
      name ∈ targets config refs ∧ ∀ u ∈ units ++ [refs], u.unit ≠ name := by
  constructor
  · rintro ⟨earlier, refs', later, hunits, hname, hearlier⟩
    rcases List.eq_nil_or_concat' later with rfl | ⟨later, last, rfl⟩
    · obtain ⟨rfl, hrefs⟩ := List.append_inj' hunits rfl
      cases hrefs
      exact .inr ⟨hname, hearlier⟩
    · rw [← List.cons_append, ← List.append_assoc] at hunits
      obtain ⟨rfl, -⟩ := List.append_inj' hunits rfl
      exact .inl ⟨earlier, refs', later, rfl, hname, hearlier⟩
  · rintro (⟨earlier, refs', later, rfl, hname, hearlier⟩ | ⟨hname, hunits⟩)
    · exact ⟨earlier, refs', later ++ [refs], by simp, hname, hearlier⟩
    · exact ⟨units, refs, [], rfl, hname, hunits⟩

/-! ## The invariant -/

/-- A unit was loaded under the first name, and it refers to the second. -/
def Leads (config : GraphConfig) (s : Search) (a b : String) : Prop :=
  ∃ refs, ⟨a, .loaded refs⟩ ∈ s.visits ∧ b ∈ targets config refs

/-- The invariant: a search tells what the library has, and follows all references once. -/
structure Traces (config : AnalysisConfig) (library : Library) (root : String) (s : Search) :
    Prop where
  sound : s.cache.Sound
  nodup : (s.names ++ s.queue).Nodup
  right : ∀ v ∈ s.visits, v.Right config.extraction library
  /-- The declared names of the loaded units. -/
  loaded_iff : ∀ name, s.loaded.contains name = true ↔
    ∃ refs ∈ s.visits.filterMap Visit.loaded?, refs.unit = name
  /-- No two loaded units declare one name. -/
  units_nodup : ((s.visits.filterMap Visit.loaded?).map (·.unit)).Nodup
  known : ∀ name refs, ⟨name, .known refs⟩ ∈ s.visits → s.loaded.contains refs.unit = true
  queued_iff : ∀ name, s.queued.contains name = true ↔
    name ∈ s.names ∨ name ∈ s.queue ∨ s.loaded.contains name = true
  root_queued : s.queued.contains root = true
  closed : ∀ a b, s.Leads config.graph a b → s.queued.contains b = true
  origin : ∀ name, name ∈ s.names ∨ name ∈ s.queue → ReflTransGen (s.Leads config.graph) root name
  /-- A name that a loaded unit declares is not looked up on account of a later reference. -/
  asked : ∀ name, name ∈ s.names ∨ name ∈ s.queue ↔ name = root ∨ Wants config.graph s.units name

variable {config : AnalysisConfig} {library : Library} {root : String} {s : Search}

theorem traces_start (config : AnalysisConfig) (library : Library) (root : String) :
    (start root).Traces config library root where
  sound := DescriptorCache.sound_empty
  nodup := by simp [start, names]
  right := by simp [start]
  loaded_iff := by simp [start]
  units_nodup := by simp [start]
  known := by simp [start]
  queued_iff := by simp [start, SortedSet.contains_ofElements, names]
  root_queued := by simp [start, SortedSet.contains_ofElements]
  closed := by simp [start, Leads]
  origin name h := by
    obtain rfl : name = root := by simpa [start, names] using h
    exact .refl
  asked := by simp [start, names, units, Wants]

/-! ## Steps -/

theorem Leads.mono {config : GraphConfig} {s s' : Search} (h : s.visits ⊆ s'.visits)
    {a b : String} (hab : s.Leads config a b) : s'.Leads config a b := by
  obtain ⟨refs, hv, hb⟩ := hab
  exact ⟨refs, h hv, hb⟩

/-- A name that gives no new unit leaves the queue and is noted. -/
theorem Traces.skip (h : s.Traces config library root) {name : String} {rest : List String}
    (hqueue : s.queue = name :: rest) {finding : Finding}
    (hright : Visit.Right config.extraction library ⟨name, finding⟩)
    (hnew : ∀ refs, finding ≠ .loaded refs)
    (hknown : ∀ refs, finding = .known refs → s.loaded.contains refs.unit = true)
    {cache : DescriptorCache} (hsound : cache.Sound) :
    Traces config library root
      { s with queue := rest, visits := ⟨name, finding⟩ :: s.visits, cache } := by
  have hloaded : Visit.loaded? ⟨name, finding⟩ = none := by
    cases finding with
    | loaded refs => exact absurd rfl (hnew refs)
    | absent | failed | known => rfl
  have hleads (a b : String) : Leads config.graph
      { s with queue := rest, visits := ⟨name, finding⟩ :: s.visits, cache } a b ↔
        s.Leads config.graph a b := by
    refine ⟨?_, Leads.mono (List.subset_cons_self _ _)⟩
    rintro ⟨refs, hv, hb⟩
    rcases List.mem_cons.1 hv with heq | hv
    · cases heq
      exact absurd rfl (hnew refs)
    · exact ⟨refs, hv, hb⟩
  have hmem (a : String) : (a ∈ name :: s.names ∨ a ∈ rest) ↔ (a ∈ s.names ∨ a ∈ s.queue) := by
    rw [hqueue, List.mem_cons, List.mem_cons]
    tauto
  have hunits : units { s with queue := rest, visits := ⟨name, finding⟩ :: s.visits, cache } =
      s.units := by
    simp [units, hloaded]
  refine ⟨hsound, ?_, ?_, ?_, ?_, ?_, ?_, h.root_queued, ?_, ?_, ?_⟩
  · have hperm : (name :: s.names ++ rest).Perm (s.names ++ s.queue) := by
      rw [hqueue]
      exact List.perm_middle.symm
    exact hperm.nodup_iff.2 h.nodup
  · rintro v (_ | ⟨_, hv⟩)
    · exact hright
    · exact h.right v hv
  · simpa [hloaded] using h.loaded_iff
  · simpa [hloaded] using h.units_nodup
  · intro a refs hv
    rcases List.mem_cons.1 hv with heq | hv
    · cases heq
      exact hknown refs rfl
    · exact h.known a refs hv
  · intro a
    have hq := h.queued_iff a
    rw [← or_assoc, ← hmem, or_assoc] at hq
    exact hq
  · intro a b hab
    exact h.closed a b ((hleads a b).1 hab)
  · intro a ha
    exact ReflTransGen.mono (fun _ _ hab => (hleads _ _).2 hab) _ _ (h.origin a ((hmem a).1 ha))
  · intro a
    rw [hunits, ← h.asked a]
    exact hmem a

/-- A name that gives a new unit leaves the queue, and what the unit refers to is queued. -/
theorem Traces.admit (h : s.Traces config library root) {name : String} {rest : List String}
    (hqueue : s.queue = name :: rest) {refs : UnitReferences}
    (hright : Visit.Right config.extraction library ⟨name, .loaded refs⟩)
    (hnew : s.loaded.contains refs.unit = false) {cache : DescriptorCache}
    (hsound : cache.Sound) :
    Traces config library root ((targets config.graph refs).foldl enqueue
      { s with
        queue := rest
        queued := s.queued.add refs.unit
        loaded := s.loaded.add refs.unit
        visits := ⟨name, .loaded refs⟩ :: s.visits
        cache }) := by
  obtain ⟨fresh, queued, heq, hnodup, hfresh, hall, hqueued⟩ := foldl_enqueue
    (targets config.graph refs) { s with
        queue := rest
        queued := s.queued.add refs.unit
        loaded := s.loaded.add refs.unit
        visits := ⟨name, .loaded refs⟩ :: s.visits
        cache }
  rw [heq]
  simp only [← Bool.not_eq_true, SortedSet.contains_add, not_or] at hfresh hall hqueued
  have hmem (a : String) : (a ∈ name :: s.names ∨ a ∈ rest) ↔ (a ∈ s.names ∨ a ∈ s.queue) := by
    rw [hqueue, List.mem_cons, List.mem_cons]
    tauto
  have hperm : (name :: s.names ++ rest).Perm (s.names ++ s.queue) := by
    rw [hqueue]
    exact List.perm_middle.symm
  have hold : s.visits ⊆ ⟨name, .loaded refs⟩ :: s.visits := List.subset_cons_self _ _
  refine ⟨hsound, ?_, ?_, ?_, ?_, ?_, ?_, ?_, ?_, ?_, ?_⟩
  · show (name :: s.names ++ (rest ++ fresh)).Nodup
    rw [← List.append_assoc, List.nodup_append]
    refine ⟨hperm.nodup_iff.2 h.nodup, hnodup, fun a ha b hb hab => ?_⟩
    subst hab
    have ha' := (hmem a).1 (List.mem_append.1 ha)
    exact (hfresh a hb).2.2 ((h.queued_iff a).2 (by tauto))
  · rintro v (_ | ⟨_, hv⟩)
    · exact hright
    · exact h.right v hv
  · intro a
    have hcomm : a = refs.unit ↔ refs.unit = a := eq_comm
    rw [SortedSet.contains_add, h.loaded_iff]
    simp [Visit.loaded?, hcomm]
  · simp only [List.filterMap_cons, Visit.loaded?, List.map_cons, List.nodup_cons]
    refine ⟨fun hm => ?_, h.units_nodup⟩
    obtain ⟨u, hu, heq⟩ := List.mem_map.1 hm
    have := (h.loaded_iff refs.unit).2 ⟨u, hu, heq⟩
    simp [hnew] at this
  · intro a refs' hv
    rcases List.mem_cons.1 hv with heq | hv
    · cases heq
    · exact (SortedSet.contains_add _ _ _).2 (.inr (h.known a refs' hv))
  · intro a
    show queued.contains a = true ↔
      a ∈ name :: s.names ∨ a ∈ rest ++ fresh ∨ (s.loaded.add refs.unit).contains a = true
    rw [hqueued, SortedSet.contains_add, h.queued_iff, List.mem_append,
      ← or_assoc (a := a ∈ s.names), ← hmem]
    grind
  · exact (hqueued root).2 (.inl (.inr h.root_queued))
  · rintro a b ⟨refs', hv, hb⟩
    show queued.contains b = true
    rw [hqueued]
    rcases List.mem_cons.1 hv with heq | hv
    · cases heq
      exact hall b hb
    · exact .inl (.inr (h.closed a b ⟨refs', hv, hb⟩))
  · intro a ha
    have hstep {a : String} (ha : a ∈ s.names ∨ a ∈ s.queue) : ReflTransGen (Leads config.graph
        { s with
          queue := rest ++ fresh
          queued
          loaded := s.loaded.add refs.unit
          visits := ⟨name, .loaded refs⟩ :: s.visits
          cache }) root a :=
      ReflTransGen.mono (fun _ _ hab => hab.mono hold) _ _ (h.origin a ha)
    have ha' : (a ∈ s.names ∨ a ∈ s.queue) ∨ a ∈ fresh := by
      rw [← hmem, or_assoc, ← List.mem_append]
      exact ha
    rcases ha' with ha | ha
    · exact hstep ha
    · exact (hstep (.inr (by simp [hqueue]))).tail ⟨refs, List.mem_cons_self, (hfresh a ha).1⟩
  · intro a
    show a ∈ name :: s.names ∨ a ∈ rest ++ fresh ↔
      a = root ∨ Wants config.graph (units { s with visits := ⟨name, .loaded refs⟩ :: s.visits }) a
    have hunits : units { s with visits := ⟨name, .loaded refs⟩ :: s.visits } =
        s.units ++ [refs] := by
      simp [units, Visit.loaded?]
    -- The new names are those that the unit refers to, unless they were declared or queued.
    have hdeclared : (∀ u ∈ s.units ++ [refs], u.unit ≠ a) ↔
        ¬ s.loaded.contains a = true ∧ a ≠ refs.unit := by
      rw [h.loaded_iff]
      simp only [units, List.mem_append, List.mem_reverse, List.mem_singleton]
      grind
    have hqueued := h.queued_iff a
    have hasked := h.asked a
    rw [hunits, wants_append_singleton, hdeclared, List.mem_append, ← or_assoc, hmem,
      ← or_assoc (a := a = root), ← hasked]
    grind

/-! ## Rounds -/

/-- Passing over names that the library does not have preserves the invariant. -/
theorem Traces.passAbsent (h : s.Traces config library root) :
    (s.passAbsent library).Traces config library root := by
  obtain ⟨queue, queued, loaded, visits, cache⟩ := s
  induction queue generalizing visits with
  | nil => simpa [Search.passAbsent] using h
  | cons name rest ih =>
    by_cases hname : library.contains name = true
    · simpa [Search.passAbsent, hname] using h
    · have hnone : library.get? name = none := by simpa [SortedMap.contains] using hname
      have hright : Visit.Right config.extraction library ⟨name, .absent⟩ := hnone
      have hskip := h.skip rfl hright (by simp) (by simp) h.sound
      simpa [Search.passAbsent, hname] using ih _ hskip

/-- Looking at the unit found under the next name preserves the invariant. -/
theorem Traces.load (h : s.Traces config library root) {name : String} {rest : List String}
    (hqueue : s.queue = name :: rest) {bytes : List UInt8}
    (hbytes : library.get? name = some bytes) :
    (Search.load config name bytes { s with queue := rest }).Traces config library root := by
  obtain ⟨hr, hs⟩ := processUnit_eq config.extraction name bytes h.sound
  rcases hp : processUnit config.extraction name bytes s.cache with ⟨outcome, cache⟩
  rw [hp] at hr hs
  have hextract : extractReferences config.extraction name bytes =
      outcome.mapError fun p => .decode p.1 p.2 := by rw [extractReferences, ← hr]
  cases outcome with
  | error e =>
    have hright : Visit.Right config.extraction library ⟨name, .failed (.ofError e.1 e.2)⟩ :=
      ⟨bytes, hbytes, by simp [failureOf?, hextract, Except.mapError, UnitFailure.ofError]⟩
    simpa [Search.load, hp, note] using h.skip hqueue hright (by simp) (by simp) hs
  | ok refs =>
    have hfound : ∃ bytes, library.get? name = some bytes ∧
        extractReferences config.extraction name bytes = .ok refs := ⟨bytes, hbytes, hextract⟩
    cases hnew : s.loaded.contains refs.unit with
    | true =>
      have hright : Visit.Right config.extraction library ⟨name, .known refs⟩ := hfound
      have hskip := h.skip hqueue hright (by simp) (by simp [hnew]) hs
      simpa [Search.load, hp, hnew, note] using hskip
    | false =>
      have hadmit := h.admit hqueue hfound hnew hs
      simpa [Search.load, hp, hnew, note] using hadmit

/-- How many names of the library were looked up. -/
def foundCount (library : Library) (s : Search) : Nat :=
  (s.visits.filter fun v => library.contains v.name).length

theorem Traces.foundCount_le (h : s.Traces config library root) :
    s.foundCount library ≤ library.size := by
  have hnodup : ((s.visits.filter fun v => library.contains v.name).map Visit.name).Nodup :=
    (List.nodup_append.1 h.nodup).1.sublist (List.filter_sublist.map _)
  have hsub : ((s.visits.filter fun v => library.contains v.name).map Visit.name) ⊆
      library.keys := by
    intro name hname
    obtain ⟨v, hv, rfl⟩ := List.mem_map.1 hname
    exact SortedMap.mem_keys.2 (List.mem_filter.1 hv).2
  simpa [foundCount, SortedMap.size, SortedMap.keys] using (hnodup.subperm hsub).length_le

theorem foundCount_passAbsent (s : Search) (library : Library) :
    (s.passAbsent library).foundCount library = s.foundCount library := by
  have hnone : (s.queue.takeWhile fun name => !library.contains name).filter
      (fun name => library.contains name) = [] := by
    refine List.filter_eq_nil_iff.2 fun name hname => ?_
    simpa using List.all_eq_true.1 List.all_takeWhile name hname
  simp [foundCount, passAbsent, List.filter_map, Function.comp_def, hnone]

theorem visits_load (config : AnalysisConfig) (name : String) (bytes : List UInt8) (s : Search) :
    ∃ finding, (Search.load config name bytes s).visits = ⟨name, finding⟩ :: s.visits := by
  rcases hp : processUnit config.extraction name bytes s.cache with ⟨outcome, cache⟩
  cases outcome with
  | error e => exact ⟨.failed (.ofError e.1 e.2), by simp [Search.load, hp, note]⟩
  | ok refs =>
    cases hnew : s.loaded.contains refs.unit with
    | true => exact ⟨.known refs, by simp [Search.load, hp, hnew, note]⟩
    | false =>
      refine ⟨.loaded refs, ?_⟩
      simp only [Search.load, hp, note, hnew, Bool.false_eq_true, if_false]
      obtain ⟨_, _, heq, _⟩ := foldl_enqueue (targets config.graph refs) _
      rw [heq]

/-- A search with a round left for each name of the library ends with an empty queue, and the
invariant holds then. -/
theorem Traces.run (h : s.Traces config library root) {n : Nat}
    (hn : n + s.foundCount library = library.size + 1) :
    (Search.run config library n s).Traces config library root ∧
      (Search.run config library n s).queue = [] := by
  induction n generalizing s with
  | zero =>
    have := h.foundCount_le
    omega
  | succ n ih =>
    have hpass := h.passAbsent
    have hcount := foundCount_passAbsent s library
    rw [Search.run]
    cases hqueue : (s.passAbsent library).queue with
    | nil => exact ⟨hpass, hqueue⟩
    | cons name rest =>
      -- The first name that is left in the queue is one that the library has.
      have hhead : library.contains name = true := by
        have := List.head?_dropWhile_not (fun name => !library.contains name) s.queue
        simpa [show s.queue.dropWhile (fun name => !library.contains name) = name :: rest from
          hqueue]
          using this
      obtain ⟨bytes, hbytes⟩ := Option.isSome_iff_exists.1 hhead
      obtain ⟨finding, hvisits⟩ :=
        visits_load config name bytes { s.passAbsent library with queue := rest }
      have hload := hpass.load hqueue hbytes
      simp only [hbytes]
      refine ih hload ?_
      simp only [foundCount, hvisits, List.filter_cons, hhead, if_true, List.length_cons] at *
      omega

/-- The state in which a search ends. -/
def final (config : AnalysisConfig) (library : Library) (root : String) : Search :=
  Search.run config library (library.size + 1) (start root)

theorem traces_final (config : AnalysisConfig) (library : Library) (root : String) :
    (final config library root).Traces config library root ∧
      (final config library root).queue = [] :=
  (traces_start config library root).run rfl

end Search

end ClassAtlas
