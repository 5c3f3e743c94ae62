import Mathlib.Data.List.Sort
import ClassAtlas.Graph.Topological
import ClassAtlas.Proofs.Graph.Readiness

/-!
# The order of dependencies is repeated choice

The order is computed with a number for each unlisted unit, of the distinct units that it still
waits for. Listing a unit lowers the number of each distinct unit that refers to it. That gives
repeated choice of the smallest ready unit, since in a consistent graph the units that refer to a
unit are just those that wait for it: no number is lowered below zero, and it is zero exactly if the
unit is ready.

## Main definitions

* `Graph.topologicalOrder?` is the computation with every decrement checked.
* `Graph.Tracks` is the invariant: the numbers are those of the units that are waited for.

## Main results

* `Graph.Tracks.step`: listing a unit preserves the invariant.
* `Graph.Consistent.dependenciesFirst_topologicalOrder_iff`: the order has all dependencies first
  exactly if there are no cycles.
* `Graph.topologicalOrder_exact`: the order of a finished graph is what repeated choice lists, and
  then the units that reach a cycle.
-/

namespace ClassAtlas.Graph

/-! ## Checked decrements -/

/-- One unit fewer to wait for; fails if there is none to wait for. -/
def Waiting.release? (w : Waiting) (name : String) : Option Waiting :=
  match w.pending.get? name with
  | none => some w
  | some 0 => none
  | some (_ + 1) => some (w.release name)

/-- A unit is listed, so that it is neither pending nor ready any more. -/
def Waiting.remove (w : Waiting) (name : String) : Waiting :=
  ⟨w.pending.filter fun k _ => k ≠ name, w.ready.filter fun k _ => k ≠ name⟩

/-- As `drain`, with every decrement checked. -/
def drain? (g : Graph) : Nat → Waiting → Option (List String)
  | 0, w => some w.pending.keys
  | n + 1, w =>
    match w.ready.elements with
    | [] => some w.pending.keys
    | name :: _ => do
      let released ← (g.predecessorsOf name).foldlM Waiting.release? (w.remove name)
      return name :: (← drain? g n released)

/-- What `topologicalOrder` starts from: every unit waits for all that it refers to. -/
def waitingAtFirst (g : Graph) : Waiting :=
  let pending := g.nodes.mapValues fun _ node => node.successors.length
  ⟨pending, SortedSet.ofElements (pending.filter fun _ degree => degree = 0).keys⟩

/-- As `topologicalOrder`, with every decrement checked. -/
def topologicalOrder? (g : Graph) : Option (List String) := drain? g g.nodeCount g.waitingAtFirst

variable {g : Graph} {w : Waiting} {listed : List String}

/-! ## Releasing units -/

namespace Waiting

theorem get?_pending_remove (w : Waiting) (name m : String) :
    (w.remove name).pending.get? m = if m = name then none else w.pending.get? m := by
  rw [remove, SortedMap.get?_filter]
  by_cases hm : m = name <;> cases w.pending.get? m <;> simp [hm, Option.filter]

theorem contains_ready_remove (w : Waiting) (name m : String) :
    (w.remove name).ready.contains m = true ↔ m ≠ name ∧ w.ready.contains m = true := by
  rw [remove, SortedMap.contains, SortedMap.get?_filter, SortedMap.contains]
  by_cases hm : m = name <;> cases w.ready.get? m <;> simp [hm, Option.filter]

theorem get?_pending_release (w : Waiting) (name m : String) :
    (w.release name).pending.get? m =
      if m = name then (w.pending.get? m).map (· - 1) else w.pending.get? m := by
  rw [release]
  by_cases hm : m = name
  · subst hm
    cases h : w.pending.get? m <;> simp [h, SortedMap.get?_insert]
  · cases w.pending.get? name <;> simp [hm, SortedMap.get?_insert]

/-- A unit becomes ready if it waited for one unit only. -/
theorem contains_ready_release {name : String} (hpos : w.pending.get? name ≠ some 0) (m : String) :
    (w.release name).ready.contains m = true ↔
      w.ready.contains m = true ∨ m = name ∧ w.pending.get? m = some 1 := by
  rw [release]
  split
  · next h =>
    refine ⟨.inl, ?_⟩
    rintro (hm | ⟨rfl, hm⟩)
    · exact hm
    · simp [h] at hm
  · next degree h =>
    have hdegree : degree ≠ 0 := fun hzero => hpos (hzero ▸ h)
    by_cases hone : degree = 1
    · subst hone
      rw [if_pos rfl, SortedSet.contains_add, or_comm]
      exact or_congr_right ⟨fun hm => ⟨hm, hm ▸ h⟩, fun hm => hm.1⟩
    · rw [if_neg (by omega)]
      refine ⟨.inl, ?_⟩
      rintro (hm | ⟨rfl, hm⟩)
      · exact hm
      · rw [h, Option.some.injEq] at hm
        exact absurd hm hone

variable {names : List String}

/-- Units other than the one that is released wait on. -/
theorem pos_release {name : String} (hname : name ∉ names)
    (hpos : ∀ other ∈ names, w.pending.get? other ≠ some 0) :
    ∀ other ∈ names, (w.release name).pending.get? other ≠ some 0 := by
  intro other hother
  have hne : other ≠ name := fun heq => hname (heq ▸ hother)
  rw [get?_pending_release, if_neg hne]
  exact hpos other hother

theorem get?_pending_foldl_release (hnodup : names.Nodup) (m : String) :
    (names.foldl release w).pending.get? m =
      if m ∈ names then (w.pending.get? m).map (· - 1) else w.pending.get? m := by
  induction names generalizing w with
  | nil => rfl
  | cons name names ih =>
    rw [List.nodup_cons] at hnodup
    rw [List.foldl_cons, ih hnodup.2, get?_pending_release]
    by_cases hm : m = name
    · simp [hm, hnodup.1]
    · simp [hm]

theorem contains_ready_foldl_release (hnodup : names.Nodup)
    (hpos : ∀ name ∈ names, w.pending.get? name ≠ some 0) (m : String) :
    (names.foldl release w).ready.contains m = true ↔
      w.ready.contains m = true ∨ m ∈ names ∧ w.pending.get? m = some 1 := by
  induction names generalizing w with
  | nil => simp
  | cons name names ih =>
    rw [List.nodup_cons] at hnodup
    rw [List.forall_mem_cons] at hpos
    have hrest := pos_release hnodup.1 hpos.2
    rw [List.foldl_cons, ih hnodup.2 hrest, contains_ready_release hpos.1, get?_pending_release]
    by_cases hm : m = name
    · simp [hm, hnodup.1]
    · simp [hm]

/-- Releasing distinct units that wait for something lowers no number below zero. -/
theorem foldlM_release?_eq (hnodup : names.Nodup)
    (hpos : ∀ name ∈ names, w.pending.get? name ≠ some 0) :
    names.foldlM release? w = some (names.foldl release w) := by
  induction names generalizing w with
  | nil => rfl
  | cons name names ih =>
    rw [List.nodup_cons] at hnodup
    rw [List.forall_mem_cons] at hpos
    have hrest := pos_release hnodup.1 hpos.2
    have hstep : w.release? name = some (w.release name) := by
      rw [release?]
      split
      · next h => rw [release, h]
      · next h => exact absurd h hpos.1
      · rfl
    rw [List.foldlM_cons, hstep, List.foldl_cons]
    exact ih hnodup.2 hrest

end Waiting

/-! ## The invariant -/

/-- The number of distinct units that a unit still waits for. -/
def openCount (g : Graph) (listed : List String) (name : String) : Nat :=
  ((g.successorsOf name).filter (· ∉ listed)).length

/-- Every unlisted unit has the number of units that it waits for, and the ready ones wait for
none. -/
structure Tracks (g : Graph) (listed : List String) (w : Waiting) : Prop where
  pending_eq : ∀ name, w.pending.get? name =
    if name ∈ g.names ∧ name ∉ listed then some (g.openCount listed name) else none
  ready_iff : ∀ name, w.ready.contains name = true ↔ w.pending.get? name = some 0

theorem openCount_eq_zero_iff {name : String} :
    g.openCount listed name = 0 ↔ ∀ b, g.Refers name b → b ∈ listed := by
  simp [openCount, List.filter_eq_nil_iff, mem_successorsOf_iff]

/-- Listing a unit leaves those that refer to it one unit fewer to wait for. -/
theorem openCount_append {name m : String} (hname : name ∉ listed) :
    g.openCount listed m =
      g.openCount (listed ++ [name]) m + if name ∈ g.successorsOf m then 1 else 0 := by
  have hnodup : (g.successorsOf m).Nodup :=
    (pairwise_neighbours g .dependencies m).imp ne_of_lt
  rw [openCount, openCount]
  generalize g.successorsOf m = targets at hnodup
  induction targets with
  | nil => rfl
  | cons target targets ih =>
    rw [List.nodup_cons] at hnodup
    have hrest := ih hnodup.2
    by_cases htarget : target = name
    · subst htarget
      simp [hname, hnodup.1] at hrest ⊢
      omega
    · have hother : name ≠ target := Ne.symm htarget
      by_cases hlisted : target ∈ listed <;> simp [htarget, hother, hlisted] at hrest ⊢ <;> omega

namespace Tracks

theorem ready_iff_ready (h : g.Tracks listed w) (name : String) :
    w.ready.contains name = true ↔ g.Ready listed name := by
  rw [h.ready_iff, h.pending_eq]
  simp only [Option.ite_none_right_eq_some, Option.some.injEq, openCount_eq_zero_iff, and_assoc]
  rfl

/-- What is still pending is what is not listed. -/
theorem keys_pending (h : g.Tracks listed w) :
    w.pending.keys = g.names.filter (· ∉ listed) := by
  have hkeys : w.pending.keys.Pairwise (· < ·) :=
    (SortedMap.sorted_keys _).imp compare_lt_iff_lt.1
  refine hkeys.eq_of_mem_iff ((pairwise_names g).filter _) fun name => ?_
  rw [SortedMap.mem_keys, SortedMap.contains, h.pending_eq]
  split <;> simp_all

theorem start (g : Graph) : g.Tracks [] g.waitingAtFirst where
  pending_eq name := by
    rw [waitingAtFirst, SortedMap.get?_mapValues]
    cases hnode : g.nodeAt? name with
    | none =>
      have hname : name ∉ g.names := fun h => by
        obtain ⟨node, h⟩ := mem_names.1 h
        rw [hnode] at h
        cases h
      rw [nodeAt?] at hnode
      simp [hnode, hname]
    | some node =>
      have hname : name ∈ g.names := mem_names.2 ⟨node, hnode⟩
      have hcount : g.openCount [] name = node.successors.length := by
        simp [openCount, successorsOf, hnode]
      rw [nodeAt?] at hnode
      simp [hnode, hname, hcount]
  ready_iff name := by
    rw [waitingAtFirst, SortedSet.contains_ofElements, SortedMap.mem_keys, SortedMap.contains,
      SortedMap.get?_filter, SortedMap.get?_mapValues]
    cases g.nodes.get? name <;> simp [Option.filter]

/-- Listing a ready unit and releasing those that refer to it preserves the invariant, and every
decrement on the way is one of a positive number. -/
theorem step (hg : g.Consistent) (h : g.Tracks listed w) {name : String}
    (hname : w.ready.contains name = true) :
    (g.predecessorsOf name).foldlM Waiting.release? (w.remove name) =
        some ((g.predecessorsOf name).foldl Waiting.release (w.remove name)) ∧
      g.Tracks (listed ++ [name])
        ((g.predecessorsOf name).foldl Waiting.release (w.remove name)) := by
  have hready := (h.ready_iff_ready name).1 hname
  have hnodup : (g.predecessorsOf name).Nodup :=
    (pairwise_neighbours g .dependents name).imp ne_of_lt
  have hmem (m : String) : m ∈ g.predecessorsOf name ↔ name ∈ g.successorsOf m := by
    rw [hg.mem_predecessorsOf_iff, mem_successorsOf_iff]
  have hpending (m : String) : (w.remove name).pending.get? m =
      if m ∈ g.names ∧ m ∉ listed ++ [name] then some (g.openCount listed m) else none := by
    rw [Waiting.get?_pending_remove, h.pending_eq]
    by_cases hm : m = name <;> simp [hm]
  have hpos : ∀ m ∈ g.predecessorsOf name, (w.remove name).pending.get? m ≠ some 0 := by
    intro m hm hzero
    rw [hpending, Option.ite_none_right_eq_some, Option.some.injEq,
      openCount_append hready.2.1, if_pos ((hmem m).1 hm)] at hzero
    omega
  refine ⟨Waiting.foldlM_release?_eq hnodup hpos, ?_, ?_⟩
  · intro m
    rw [Waiting.get?_pending_foldl_release hnodup, hpending, openCount_append hready.2.1]
    by_cases hm : m ∈ g.predecessorsOf name
    · rw [if_pos hm, if_pos ((hmem m).1 hm)]
      split <;> rfl
    · rw [if_neg hm, if_neg (mt (hmem m).2 hm)]
      rfl
  · intro m
    -- A ready unit stays ready, and a unit becomes ready if it waited for this one only.
    rw [Waiting.contains_ready_foldl_release hnodup hpos, Waiting.get?_pending_foldl_release hnodup,
      Waiting.contains_ready_remove, h.ready_iff, Waiting.get?_pending_remove]
    by_cases hm : m = name
    · simp [hm]
    by_cases hpred : m ∈ g.predecessorsOf name
    · have hzero := hpos m hpred
      rw [Waiting.get?_pending_remove, if_neg hm] at hzero
      cases hdegree : w.pending.get? m with
      | none => simp [hm, hpred]
      | some degree =>
        rw [hdegree] at hzero
        simp [hm, hpred] at hzero ⊢
        omega
    · simp [hm, hpred]

end Tracks

/-! ## The whole run -/

/-- Listing a unit leaves one fewer that is not listed. -/
theorem length_unlisted_lt {name : String} (hname : name ∈ g.names) (hlisted : name ∉ listed) :
    (g.names.filter (· ∉ listed ++ [name])).length < (g.names.filter (· ∉ listed)).length := by
  have hsplit : g.names.filter (· ∉ listed ++ [name]) =
      (g.names.filter (· ∉ listed)).filter (· ≠ name) := by
    rw [List.filter_filter]
    refine List.filter_congr fun m _ => ?_
    simp [and_comm]
  rw [hsplit, List.length_filter_lt_length_iff_exists]
  exact ⟨name, List.mem_filter.2 ⟨hname, by simpa using hlisted⟩, by simp⟩

theorem drain_of_cons {n : Nat} {name : String} {others : List String}
    (h : w.ready.elements = name :: others) : drain g (n + 1) w =
      name :: drain g n ((g.predecessorsOf name).foldl Waiting.release (w.remove name)) := by
  rw [drain, h]
  rfl

theorem drain?_of_cons {n : Nat} {name : String} {others : List String} {released : Waiting}
    (h : w.ready.elements = name :: others)
    (hreleased : (g.predecessorsOf name).foldlM Waiting.release? (w.remove name) = some released) :
    drain? g (n + 1) w = (drain? g n released).map (name :: ·) := by
  rw [drain?, h]
  simp [hreleased, Option.map_eq_bind]

/-- With enough steps, what is listed from a state of the invariant on is repeated choice, and then
what is left. No decrement is one of zero. -/
theorem Tracks.run (hg : g.Consistent) (n : Nat) (h : g.Tracks listed w)
    (hn : (g.names.filter (· ∉ listed)).length ≤ n) :
    ∃ order, g.Greedy listed order ∧
      drain g n w = order ++ g.names.filter (· ∉ listed ++ order) ∧
      drain? g n w = some (drain g n w) := by
  induction n generalizing listed w with
  | zero =>
    have hleft : g.names.filter (· ∉ listed) = [] := List.length_eq_zero_iff.1 (by omega)
    refine ⟨[], .done fun name hready => ?_, by simpa [drain] using h.keys_pending, rfl⟩
    have hname := List.filter_eq_nil_iff.1 hleft name hready.1
    simp [hready.2.1] at hname
  | succ n ih =>
    cases helements : w.ready.elements with
    | nil =>
      refine ⟨[], .done fun name hready => ?_, by simpa [drain, helements] using h.keys_pending,
        by simp [drain, drain?, helements]⟩
      have hname := SortedSet.mem_elements.2 ((h.ready_iff_ready name).2 hready)
      simp [helements] at hname
    | cons name others =>
      have hmem (m : String) : m ∈ name :: others ↔ g.Ready listed m := by
        rw [← helements, SortedSet.mem_elements, h.ready_iff_ready]
      have hsorted : (name :: others).Pairwise (· < ·) :=
        helements ▸ (SortedMap.sorted_keys w.ready).imp compare_lt_iff_lt.1
      have hready := (hmem name).1 List.mem_cons_self
      have hleast (other : String) (hother : g.Ready listed other) : name ≤ other := by
        rcases List.mem_cons.1 ((hmem other).2 hother) with rfl | hother
        · exact le_refl _
        · exact (List.rel_of_pairwise_cons hsorted hother).le
      obtain ⟨hreleased, htracks⟩ := h.step hg ((h.ready_iff_ready name).2 hready)
      have hlt := length_unlisted_lt hready.1 hready.2.1
      obtain ⟨order, hgreedy, horder, hchecked⟩ := ih htracks (by omega)
      refine ⟨name :: order, .step hready hleast hgreedy, ?_, ?_⟩
      · rw [drain_of_cons helements, horder]
        simp
      · rw [drain?_of_cons helements hreleased, drain_of_cons helements, hchecked, Option.map_some]

/-- The order of a consistent graph is repeated choice, and then what is left. -/
theorem Consistent.topologicalOrder_eq (hg : g.Consistent) :
    ∃ first, g.Greedy [] first ∧ g.topologicalOrder = first ++ g.names.filter (· ∉ first) ∧
      g.topologicalOrder? = some g.topologicalOrder := by
  have hn : (g.names.filter (· ∉ [])).length ≤ g.nodeCount :=
    (List.length_filter_le _ _).trans (by simp [names, nodeCount, SortedMap.keys, SortedMap.size])
  obtain ⟨first, hfirst, horder, hchecked⟩ := (Tracks.start g).run hg g.nodeCount hn
  exact ⟨first, hfirst, horder, hchecked⟩

/-- The order has all dependencies first exactly if there are no cycles. -/
theorem Consistent.dependenciesFirst_topologicalOrder_iff (hg : g.Consistent) :
    g.DependenciesFirst g.topologicalOrder ↔ ∀ a, ¬g.OnCycle a := by
  obtain ⟨first, hfirst, horder, -⟩ := hg.topologicalOrder_eq
  constructor
  · intro h
    exact h.not_onCycle (horder ▸ hfirst.perm_names.nodup_iff.2 (nodup_names g))
  · intro hnone
    have hall (m : String) (hm : m ∈ g.names) : m ∈ first :=
      (hfirst.mem_iff hg).2 ⟨hm, fun ⟨a, _, ha⟩ => hnone a ha⟩
    have hrest : g.names.filter (· ∉ first) = [] :=
      List.filter_eq_nil_iff.2 fun m hm => by simpa using hall m hm
    rw [horder, hrest, List.append_nil]
    exact hfirst.dependenciesFirst hall

/-- The order of a finished graph, or of the graph of its packages, lists every unit once. First
come the units that reach no cycle, by repeated choice of the smallest unit all of whose
dependencies are listed; then those that lie on a cycle or reach one, in increasing order. Every
decrement on the way is one of a positive number. -/
theorem topologicalOrder_exact (config : GraphConfig) (units : List UnitReferences) (n : Nat) :
    let g := Graph.packages^[n] ((GraphBuilder.start config).ingestAll units).finish
    ∃ first rest, g.topologicalOrder = first ++ rest ∧
      g.topologicalOrder? = some (first ++ rest) ∧
      (first ++ rest).Perm g.names ∧
      g.Greedy [] first ∧
      (∀ m, m ∈ first ↔ m ∈ g.names ∧ ¬g.ReachesCycle m) ∧
      (∀ m, m ∈ rest ↔ m ∈ g.names ∧ g.ReachesCycle m) ∧
      rest.Pairwise (· < ·) := by
  intro g
  have hg : g.Consistent := GraphBuilder.consistent_finished config units n
  obtain ⟨first, hfirst, horder, hchecked⟩ := hg.topologicalOrder_eq
  have hmem (m : String) := hfirst.mem_iff hg (m := m)
  have hrest (m : String) :
      m ∈ g.names.filter (· ∉ first) ↔ m ∈ g.names ∧ g.ReachesCycle m := by
    rw [List.mem_filter, decide_eq_true_iff, hmem]
    tauto
  exact ⟨first, _, horder, horder ▸ hchecked, hfirst.perm_names, hfirst, hmem, hrest,
    (pairwise_names g).filter _⟩

end ClassAtlas.Graph
