import ClassAtlas.Proofs.Graph.Distance

/-!
# A breadth-first search with a queue

The depth of an impact is found by whole layers. The same search can be made one unit at a time: the
units wait in a queue with their depths, the first one is taken, and those next to it that were not
seen before go to the end of the queue. The queue holds what is left of a layer, and behind it what
was found of the next one. So the layers of the one search are those of the other, in another order,
and both come to the same depth.

## Main definitions

* `Graph.Frontier` is the state of the search, `Graph.Frontier.step` takes the first unit.

## Main results

* `Graph.Frontier.iterate_step_layer`: the search of a layer finds the next one.
* `Graph.Consistent.exists_iterate_step`: the search empties its queue, at the depth that the search
  by layers counts up to.
-/

namespace ClassAtlas.Graph

variable {next : String → List String} {seen seen' names layer layer' : List String}
  {depth deepest : Nat}

/-! ## What is met for the first time -/

/-- The names that were not seen before, each where it is met first. -/
def unseen : List String → List String → List String
  | _, [] => []
  | seen, name :: names =>
    if seen.contains name then unseen seen names else name :: unseen (name :: seen) names

theorem unseen_append (seen names others : List String) : unseen seen (names ++ others) =
    unseen seen names ++ unseen ((unseen seen names).reverse ++ seen) others := by
  induction names generalizing seen with
  | nil => rfl
  | cons name names ih =>
    rw [List.cons_append, unseen, unseen]
    split
    · exact ih seen
    · rw [ih, List.reverse_cons, List.append_assoc]
      rfl

theorem mem_unseen {m : String} : m ∈ unseen seen names ↔ m ∈ names ∧ m ∉ seen := by
  induction names generalizing seen with
  | nil => simp [unseen]
  | cons name names ih =>
    by_cases hname : name ∈ seen
    · rw [unseen, if_pos (List.contains_iff_mem.2 hname), ih, List.mem_cons]
      constructor
      · exact fun ⟨hm, hseen⟩ => ⟨.inr hm, hseen⟩
      · rintro ⟨rfl | hm, hseen⟩
        · exact absurd hname hseen
        · exact ⟨hm, hseen⟩
    · rw [unseen, if_neg (mt List.contains_iff_mem.1 hname), List.mem_cons, ih, List.mem_cons,
        List.mem_cons]
      by_cases heq : m = name
      · simp [heq, hname]
      · simp [heq]

theorem nodup_unseen (seen names : List String) : (unseen seen names).Nodup := by
  induction names generalizing seen with
  | nil => exact List.nodup_nil
  | cons name names ih =>
    rw [unseen]
    split
    · exact ih seen
    · refine List.nodup_cons.2 ⟨fun hmem => ?_, ih _⟩
      exact (mem_unseen.1 hmem).2 (List.mem_cons_self ..)

/-! ## The search -/

/-- The state of a search: the units that wait, with their depths, the units that were seen, and the
largest depth of a unit that was taken. -/
structure Frontier where
  queue : List (String × Nat)
  seen : List String
  deepest : Nat

namespace Frontier

def start (t : String) : Frontier := ⟨[(t, 0)], [t], 0⟩

/-- Takes the first unit of the queue. What comes next to it and was not seen goes to the end. -/
def step (next : String → List String) (f : Frontier) : Frontier :=
  match f.queue with
  | [] => f
  | (name, depth) :: queue =>
    let new := unseen f.seen (next name)
    ⟨queue ++ new.map (·, depth + 1), new.reverse ++ f.seen, max f.deepest depth⟩

/-- A layer is used up, and the next one stands behind what was found of it before. -/
theorem iterate_step_layer (next : String → List String) (layer found seen : List String)
    (depth deepest : Nat) :
    (step next)^[layer.length]
        ⟨layer.map (·, depth) ++ found.map (·, depth + 1), seen, deepest⟩ =
      ⟨(found ++ unseen seen (layer.flatMap next)).map (·, depth + 1),
        (unseen seen (layer.flatMap next)).reverse ++ seen,
        if layer = [] then deepest else max deepest depth⟩ := by
  induction layer generalizing found seen deepest with
  | nil => simp [unseen]
  | cons name layer ih =>
    have hstep : step next
          ⟨(name :: layer).map (·, depth) ++ found.map (·, depth + 1), seen, deepest⟩ =
        ⟨layer.map (·, depth) ++ (found ++ unseen seen (next name)).map (·, depth + 1),
          (unseen seen (next name)).reverse ++ seen, max deepest depth⟩ := by
      simp [step]
    have hdeepest : (if layer = [] then max deepest depth else max (max deepest depth) depth) =
        max deepest depth := by
      split <;> omega
    rw [List.length_cons, Function.iterate_succ_apply, hstep, ih, hdeepest, List.flatMap_cons,
      unseen_append, List.reverse_append, if_neg (List.cons_ne_nil name layer)]
    simp only [List.append_assoc]

end Frontier

/-! ## The same depth -/

variable {g : Graph} {t : String} {d : Nat}

/-- The order in which units were found does not matter. -/
theorem Layered.of_mem_iff (h : g.Layered t d layer seen) (hlayer : ∀ m, m ∈ layer' ↔ m ∈ layer)
    (hseen : ∀ m, m ∈ seen' ↔ m ∈ seen) (hnodup : seen'.Nodup) :
    g.Layered t d layer' seen' where
  mem_layer m := (hlayer m).trans (h.mem_layer m)
  mem_seen m := (hseen m).trans (h.mem_seen m)
  nodup := hnodup

theorem Consistent.mem_unseen_iff (hg : g.Consistent) {m : String} :
    m ∈ unseen seen (layer.flatMap g.predecessorsOf) ↔
      m ∈ nextLayer g.predecessorsOf layer seen := by
  rw [mem_unseen, hg.mem_nextLayer_iff]
  simp [hg.mem_predecessorsOf_iff]

/-- What the queue holds after a layer is the next layer. -/
theorem Layered.step_unseen (h : g.Layered t d layer seen) (hg : g.Consistent) :
    g.Layered t (d + 1) (unseen seen (layer.flatMap g.predecessorsOf))
      ((unseen seen (layer.flatMap g.predecessorsOf)).reverse ++ seen) := by
  refine (h.step hg).of_mem_iff (fun m => hg.mem_unseen_iff) (fun m => ?_) ?_
  · simp only [List.mem_append, List.mem_reverse, hg.mem_unseen_iff]
  · refine (List.nodup_reverse.2 (nodup_unseen _ _)).append h.nodup fun m hnew hseen => ?_
    exact (mem_unseen.1 (List.mem_reverse.1 hnew)).2 hseen

/-- A search that stands before a layer empties its queue, and then it has taken a unit at the
largest distance. -/
theorem Layered.exists_iterate_step {n : Nat} (h : g.Layered t d layer seen) (hg : g.Consistent)
    (ht : t ∈ g.names) (hlayer : layer ≠ []) (hdeepest : deepest ≤ d)
    (hn : g.names.length < n + seen.length) :
    ∃ k seen' depth, (Frontier.step g.predecessorsOf)^[k] ⟨layer.map (·, d), seen, deepest⟩ =
      ⟨[], seen', depth⟩ ∧ IsGreatest {k | ∃ m, g.Distance m t k} depth := by
  induction n generalizing d layer seen deepest with
  | zero =>
    have hle := h.length_seen_le ht
    omega
  | succ n ih =>
    have hnext := h.step_unseen hg
    have hrun := Frontier.iterate_step_layer g.predecessorsOf layer [] seen d deepest
    rw [if_neg hlayer, Nat.max_eq_right hdeepest, List.map_nil, List.append_nil,
      List.nil_append] at hrun
    by_cases hnil : unseen seen (layer.flatMap g.predecessorsOf) = []
    · rw [hnil] at hrun
      have hlast : nextLayer g.predecessorsOf layer seen = [] :=
        List.eq_nil_iff_forall_not_mem.2 fun m hm => by simpa [hnil] using hg.mem_unseen_iff.2 hm
      exact ⟨_, _, _, hrun, h.isGreatest_of_nextLayer_eq_nil hg hlayer hlast⟩
    · -- Each layer that is not empty adds to the units seen, of which there are only so many.
      have hpos := List.length_pos_iff.2 hnil
      obtain ⟨k, seen', depth, hrest, hdepth⟩ := ih hnext hnil (Nat.le_succ d) (by
        rw [List.length_append, List.length_reverse]
        omega)
      refine ⟨k + layer.length, seen', depth, ?_, hdepth⟩
      rw [Function.iterate_add_apply, hrun, hrest]

/-- The search takes unit after unit until none is left, and the largest depth of a unit that it
took is what the search by layers counts up to. -/
theorem Consistent.exists_iterate_step (hg : g.Consistent) (ht : t ∈ g.names) :
    ∃ k seen, (Frontier.step g.predecessorsOf)^[k] (.start t) =
      ⟨[], seen, Impact.depthFrom g.predecessorsOf g.nodeCount [t] [t]⟩ := by
  obtain ⟨k, seen, depth, hrun, hdepth⟩ := (layered_start g t).exists_iterate_step hg ht
    (List.cons_ne_nil t []) (Nat.le_refl 0) (Nat.lt_succ_self g.names.length)
  rw [hdepth.unique (hg.isGreatest_depthFrom ht)] at hrun
  exact ⟨k, seen, hrun⟩

end ClassAtlas.Graph
