import Mathlib.Data.Finset.Card
import Mathlib.Data.Nat.Find
import Mathlib.Order.Bounds.Basic
import ClassAtlas.Graph.Impact
import ClassAtlas.Proofs.Graph.Neighbours

/-!
# Distances

The distance of a unit from a target is the number of edges on a shortest path that leads there. A
breadth-first search against the edges takes the units in layers, and the layer numbers are the
distances: a unit that is new in a layer has an edge to the layer before, and no shorter path, since
all units at smaller distances were seen. The search stops at the first empty layer, and then there
are no larger distances either, because every distance below a distance occurs.

## Main definitions

* `Graph.Path` says that a path of so many edges leads from one unit to another.
* `Graph.Distance` is the length of a shortest path.
* `Graph.Layered` is the invariant of the search.

## Main results

* `Graph.Layered.step`: the next layer has the units one edge further away.
* `Graph.Consistent.isGreatest_depthFrom`: the search counts up to the largest distance.
* `Graph.Distance.le_length`: a distance is at most the number of units that lead to the target.
-/

namespace ClassAtlas.Graph

open Relation

variable {g : Graph} {a b t : String} {d k n : Nat}

/-! ## Paths and their lengths -/

/-- A path of so many edges leads from one unit to the other. -/
inductive Path (g : Graph) : Nat → String → String → Prop where
  | here (a : String) : g.Path 0 a a
  | step {n : Nat} {a b t : String} : g.Refers a b → g.Path n b t → g.Path (n + 1) a t

/-- A shortest path from one unit to the other has so many edges. -/
def Distance (g : Graph) (a t : String) (d : Nat) : Prop := IsLeast {n | g.Path n a t} d

theorem exists_path_iff : (∃ n, g.Path n a t) ↔ ReflTransGen g.Refers a t := by
  constructor
  · intro ⟨n, h⟩
    induction h with
    | here => exact .refl
    | step hab _ ih => exact .head hab ih
  · intro h
    induction h using ReflTransGen.head_induction_on with
    | refl => exact ⟨0, .here t⟩
    | head hab _ ih =>
      obtain ⟨n, hn⟩ := ih
      exact ⟨n + 1, .step hab hn⟩

theorem exists_distance_iff : (∃ d, g.Distance a t d) ↔ ReflTransGen g.Refers a t := by
  rw [← exists_path_iff]
  constructor
  · intro ⟨d, hd⟩
    exact ⟨d, hd.1⟩
  · intro h
    classical
    exact ⟨Nat.find h, Nat.find_spec h, fun k hk => Nat.find_min' h hk⟩

theorem distance_zero_iff : g.Distance a t 0 ↔ a = t := by
  constructor
  · intro h
    cases h.1
    rfl
  · intro h
    subst h
    exact ⟨.here a, fun k _ => Nat.zero_le k⟩

/-- A unit is one edge further away than some unit that it refers to, if it is not closer. -/
theorem distance_succ_iff : g.Distance a t (d + 1) ↔
    (∃ b, g.Refers a b ∧ g.Distance b t d) ∧ ∀ k ≤ d, ¬g.Path k a t := by
  constructor
  · intro h
    have hfar : ∀ k ≤ d, ¬g.Path k a t := by
      intro k hk hpath
      have hle := h.2 hpath
      omega
    refine ⟨?_, hfar⟩
    cases h.1 with
    | @step _ _ b _ hab hbt =>
      refine ⟨b, hab, hbt, ?_⟩
      intro k hk
      have hle := h.2 (Path.step hab hk)
      omega
  · intro ⟨⟨b, hab, hbt⟩, hfar⟩
    refine ⟨Path.step hab hbt.1, ?_⟩
    intro k hk
    by_contra hlt
    exact hfar k (by omega) hk

/-- Every number below a distance is the distance of some unit. -/
theorem Distance.exists_of_le (h : g.Distance a t d) (hk : k ≤ d) : ∃ b, g.Distance b t k := by
  induction d generalizing a with
  | zero =>
    obtain rfl : k = 0 := by omega
    exact ⟨a, h⟩
  | succ d ih =>
    by_cases heq : k = d + 1
    · exact ⟨a, heq ▸ h⟩
    · obtain ⟨⟨b, -, hb⟩, -⟩ := distance_succ_iff.1 h
      exact ih hb (by omega)

/-- Units at a positive distance are those that reach the target from elsewhere. -/
theorem exists_distance_succ_iff :
    (∃ d, g.Distance a t (d + 1)) ↔ a ≠ t ∧ TransGen g.Refers a t := by
  constructor
  · intro ⟨d, hd⟩
    have hne : a ≠ t := by
      intro heq
      have hzero := hd.unique (distance_zero_iff.2 heq)
      omega
    have hreach := reflTransGen_iff_eq_or_transGen.1 (exists_distance_iff.1 ⟨_, hd⟩)
    exact ⟨hne, hreach.resolve_left (Ne.symm hne)⟩
  · intro ⟨hne, hreach⟩
    obtain ⟨d, hd⟩ := exists_distance_iff.2 hreach.to_reflTransGen
    cases d with
    | zero => exact absurd (distance_zero_iff.1 hd) hne
    | succ d => exact ⟨d, hd⟩

/-- Units at the distances up to a given one are different from each other, so there are at least so
many units that reach the target. -/
theorem Distance.le_length (h : g.Distance a t d) {units : List String}
    (hunits : ∀ m, m ≠ t → TransGen g.Refers m t → m ∈ units) : d ≤ units.length := by
  have hunit : ∀ k < d, ∃ m, m ∈ units ∧ g.Distance m t (k + 1) := by
    intro k hk
    obtain ⟨m, hm⟩ := h.exists_of_le (Nat.succ_le_of_lt hk)
    obtain ⟨hne, hreach⟩ := exists_distance_succ_iff.1 ⟨k, hm⟩
    exact ⟨m, hunits m hne hreach, hm⟩
  choose! unitAt hmem hdistance using hunit
  have hinjective : Set.InjOn unitAt (Finset.range d) := by
    intro i hi j hj heq
    have hi' := hdistance i (Finset.mem_range.1 hi)
    have hj' := hdistance j (Finset.mem_range.1 hj)
    have hsame := hi'.unique (heq ▸ hj')
    omega
  calc d = (Finset.range d).card := (Finset.card_range d).symm
    _ ≤ units.toFinset.card := by
      refine Finset.card_le_card_of_injOn unitAt ?_ hinjective
      intro k hk
      exact List.mem_toFinset.2 (hmem k (Finset.mem_range.1 hk))
    _ ≤ units.length := List.toFinset_card_le units

/-! ## The search by layers -/

variable {layer seen : List String}

/-- The layer after one: what comes next and was not seen before. -/
def nextLayer (next : String → List String) (layer seen : List String) : List String :=
  sortedDistinct ((layer.flatMap next).filter fun name => !seen.contains name)

theorem depthFrom_succ (next : String → List String) (n : Nat) (layer seen : List String) :
    Impact.depthFrom next (n + 1) layer seen =
      if (nextLayer next layer seen).isEmpty then 0
      else Impact.depthFrom next n (nextLayer next layer seen)
        (nextLayer next layer seen ++ seen) + 1 := rfl

/-- The search for a target has come to a distance: it has seen the units up to this distance, and
the layer has those that are exactly so far away. -/
structure Layered (g : Graph) (t : String) (d : Nat) (layer seen : List String) : Prop where
  mem_layer : ∀ m, m ∈ layer ↔ g.Distance m t d
  mem_seen : ∀ m, m ∈ seen ↔ ∃ k ≤ d, g.Path k m t
  nodup : seen.Nodup

theorem layered_start (g : Graph) (t : String) : g.Layered t 0 [t] [t] where
  mem_layer m := by rw [List.mem_singleton, distance_zero_iff]
  mem_seen m := by
    rw [List.mem_singleton]
    constructor
    · intro h
      exact ⟨0, Nat.le_refl 0, h ▸ .here m⟩
    · intro ⟨k, hk, hpath⟩
      obtain rfl : k = 0 := by omega
      cases hpath
      rfl
  nodup := List.nodup_singleton t

namespace Consistent

variable (hg : g.Consistent)
include hg

theorem mem_nextLayer_iff {m : String} : m ∈ nextLayer g.predecessorsOf layer seen ↔
    (∃ b ∈ layer, g.Refers m b) ∧ m ∉ seen := by
  simp [nextLayer, mem_sortedDistinct, hg.mem_predecessorsOf_iff]

end Consistent

namespace Layered

variable (h : g.Layered t d layer seen)
include h

/-- The next layer has the units that are one edge further away. -/
theorem step (hg : g.Consistent) : g.Layered t (d + 1) (nextLayer g.predecessorsOf layer seen)
    (nextLayer g.predecessorsOf layer seen ++ seen) := by
  have hlayer (m : String) :
      m ∈ nextLayer g.predecessorsOf layer seen ↔ g.Distance m t (d + 1) := by
    have hback : (∃ b ∈ layer, g.Refers m b) ↔ ∃ b, g.Refers m b ∧ g.Distance b t d := by
      simp only [h.mem_layer, and_comm]
    have hfar : m ∉ seen ↔ ∀ k ≤ d, ¬g.Path k m t := by simp [h.mem_seen]
    rw [hg.mem_nextLayer_iff, distance_succ_iff, hback, hfar]
  refine ⟨hlayer, ?_, ?_⟩
  · intro m
    rw [List.mem_append, hlayer, h.mem_seen]
    constructor
    · rintro (hm | ⟨k, hk, hpath⟩)
      · exact ⟨d + 1, Nat.le_refl _, hm.1⟩
      · exact ⟨k, by omega, hpath⟩
    · intro ⟨k, hk, hpath⟩
      by_cases hnear : ∃ j ≤ d, g.Path j m t
      · exact .inr hnear
      · left
        push Not at hnear
        obtain rfl : k = d + 1 := by
          by_contra hne
          exact hnear k (by omega) hpath
        refine ⟨hpath, ?_⟩
        intro j hj
        by_contra hlt
        exact hnear j (by omega) hj
  · apply List.Nodup.append (nodup_sortedDistinct _) h.nodup
    intro m hnew hseen
    exact (hg.mem_nextLayer_iff.1 hnew).2 hseen

theorem length_seen_le (ht : t ∈ g.names) : seen.length ≤ g.names.length := by
  refine (h.nodup.subperm ?_).length_le
  intro m hm
  obtain ⟨k, -, hpath⟩ := (h.mem_seen m).1 hm
  cases hpath with
  | here => exact ht
  | step hmb _ => exact hmb.source_mem

/-- If no unit is one edge further away than a layer, no unit is further away at all. -/
theorem isGreatest_of_nextLayer_eq_nil (hg : g.Consistent) (hlayer : layer ≠ [])
    (hnil : nextLayer g.predecessorsOf layer seen = []) :
    IsGreatest {k | ∃ m, g.Distance m t k} d := by
  constructor
  · obtain ⟨m, hm⟩ := List.exists_mem_of_ne_nil layer hlayer
    exact ⟨m, (h.mem_layer m).1 hm⟩
  · intro k ⟨m, hm⟩
    by_contra hlt
    obtain ⟨b, hb⟩ := hm.exists_of_le (k := d + 1) (by omega)
    have hnext := ((h.step hg).mem_layer b).2 hb
    simp [hnil] at hnext

/-- A search that may still look at as many layers as there are units left ends at the largest
distance. -/
theorem isGreatest_depthFrom (hg : g.Consistent) (ht : t ∈ g.names) (hlayer : layer ≠ [])
    (hn : g.names.length < n + seen.length) : IsGreatest {k | ∃ m, g.Distance m t k}
      (d + Impact.depthFrom g.predecessorsOf n layer seen) := by
  induction n generalizing d layer seen with
  | zero =>
    have hle := h.length_seen_le ht
    omega
  | succ n ih =>
    rw [depthFrom_succ]
    by_cases hnil : nextLayer g.predecessorsOf layer seen = []
    · simpa [hnil] using h.isGreatest_of_nextLayer_eq_nil hg hlayer hnil
    · -- Each layer that is not empty adds to the units seen, of which there are only so many.
      have hpos := List.length_pos_iff.2 hnil
      have hrest := ih (h.step hg) hnil (by rw [List.length_append]; omega)
      rw [if_neg (by simpa using hnil)]
      rwa [Nat.add_assoc, Nat.add_comm 1] at hrest

end Layered

/-- The search counts up to the largest distance from the target. -/
theorem Consistent.isGreatest_depthFrom (hg : g.Consistent) (ht : t ∈ g.names) :
    IsGreatest {k | ∃ m, g.Distance m t k}
      (Impact.depthFrom g.predecessorsOf g.nodeCount [t] [t]) := by
  have hlength : g.names.length = g.nodeCount := List.length_map _
  have hstart := (layered_start g t).isGreatest_depthFrom hg ht (List.cons_ne_nil t [])
    (n := g.nodeCount) (by rw [hlength, List.length_singleton]; omega)
  rwa [Nat.zero_add] at hstart

end ClassAtlas.Graph
