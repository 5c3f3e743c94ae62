import Mathlib.Data.List.Sort
import ClassAtlas.Graph.Cycles
import ClassAtlas.Proofs.Graph.DepthFirst
import ClassAtlas.Proofs.Graph.Readiness

/-!
# Cycles are strongly connected components

Two units are in one component if each reaches the other. No edge leads from a unit to itself, so a
unit lies on a cycle exactly if its component has a second member. Cycles are reported as these
components, each at its smallest member.

## Main definitions

* `Graph.Mutual` says that two units reach each other.

## Main results

* `Graph.Consistent.mem_componentAt_iff`: the walks from a unit in both directions give its
  component.
* `Graph.Consistent.mem_cycles_iff_of_mem`: a component that is reported is that of its members.
* `Graph.Consistent.exists_mem_cycles_iff`: the units reported are those on cycles.
-/

namespace ClassAtlas

open Relation

namespace Graph

/-- Each of the units reaches the other. -/
def Mutual (g : Graph) (a b : String) : Prop :=
  ReflTransGen g.Refers a b ∧ ReflTransGen g.Refers b a

variable {g : Graph} {a b m : String}

/-! ## Components -/

theorem Mutual.symm (h : g.Mutual a b) : g.Mutual b a := ⟨h.2, h.1⟩

theorem Mutual.trans {c : String} (hab : g.Mutual a b) (hbc : g.Mutual b c) : g.Mutual a c :=
  ⟨hab.1.trans hbc.1, hbc.2.trans hab.2⟩

theorem pairwise_componentAt (g : Graph) (a : String) : (g.componentAt a).Pairwise (· < ·) :=
  pairwise_sortedDistinct _

theorem mem_cycles_iff {c : List String} : c ∈ g.cycles ↔
    ∃ a ∈ g.names, g.componentAt a = c ∧ 1 < c.length ∧ c.head? = some a := by
  simp only [cycles, List.mem_filterMap, Option.ite_none_right_eq_some, Option.some.injEq]
  constructor
  · rintro ⟨a, ha, h, rfl⟩
    exact ⟨a, ha, rfl, h⟩
  · rintro ⟨a, ha, rfl, h⟩
    exact ⟨a, ha, h, rfl⟩

theorem length_and_pairwise_of_mem_cycles {c : List String} (hc : c ∈ g.cycles) :
    2 ≤ c.length ∧ c.Pairwise (· < ·) := by
  obtain ⟨a, -, rfl, hlength, -⟩ := mem_cycles_iff.1 hc
  exact ⟨hlength, pairwise_componentAt g a⟩

namespace Consistent

variable (hg : g.Consistent)
include hg

theorem mem_componentAt_iff : m ∈ g.componentAt a ↔ g.Mutual a m := by
  have hbackward : TransGen (g.Leads .dependents) a m ↔ TransGen g.Refers m a := transGen_swap
  have hforward : TransGen (g.Leads .dependencies) a m ↔ TransGen g.Refers a m := Iff.rfl
  simp only [componentAt, mem_sortedDistinct, List.mem_cons, List.mem_filter,
    List.contains_iff_mem, hg.mem_walkFrom_iff, hbackward, hforward, Mutual,
    reflTransGen_iff_eq_or_transGen]
  tauto

theorem self_mem_componentAt (a : String) : a ∈ g.componentAt a :=
  hg.mem_componentAt_iff.2 ⟨.refl, .refl⟩

/-- Units that reach each other have the same component. -/
theorem componentAt_eq_of_mutual (h : g.Mutual a b) : g.componentAt a = g.componentAt b :=
  (pairwise_componentAt g a).eq_of_mem_iff (pairwise_componentAt g b) fun m => by
    rw [hg.mem_componentAt_iff, hg.mem_componentAt_iff]
    exact ⟨h.symm.trans, h.trans⟩

/-- No edge leads from a unit to itself, so a cycle has a second unit. -/
theorem onCycle_iff_exists_mutual : g.OnCycle a ↔ ∃ b, b ≠ a ∧ g.Mutual a b := by
  constructor
  · intro h
    obtain ⟨b, hab, hba⟩ := TransGen.head'_iff.1 h
    exact ⟨b, (hg.ne_of_refers hab).symm, .single hab, hba⟩
  · rintro ⟨b, hne, hab, hba⟩
    rcases reflTransGen_iff_eq_or_transGen.1 hab with heq | hab
    · exact absurd heq hne
    · exact hab.trans_left hba

theorem onCycle_iff_one_lt_length : g.OnCycle a ↔ 1 < (g.componentAt a).length := by
  rw [hg.onCycle_iff_exists_mutual]
  have hself := hg.self_mem_componentAt a
  constructor
  · rintro ⟨b, hne, hb⟩
    by_contra hlength
    have hpos := List.length_pos_of_mem hself
    obtain ⟨x, hx⟩ := List.length_eq_one_iff.1 (by omega : (g.componentAt a).length = 1)
    have hmem := hg.mem_componentAt_iff.2 hb
    rw [hx, List.mem_singleton] at hself hmem
    exact hne (hmem.trans hself.symm)
  · intro hlength
    by_contra hnone
    push Not at hnone
    have hall : ∀ m ∈ g.componentAt a, m = a := fun m hm =>
      by_contra fun hne => hnone m hne (hg.mem_componentAt_iff.1 hm)
    have hsorted := pairwise_componentAt g a
    rw [List.eq_replicate_of_mem hall, List.pairwise_replicate] at hsorted
    rcases hsorted with hle | hlt
    · omega
    · exact lt_irrefl a hlt

/-! ## The report -/

/-- A component that is reported is the component of each of its members. -/
theorem mem_cycles_iff_of_mem {c : List String} (ha : a ∈ c) :
    c ∈ g.cycles ↔ c = g.componentAt a ∧ 1 < c.length := by
  rw [mem_cycles_iff]
  constructor
  · rintro ⟨b, -, rfl, hlength, -⟩
    exact ⟨hg.componentAt_eq_of_mutual (hg.mem_componentAt_iff.1 ha), hlength⟩
  · rintro ⟨rfl, hlength⟩
    have hb := List.head?_eq_some_head (List.ne_nil_of_mem ha)
    generalize (g.componentAt a).head _ = b at hb
    have hab := hg.mem_componentAt_iff.1 (List.mem_of_head? hb)
    have heq := hg.componentAt_eq_of_mutual hab
    have hcycle : g.OnCycle b := hg.onCycle_iff_one_lt_length.2 (heq ▸ hlength)
    obtain ⟨c, hbc, -⟩ := TransGen.head'_iff.1 hcycle
    exact ⟨b, hbc.source_mem, heq.symm, hlength, hb⟩

theorem exists_mem_cycles_iff : (∃ c ∈ g.cycles, a ∈ c) ↔ g.OnCycle a := by
  rw [hg.onCycle_iff_one_lt_length]
  constructor
  · rintro ⟨c, hc, ha⟩
    obtain ⟨rfl, hlength⟩ := (hg.mem_cycles_iff_of_mem ha).1 hc
    exact hlength
  · intro hlength
    have ha := hg.self_mem_componentAt a
    exact ⟨_, (hg.mem_cycles_iff_of_mem ha).2 ⟨rfl, hlength⟩, ha⟩

theorem exists_mem_cycles_and_iff (hne : a ≠ b) :
    (∃ c ∈ g.cycles, a ∈ c ∧ b ∈ c) ↔ g.Mutual a b := by
  constructor
  · rintro ⟨c, hc, ha, hb⟩
    obtain ⟨rfl, -⟩ := (hg.mem_cycles_iff_of_mem ha).1 hc
    exact hg.mem_componentAt_iff.1 hb
  · intro h
    have hcycle : g.OnCycle a := hg.onCycle_iff_exists_mutual.2 ⟨b, hne.symm, h⟩
    obtain ⟨c, hc, ha⟩ := hg.exists_mem_cycles_iff.2 hcycle
    obtain ⟨rfl, -⟩ := (hg.mem_cycles_iff_of_mem ha).1 hc
    exact ⟨_, hc, ha, hg.mem_componentAt_iff.2 h⟩

/-- Components are ordered by their smallest members and have no member in common. -/
theorem pairwise_cycles : g.cycles.Pairwise fun c d =>
    (∀ x ∈ c.head?, ∀ y ∈ d.head?, x < y) ∧ c.Disjoint d := by
  refine (pairwise_names g).filterMap _ fun a b hab c hc d hd => ?_
  simp only [Option.ite_none_right_eq_some, Option.some.injEq] at hc hd
  obtain ⟨⟨-, hheadc⟩, rfl⟩ := hc
  obtain ⟨⟨-, hheadd⟩, rfl⟩ := hd
  constructor
  · intro x hx y hy
    rw [hheadc, Option.mem_some_iff] at hx
    rw [hheadd, Option.mem_some_iff] at hy
    exact hx ▸ hy ▸ hab
  · intro m hma hmb
    have ha := hg.componentAt_eq_of_mutual (hg.mem_componentAt_iff.1 hma)
    have hb := hg.componentAt_eq_of_mutual (hg.mem_componentAt_iff.1 hmb)
    rw [ha, ← hb, hheadd, Option.some.injEq] at hheadc
    exact hab.ne' hheadc

/-- A name in internal form is looked up in the components. -/
theorem cycleOf?_eq_some_iff (hname : Name.normalize a = a) {c : List String} :
    g.cycleOf? a = some c ↔ c ∈ g.cycles ∧ a ∈ c := by
  have hfind {c : List String} : g.cycleOf? a = some c → c ∈ g.cycles ∧ a ∈ c := by
    rw [cycleOf?, key?, hname]
    split
    · intro h
      exact ⟨List.mem_of_find?_eq_some h, by simpa using List.find?_some h⟩
    · intro h
      cases h
  refine ⟨hfind, ?_⟩
  rintro ⟨hc, ha⟩
  have hnode : g.nodes.contains a = true := by
    obtain ⟨b, hab, -⟩ := TransGen.head'_iff.1 (hg.exists_mem_cycles_iff.1 ⟨c, hc, ha⟩)
    exact SortedMap.mem_keys.1 hab.source_mem
  have hsome : (g.cycleOf? a).isSome = true := by
    rw [cycleOf?, key?, hname, if_pos hnode]
    exact List.find?_isSome.2 ⟨c, hc, by simpa using ha⟩
  obtain ⟨d, hd⟩ := Option.isSome_iff_exists.1 hsome
  obtain ⟨hdcycle, had⟩ := hfind hd
  rw [hd, ((hg.mem_cycles_iff_of_mem ha).1 hc).1, ((hg.mem_cycles_iff_of_mem had).1 hdcycle).1]

theorem hasCycles_eq_false_iff : g.hasCycles = false ↔ ∀ a, ¬g.OnCycle a := by
  rw [hasCycles, Bool.not_eq_false', List.isEmpty_iff]
  constructor
  · intro hnil a ha
    obtain ⟨c, hc, -⟩ := hg.exists_mem_cycles_iff.2 ha
    simp [hnil] at hc
  · intro hnone
    refine List.eq_nil_iff_forall_not_mem.2 fun c hc => ?_
    obtain ⟨a, -, -, -, ha⟩ := mem_cycles_iff.1 hc
    exact hnone a (hg.exists_mem_cycles_iff.1 ⟨c, hc, List.mem_of_head? ha⟩)

end Consistent

end Graph

end ClassAtlas
