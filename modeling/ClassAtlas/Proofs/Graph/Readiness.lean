import Mathlib.Data.Fintype.Card
import Mathlib.Data.Set.Finite.Basic
import Mathlib.Order.WellFounded
import ClassAtlas.Proofs.Graph.Neighbours

/-!
# Dependencies first, by repeated choice

A unit is ready once all units that it refers to are listed. Listing the ready unit with the
smallest name again and again comes to an end when no unit is ready any more. What is left then are
exactly the units that lie on a cycle or reach one: each of them refers to another one that is left,
and there are only finitely many.

## Main definitions

* `Graph.OnCycle` and `Graph.ReachesCycle` speak about cycles of edges.
* `Graph.Ready` says that a unit can be listed next.
* `Graph.Greedy` is the list that repeated choice of the smallest ready unit gives.
* `Graph.DependenciesFirst` says that a list has every unit after those that it refers to.

## Main results

* `Graph.Greedy.mem_iff`: the units listed are those that reach no cycle.
* `Graph.DependenciesFirst.not_onCycle`: there are no cycles if all dependencies can come first.
-/

namespace ClassAtlas.Graph

open Relation

/-- A path of edges leads from the unit back to it. -/
def OnCycle (g : Graph) (a : String) : Prop := TransGen g.Refers a a

/-- The unit lies on a cycle or reaches one. -/
def ReachesCycle (g : Graph) (a : String) : Prop := ∃ b, ReflTransGen g.Refers a b ∧ g.OnCycle b

/-- The unit is not listed, but all units that it refers to are. -/
def Ready (g : Graph) (listed : List String) (name : String) : Prop :=
  name ∈ g.names ∧ name ∉ listed ∧ ∀ b, g.Refers name b → b ∈ listed

/-- What is listed after some units if the smallest unit that is ready comes next, as long as there
is one. -/
inductive Greedy (g : Graph) : List String → List String → Prop where
  | done {listed : List String} : (∀ name, ¬g.Ready listed name) → Greedy g listed []
  | step {listed order : List String} {name : String} : g.Ready listed name →
    (∀ other, g.Ready listed other → name ≤ other) → Greedy g (listed ++ [name]) order →
    Greedy g listed (name :: order)

/-- The list has every unit, after all units that it refers to. -/
def DependenciesFirst (g : Graph) (order : List String) : Prop :=
  ∀ name ∈ g.names, ∃ before after, order = before ++ name :: after ∧
    ∀ b, g.Refers name b → b ∈ before

variable {g : Graph} {listed order : List String}

/-! ## Cycles -/

theorem ReachesCycle.of_refers {a b : String} (hab : g.Refers a b) (h : g.ReachesCycle b) :
    g.ReachesCycle a := by
  obtain ⟨c, hbc, hc⟩ := h
  exact ⟨c, .head hab hbc, hc⟩

theorem ReachesCycle.exists_refers {a : String} (h : g.ReachesCycle a) :
    ∃ b, g.Refers a b ∧ g.ReachesCycle b := by
  obtain ⟨c, hac, hc⟩ := h
  rcases ReflTransGen.cases_head hac with rfl | ⟨b, hab, hbc⟩
  · obtain ⟨b, hab, hba⟩ := TransGen.head'_iff.1 hc
    exact ⟨b, hab, a, hba, hc⟩
  · exact ⟨b, hab, c, hbc, hc⟩

/-- If no unit is ready, those that are left reach cycles. -/
theorem Consistent.reachesCycle_of_not_ready (hg : g.Consistent)
    (h : ∀ name, ¬g.Ready listed name) {m : String} (hm : m ∈ g.names) (hleft : m ∉ listed) :
    g.ReachesCycle m := by
  by_contra hcycle
  -- The units that are left without reaching a cycle are finitely many and ordered by reachability,
  -- so one of them is minimal; but it refers to another one.
  let Left := {a : String // a ∈ g.names ∧ a ∉ listed ∧ ¬g.ReachesCycle a}
  have : Finite Left := (g.names.finite_toSet.subset fun a ha => ha.1).to_subtype
  let below (a b : Left) : Prop := TransGen g.Refers b.1 a.1
  have : IsTrans Left below := ⟨fun _ _ _ hab hbc => hbc.trans hab⟩
  have : Std.Irrefl below := ⟨fun a ha => a.2.2.2 ⟨a.1, .refl, ha⟩⟩
  obtain ⟨a, -, hmin⟩ :=
    (Finite.wellFounded_of_trans_of_irrefl below).has_min Set.univ ⟨⟨m, hm, hleft, hcycle⟩, trivial⟩
  obtain ⟨ha, haleft, hacycle⟩ := a.2
  obtain ⟨b, hab, hb⟩ : ∃ b, g.Refers a.1 b ∧ b ∉ listed := by
    by_contra hnone
    push Not at hnone
    exact h a.1 ⟨ha, haleft, hnone⟩
  exact hmin ⟨b, hg.target_mem_of_refers hab, hb, fun hc => hacycle (.of_refers hab hc)⟩ trivial
    (.single hab)

/-! ## Repeated choice -/

namespace Greedy

theorem not_ready (h : g.Greedy listed order) (name : String) :
    ¬g.Ready (listed ++ order) name := by
  induction h with
  | done h => simpa using h name
  | step _ _ _ ih => simpa using ih

theorem nodup (h : g.Greedy listed order) (hlisted : listed.Nodup) : (listed ++ order).Nodup := by
  induction h with
  | done => simpa using hlisted
  | step hready _ _ ih =>
    simpa using ih (hlisted.append (List.nodup_singleton _)
      (List.disjoint_singleton.2 hready.2.1))

theorem mem_names (h : g.Greedy listed order) : ∀ m ∈ order, m ∈ g.names := by
  induction h with
  | done => simp
  | step hready _ _ ih => exact List.forall_mem_cons.2 ⟨hready.1, ih⟩

/-- Whatever is listed after units that reach no cycle reaches none either. -/
theorem not_reachesCycle (h : g.Greedy listed order)
    (hlisted : ∀ m ∈ listed, ¬g.ReachesCycle m) : ∀ m ∈ order, ¬g.ReachesCycle m := by
  induction h with
  | done => simp
  | @step listed order name hready _ _ ih =>
    have hname : ¬g.ReachesCycle name := by
      intro hcycle
      obtain ⟨b, hb, hbcycle⟩ := hcycle.exists_refers
      exact hlisted b (hready.2.2 b hb) hbcycle
    refine List.forall_mem_cons.2 ⟨hname, ih fun m hm => ?_⟩
    rcases List.mem_append.1 hm with hm | hm
    · exact hlisted m hm
    · exact List.mem_singleton.1 hm ▸ hname

theorem mem_iff (hg : g.Consistent) (h : g.Greedy [] order) {m : String} :
    m ∈ order ↔ m ∈ g.names ∧ ¬g.ReachesCycle m := by
  constructor
  · intro hm
    exact ⟨h.mem_names m hm, h.not_reachesCycle (by simp) m hm⟩
  · rintro ⟨hm, hcycle⟩
    by_contra hleft
    exact hcycle (hg.reachesCycle_of_not_ready h.not_ready hm (by simpa using hleft))

/-- Every unit comes after those that it refers to. -/
theorem mem_of_refers (h : g.Greedy listed order) {before after : List String} {name b : String}
    (horder : order = before ++ name :: after) (hb : g.Refers name b) : b ∈ listed ++ before := by
  induction h generalizing before with
  | done => simp at horder
  | step hready _ _ ih =>
    cases before with
    | nil =>
      obtain ⟨rfl, -⟩ := List.cons.inj horder
      simpa using hready.2.2 b hb
    | cons first before =>
      obtain ⟨rfl, htail⟩ := List.cons.inj horder
      simpa using ih htail

theorem dependenciesFirst (h : g.Greedy [] order) (hall : ∀ m ∈ g.names, m ∈ order) :
    g.DependenciesFirst order := by
  intro name hname
  obtain ⟨before, after, horder⟩ := List.append_of_mem (hall name hname)
  exact ⟨before, after, horder, fun b hb => by simpa using h.mem_of_refers horder hb⟩

/-- The units that are listed, and then those that are left, are all units. -/
theorem perm_names (h : g.Greedy [] order) :
    (order ++ g.names.filter (· ∉ order)).Perm g.names := by
  have hnodup : order.Nodup := by simpa using h.nodup List.nodup_nil
  refine (List.perm_ext_iff_of_nodup ?_ (nodup_names g)).2 fun m => ?_
  · refine hnodup.append ((nodup_names g).filter _) fun m hm hm' => ?_
    simp [hm] at hm'
  · rw [List.mem_append, List.mem_filter, decide_eq_true_iff]
    have hnames := h.mem_names m
    tauto

end Greedy

namespace DependenciesFirst

variable {a b : String}

theorem idxOf_lt_of_refers (h : g.DependenciesFirst order) (hnodup : order.Nodup)
    (hab : g.Refers a b) : order.idxOf b < order.idxOf a := by
  obtain ⟨before, after, rfl, hbefore⟩ := h a hab.source_mem
  have hb := hbefore b hab
  have ha : a ∉ before := fun ha =>
    (List.nodup_append.1 hnodup).2.2 a ha a List.mem_cons_self rfl
  rw [List.idxOf_append_of_mem hb, List.idxOf_append_of_notMem ha, List.idxOf_cons_self,
    Nat.add_zero]
  exact List.idxOf_lt_length_iff.2 hb

/-- Along edges the places get smaller, so no path leads back. -/
theorem not_onCycle (h : g.DependenciesFirst order) (hnodup : order.Nodup) (a : String) :
    ¬g.OnCycle a := by
  have hpath {b : String} (hab : TransGen g.Refers a b) : order.idxOf b < order.idxOf a := by
    induction hab with
    | single hab => exact h.idxOf_lt_of_refers hnodup hab
    | tail _ hbc ih => exact (h.idxOf_lt_of_refers hnodup hbc).trans ih
  exact fun ha => Nat.lt_irrefl _ (hpath ha)

end DependenciesFirst

end ClassAtlas.Graph
