import Mathlib.Data.List.Count
import ClassAtlas.Extraction.Extractor
import ClassAtlas.Proofs.Descriptor.Names

/-!
# Adding mentions up

What the references of a unit say about one target and one kind, in terms of the mentions that were
added: saturation and the order of additions do not show, and the tally of a declaration adds up to
the number of times that the target is named in it.

## Main definitions

* `timesNamed` counts a target among names given by kind.
* `timesMentioned` counts it among mentions, where the name of an array stands for its element.
-/

namespace ClassAtlas

open Name

/-- How often a class is named under a kind. -/
def timesNamed (parts : List (EdgeKind × List String)) (target : String) (kind : EdgeKind) : Nat :=
  sumOf (fun part => if part.1 = kind then part.2.count target else 0) parts

/-- How often mentions stand for a class under a kind. -/
def timesMentioned (mentions : Mentions) (target : String) (kind : EdgeKind) : Nat :=
  sumOf (fun m => if elementClass? m.1.unit = some target ∧ m.1.kind = kind then m.2 else 0)
    mentions

section

variable {α : Type}

theorem sumOf_congr {f g : α → Nat} {l : List α} (h : ∀ a ∈ l, f a = g a) :
    sumOf f l = sumOf g l := by
  induction l with
  | nil => rfl
  | cons a l ih =>
    rw [sumOf_cons, sumOf_cons, h a List.mem_cons_self,
      ih fun b hb => h b (List.mem_cons_of_mem a hb)]

theorem sumOf_ite (p : α → Prop) [DecidablePred p] (f : α → Nat) (l : List α) :
    sumOf (fun a => if p a then f a else 0) l = sumOf f (l.filter p) := by
  induction l with
  | nil => rfl
  | cons a l ih => by_cases h : p a <;> simp [h, ih]

end

/-! ## Tallies -/

theorem timesNamed_eq_zero {parts : List (EdgeKind × List String)} {target : String}
    (h : ∀ part ∈ parts, target ∉ part.2) (kind : EdgeKind) : timesNamed parts target kind = 0 := by
  induction parts with
  | nil => rfl
  | cons part parts ih =>
    rw [timesNamed, sumOf_cons, List.count_eq_zero_of_not_mem (h part List.mem_cons_self), ite_self,
      Nat.zero_add]
    exact ih fun other hother => h other (List.mem_cons_of_mem part hother)

namespace Tally

variable {target : String} {kind : EdgeKind}

theorem getD_addNames (tally : Tally) (k : EdgeKind) (names : List String) (link : Link) :
    ((tally.addNames k names).get? link).getD 0 =
      (tally.get? link).getD 0 + if k = link.kind then names.count link.unit else 0 := by
  induction names generalizing tally with
  | nil => simp [addNames]
  | cons name names ih =>
    rw [addNames, List.foldl_cons, ← addNames, ih, SortedMap.get?_alter]
    by_cases hk : k = link.kind
    · by_cases hname : name = link.unit
      · have hlink : link = ⟨name, k⟩ := by rw [hname, hk]
        simp only [hlink, if_true, Option.getD_some, List.count_cons_self]
        omega
      · have hlink : link ≠ ⟨name, k⟩ := fun h => hname (by rw [h])
        rw [if_neg hlink, if_pos hk, if_pos hk, List.count_cons_of_ne hname]
    · have hlink : link ≠ ⟨name, k⟩ := fun h => hk (by rw [h])
      simp only [if_neg hk, if_neg hlink]

theorem getD_ofNames (parts : List (EdgeKind × List String)) (link : Link) :
    ((ofNames parts).get? link).getD 0 = timesNamed parts link.unit link.kind := by
  suffices h : ∀ tally : Tally,
      ((parts.foldl (fun t part => t.addNames part.1 part.2) tally).get? link).getD 0 =
        (tally.get? link).getD 0 + timesNamed parts link.unit link.kind by
    have hempty := h SortedMap.empty
    rwa [SortedMap.get?_empty, Option.getD_none, Nat.zero_add] at hempty
  induction parts with
  | nil => exact fun tally => rfl
  | cons part parts ih =>
    intro tally
    rw [List.foldl_cons, ih, getD_addNames, Nat.add_assoc]
    rfl

theorem getD_mergeMax (tally other : Tally) (link : Link) :
    ((tally.mergeMax other).get? link).getD 0 =
      max ((tally.get? link).getD 0) ((other.get? link).getD 0) := by
  rw [mergeMax, SortedMap.get?_foldl_alter (fun e : Link × Nat => e.1)
    (fun e old => max (old.getD 0) e.2), SortedMap.filter_toList]
  cases other.get? link with
  | none => simp
  | some n => simp

/-- A tally of plain names is added up to what it says about the target. -/
theorem timesMentioned_toList {tally : Tally}
    (hplain : ∀ link, ¬ IsPlain link.unit → (tally.get? link).getD 0 = 0) (ht : target ≠ "") :
    timesMentioned tally.toList target kind = (tally.get? ⟨target, kind⟩).getD 0 := by
  have hentry : ∀ e ∈ tally.toList,
      (if elementClass? e.1.unit = some target ∧ e.1.kind = kind then e.2 else 0) =
        if e.1 = ⟨target, kind⟩ then e.2 else 0 := by
    intro e he
    have hvalue : tally.get? e.1 = some e.2 := SortedMap.mem_toList.1 he
    by_cases hunit : IsPlain e.1.unit
    · obtain ⟨⟨unit, k⟩, n⟩ := e
      simp only [elementClass?_eq_some_iff hunit ht, Link.mk.injEq]
    · have hzero := hplain e.1 hunit
      rw [hvalue, Option.getD_some] at hzero
      simp [hzero]
  rw [timesMentioned, sumOf_congr hentry, sumOf_ite, SortedMap.filter_toList]
  cases tally.get? ⟨target, kind⟩ with
  | none => rfl
  | some n => simp

end Tally

/-! ## Mentions -/

section

variable {target : String} {kind : EdgeKind}

theorem timesMentioned_append (l m : Mentions) :
    timesMentioned (l ++ m) target kind =
      timesMentioned l target kind + timesMentioned m target kind := sumOf_append _ _ _

theorem timesMentioned_mentionAll {k : EdgeKind} {names : List String} (h : AllPlain names)
    (ht : target ≠ "") :
    timesMentioned (Extract.mentionAll k names) target kind =
      if k = kind then names.count target else 0 := by
  induction names with
  | nil => simp [Extract.mentionAll, timesMentioned]
  | cons name names ih =>
    have hname := elementClass?_eq_some_iff (h name List.mem_cons_self) ht
    have hrest := ih fun n hn => h n (List.mem_cons_of_mem name hn)
    simp only [Extract.mentionAll, timesMentioned, List.map_cons, sumOf_cons, hname] at hrest ⊢
    rw [hrest, List.count_cons]
    by_cases hk : k = kind <;> by_cases heq : name = target <;> simp [hk, heq, Nat.add_comm]

end

namespace UnitReferences

variable {refs : UnitReferences} {target : String} {kind : EdgeKind}

theorem count_addCount (ht : target ≠ refs.unit) (unit : String) (k : EdgeKind) (n : Nat) :
    (refs.addCount unit k (.ofNat n)).count target kind = refs.count target kind +
      .ofNat (if elementClass? unit = some target ∧ k = kind then n else 0) := by
  have hzero (a : Count) : a + .ofNat 0 = a := by
    rw [← a.ofNat_val, Count.ofNat_add, Nat.add_zero]
  rw [addCount]
  split
  · next hnone => simp [hnone, hzero]
  · next leaf hleaf =>
    simp only [hleaf, Option.some_inj]
    split
    · next hskip =>
      -- nothing is added: there are no mentions, or they are of the unit itself
      rcases hskip with hn | rfl
      · have hval : min n Count.cap = min 0 Count.cap := congrArg Count.val hn
        have hn : n = 0 := by
          rw [Count.cap] at hval
          omega
        simp [hn, hzero]
      · rw [if_neg fun h => ht h.1.symm, hzero]
    · rw [count, SortedMap.get?_alter]
      by_cases hlink : leaf = target ∧ k = kind
      · obtain ⟨rfl, rfl⟩ := hlink
        simp [count]
      · have hne : (⟨target, kind⟩ : Link) ≠ ⟨leaf, k⟩ := fun h => by
          cases h
          exact hlink ⟨rfl, rfl⟩
        rw [if_neg hne, if_neg hlink, hzero, count]

/-- The references say how often a target other than the unit was mentioned. -/
theorem count_addAll (ht : target ≠ refs.unit) (mentions : Mentions) :
    (refs.addAll mentions).count target kind =
      refs.count target kind + .ofNat (timesMentioned mentions target kind) := by
  induction mentions generalizing refs with
  | nil =>
    rw [← (refs.count target kind).ofNat_val, timesMentioned, sumOf_nil, Count.ofNat_add]
    simp [addAll]
  | cons m mentions ih =>
    rw [addAll, List.foldl_cons, ← addAll, ih (by rwa [unit_addCount]), count_addCount ht,
      Count.add_assoc, Count.ofNat_add]
    rfl

end UnitReferences

end ClassAtlas
