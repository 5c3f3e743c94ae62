import Mathlib.Logic.Relation
import ClassAtlas.Graph.Walk
import ClassAtlas.Proofs.Graph.Ingestion

/-!
# Walks and reachability

A transitive walk lists what can be reached. The walk keeps a stack and the names visited; its
invariant is about paths that avoid the names visited: what is still to be listed is what such a
path reaches from the stack.

## Main definitions

* `Graph.Avoiding` says that a path leads from one name to another around given names.
* `Graph.pending` bounds the steps that a walk still makes.
* `Graph.Reaches` says that references lead from one unit to another.
-/

namespace ClassAtlas

namespace Graph

open Relation

/-! ## Paths around visited names -/

/-- A path leads from a name to another, and no name after the first one is in `visited`. -/
def Avoiding (next : String → List String) (visited : List String) : String → String → Prop :=
  ReflTransGen fun a b => b ∈ next a ∧ b ∉ visited

theorem Avoiding.of_cons {next : String → List String} {visited : List String} {x a b : String}
    (h : Avoiding next (x :: visited) a b) : Avoiding next visited a b :=
  ReflTransGen.mono (fun _ _ hab => ⟨hab.1, fun hv => hab.2 (List.mem_cons_of_mem x hv)⟩) _ _ h

/-- A path that starts outside of `visited` stays there. -/
theorem Avoiding.notMem {next : String → List String} {visited : List String} {a b : String}
    (h : Avoiding next visited a b) (ha : a ∉ visited) : b ∉ visited := by
  rcases ReflTransGen.cases_tail h with rfl | ⟨_, _, hb⟩
  · exact ha
  · exact hb.2

/-- A path goes around `x`, or it ends there, or what follows the last visit to `x` goes around
it. -/
theorem Avoiding.split {next : String → List String} {visited : List String} {a b : String}
    (h : Avoiding next visited a b) (x : String) :
    (a ≠ x ∧ Avoiding next (x :: visited) a b) ∨ b = x ∨
      ∃ t ∈ next x, t ∉ x :: visited ∧ Avoiding next (x :: visited) t b := by
  induction h with
  | refl =>
    by_cases hx : a = x
    · exact .inr (.inl hx)
    · exact .inl ⟨hx, .refl⟩
  | @tail b c _ hbc ih =>
    by_cases hx : c = x
    · exact .inr (.inl hx)
    · have hc : c ∉ x :: visited := by simp [hx, hbc.2]
      rcases ih with ⟨ha, hab⟩ | rfl | ⟨t, ht, htv, htb⟩
      · exact .inl ⟨ha, hab.tail ⟨hbc.1, hc⟩⟩
      · exact .inr (.inr ⟨c, hbc.1, hc, .refl⟩)
      · exact .inr (.inr ⟨t, ht, htv, htb.tail ⟨hbc.1, hc⟩⟩)

/-! ## What an exploration lists -/

/-- How many names the unvisited ones among `names` can still put on the stack. -/
def pending (next : String → List String) (names visited : List String) : Nat :=
  sumOf (fun name => if name ∈ visited then 0 else (next name).length) names

theorem pending_cons_le (next : String → List String) (names visited : List String)
    (name : String) : pending next names (name :: visited) ≤ pending next names visited := by
  induction names with
  | nil => simp [pending]
  | cons other names ih =>
    simp only [pending, sumOf_cons, List.mem_cons] at ih ⊢
    by_cases ho : other = name
    · simp only [ho, true_or, if_true]
      omega
    · simp only [ho, false_or]
      omega

/-- A name that is visited for the first time puts its neighbours on the stack, and is no longer
pending. -/
theorem length_add_pending_le {next : String → List String} {names visited : List String}
    {name : String} (hnext : name ∉ names → next name = []) (hnew : name ∉ visited) :
    (next name).length + pending next names (name :: visited) ≤ pending next names visited := by
  by_cases hn : name ∈ names
  · clear hnext
    induction names with
    | nil => simp at hn
    | cons other names ih =>
      by_cases ho : other = name
      · subst ho
        have hle := pending_cons_le next names visited other
        simpa [pending, hnew] using hle
      · have hrest := ih (by simpa [Ne.symm ho] using hn)
        simp only [pending, sumOf_cons, List.mem_cons, ho, false_or] at hrest ⊢
        omega
  · have hle := pending_cons_le next names visited name
    simpa [hnext hn] using hle

/-- With enough steps, an exploration lists what paths around the visited names reach from the
stack. -/
theorem mem_explore {next : String → List String} {names : List String}
    (hnext : ∀ name, name ∉ names → next name = []) (n : Nat) (stack visited : List String)
    (hn : stack.length + pending next names visited ≤ n) (m : String) :
    m ∈ explore next n stack visited ↔
      ∃ s ∈ stack, s ∉ visited ∧ Avoiding next visited s m := by
  induction n generalizing stack visited with
  | zero =>
    have hs : stack = [] := List.length_eq_zero_iff.1 (by omega)
    simp [explore, hs]
  | succ n ih =>
    cases stack with
    | nil => simp [explore]
    | cons name stack =>
      rw [List.length_cons] at hn
      by_cases hv : name ∈ visited
      · simp [explore, hv, ih stack visited (by omega)]
      · have hle := length_add_pending_le (hnext name) hv
        have hstep := ih (next name ++ stack) (name :: visited) (by rw [List.length_append]; omega)
        simp only [explore, List.contains_iff_mem, hv, if_false, List.mem_cons, hstep,
          List.mem_append]
        constructor
        · rintro (rfl | ⟨s, hs | hs, hsv, hsm⟩)
          · exact ⟨m, .inl rfl, hv, .refl⟩
          · have hsv' : s ∉ visited := fun h => hsv (.inr h)
            exact ⟨name, .inl rfl, hv, .head ⟨hs, hsv'⟩ hsm.of_cons⟩
          · exact ⟨s, .inr hs, fun h => hsv (.inr h), hsm.of_cons⟩
        · rintro ⟨s, hs, hsv, hsm⟩
          -- What lies on the path after the last visit to `name` avoids it.
          rcases hsm.split name with ⟨hne, hsm⟩ | rfl | ⟨t, ht, htv, htm⟩
          · exact .inr ⟨s, .inr (hs.resolve_left hne), by simp [hne, hsv], hsm⟩
          · exact .inl rfl
          · exact .inr ⟨t, .inl ht, by simpa using htv, htm⟩

/-! ## What a walk lists -/

/-- References lead from one unit to the other, in any number of steps. -/
def Reaches (g : Graph) : String → String → Prop :=
  ReflTransGen fun a b => b ∈ g.successorsOf a

theorem mem_successorsOf {g : Graph} {a b : String} :
    b ∈ g.successorsOf a ↔ ∃ e ∈ g.edges, e.source = a ∧ e.target = b := by
  simp only [mem_edges, successorsOf]
  cases hnode : g.nodeAt? a with
  | none =>
    refine ⟨by simp, ?_⟩
    rintro ⟨e, ⟨node, hn, _⟩, rfl, _⟩
    simp [hn] at hnode
  | some node =>
    simp only [Option.elim_some, Node.successors, mem_sortedDistinct, List.mem_map,
      SortedMap.mem_keys, SortedMap.contains, Option.isSome_iff_exists]
    constructor
    · rintro ⟨link, ⟨n, hn⟩, rfl⟩
      exact ⟨⟨a, link.unit, link.kind, n⟩, ⟨node, hnode, hn⟩, rfl, rfl⟩
    · rintro ⟨e, ⟨node', hn, hc⟩, rfl, rfl⟩
      obtain rfl : node = node' := by simpa [hnode] using hn
      exact ⟨⟨e.target, e.kind⟩, ⟨e.count, hc⟩, rfl⟩

theorem neighbours_eq_nil {g : Graph} {name : String} (h : name ∉ g.names)
    (direction : Direction) : g.neighbours direction name = [] := by
  have hnone : g.nodeAt? name = none := by
    by_contra hc
    exact h (mem_names.2 (Option.ne_none_iff_exists'.1 hc))
  cases direction <;> simp [neighbours, successorsOf, predecessorsOf, hnone]

/-- A transitive walk lists what can be reached, without the start. -/
theorem mem_walkFrom {g : Graph} {direction : Direction} {start m : String} :
    m ∈ g.walkFrom direction true start ↔
      m ≠ start ∧ ReflTransGen (fun a b => b ∈ g.neighbours direction a) start m := by
  have hnext (name : String) : name ∉ g.names → g.neighbours direction name = [] :=
    fun h => neighbours_eq_nil h direction
  have hfuel : _ ≤ pending (g.neighbours direction) g.names [] :=
    length_add_pending_le (hnext start) List.not_mem_nil
  have htotal : pending (g.neighbours direction) g.names [] = g.neighbourTotal direction := by
    simp [pending, neighbourTotal]
  simp only [walkFrom, if_true, mem_explore hnext _ _ _ (htotal ▸ hfuel)]
  constructor
  · rintro ⟨s, hs, hsv, hsm⟩
    exact ⟨by simpa using hsm.notMem hsv,
      .head hs (ReflTransGen.mono (fun _ _ hab => hab.1) _ _ hsm)⟩
  · rintro ⟨hne, hm⟩
    have hm' : Avoiding (g.neighbours direction) [] start m :=
      ReflTransGen.mono (fun _ _ hab => ⟨hab, List.not_mem_nil⟩) _ _ hm
    rcases hm'.split start with ⟨h, _⟩ | h | h
    · exact absurd rfl h
    · exact absurd h hne
    · exact h

/-- The dependencies of a unit, given by its stored name, are what it reaches. -/
theorem mem_dependenciesOf {g : Graph} {name m : String} (hname : Name.normalize name = name) :
    m ∈ g.dependenciesOf name true ↔ m ≠ name ∧ g.Reaches name m := by
  rw [dependenciesOf, walk, key?, hname]
  split
  · exact mem_walkFrom
  · next hnone =>
    refine ⟨by simp, fun ⟨hne, hm⟩ => ?_⟩
    have hnil : g.successorsOf name = [] :=
      neighbours_eq_nil (fun h => hnone (SortedMap.mem_keys.1 h)) .dependencies
    rcases ReflTransGen.cases_head hm with rfl | ⟨t, ht, _⟩
    · exact absurd rfl hne
    · simp [hnil] at ht

/-- The missing dependencies are those that are not resolved. -/
theorem mem_missingDependencies {g : Graph} {root m : String}
    (hroot : Name.normalize root = root) :
    m ∈ g.missingDependencies root ↔
      (m ≠ root ∧ g.Reaches root m) ∧ ∃ node, g.nodeAt? m = some node ∧ node.resolved = false := by
  simp [missingDependencies, mem_sortedDistinct, List.mem_filter, mem_dependenciesOf hroot,
    Option.any_eq_true]

end Graph

end ClassAtlas
