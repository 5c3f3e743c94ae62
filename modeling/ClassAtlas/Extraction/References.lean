import ClassAtlas.Count
import ClassAtlas.EdgeKind
import ClassAtlas.Name
import ClassAtlas.Sum

/-!
# References of a unit

How often a unit mentions each other unit, by kind. References of a unit to itself, to primitive
types and to arrays of them are not kept, and a reference to an array counts for its element class.
-/

namespace ClassAtlas

/-- The references of one unit. -/
structure UnitReferences where
  unit : String
  counts : SortedMap Link Count
  deriving DecidableEq

namespace UnitReferences

/-- A unit without references. -/
def empty (unit : String) : UnitReferences := ⟨unit, ∅⟩

/-- Adds `n` mentions. -/
def addCount (refs : UnitReferences) (target : String) (kind : EdgeKind) (n : Count) :
    UnitReferences :=
  match Name.elementClass? target with
  | none => refs
  | some target =>
    if n = 0 ∨ target = refs.unit then refs
    else { refs with counts := refs.counts.alter ⟨target, kind⟩ fun old => old.getD 0 + n }

/-- Adds one mention. -/
def add (refs : UnitReferences) (target : String) (kind : EdgeKind) : UnitReferences :=
  refs.addCount target kind (.ofNat 1)

/-- How often `target` is mentioned in this way. -/
def count (refs : UnitReferences) (target : String) (kind : EdgeKind) : Count :=
  (refs.counts.get? ⟨target, kind⟩).getD 0

/-- The units that are mentioned, in order. -/
def targets (refs : UnitReferences) : List String :=
  sortedDistinct (refs.counts.keys.map Link.unit)

/-- The number of mentions in all. -/
def total (refs : UnitReferences) : Nat := sumOf Count.val refs.counts.values

/-- Adds numbers of mentions, each under its link. -/
def addAll (refs : UnitReferences) (mentions : List (Link × Nat)) : UnitReferences :=
  mentions.foldl (fun refs m => refs.addCount m.1.unit m.1.kind (.ofNat m.2)) refs

theorem unit_addCount (refs : UnitReferences) (unit : String) (k : EdgeKind) (n : Count) :
    (refs.addCount unit k n).unit = refs.unit := by
  rw [addCount]
  split
  · rfl
  · split <;> rfl

theorem unit_addAll (refs : UnitReferences) (mentions : List (Link × Nat)) :
    (refs.addAll mentions).unit = refs.unit := by
  induction mentions generalizing refs with
  | nil => rfl
  | cons m mentions ih =>
    rw [addAll, List.foldl_cons, ← addAll, ih, unit_addCount]

end UnitReferences

end ClassAtlas
