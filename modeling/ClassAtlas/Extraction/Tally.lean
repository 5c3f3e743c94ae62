import ClassAtlas.EdgeKind

/-!
# Tallies of a member

The mentions in one member, or in the header of a class, before they are added to those of the unit.
A descriptor and a generic signature are two views of one declaration, so their tallies are joined
by taking the larger number for each link.
-/

namespace ClassAtlas

/-- Numbers of mentions by link. -/
abbrev Tally := SortedMap Link Nat

namespace Tally

/-- Counts each name once per occurrence, under one kind. -/
def addNames (tally : Tally) (kind : EdgeKind) (names : List String) : Tally :=
  names.foldl (fun t name => t.alter ⟨name, kind⟩ fun old => old.getD 0 + 1) tally

/-- The tally of names given by kind. -/
def ofNames (parts : List (EdgeKind × List String)) : Tally :=
  parts.foldl (fun t part => t.addNames part.1 part.2) SortedMap.empty

/-- The larger of two tallies at each link. -/
def mergeMax (tally other : Tally) : Tally :=
  other.toList.foldl (fun t e => t.alter e.1 fun old => max (old.getD 0) e.2) tally

end Tally

end ClassAtlas
