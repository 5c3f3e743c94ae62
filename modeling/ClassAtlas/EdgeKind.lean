import ClassAtlas.Order.SortedMap

/-!
# Kinds of references

The eight ways in which one unit can mention another, in their canonical order, and the `Link` that
pairs a unit with a kind.
-/

namespace ClassAtlas

/-- How one unit mentions another. -/
inductive EdgeKind where
  | superclass
  | interface
  | fieldType
  | methodParam
  | methodReturn
  | methodThrows
  | instructionRef
  | annotationRef
  deriving DecidableEq, Repr

namespace EdgeKind

/-- All kinds in canonical order. -/
def all : List EdgeKind :=
  [superclass, interface, fieldType, methodParam, methodReturn, methodThrows, instructionRef,
    annotationRef]

/-- Position in the canonical order. -/
def position : EdgeKind → Nat
  | superclass => 0
  | interface => 1
  | fieldType => 2
  | methodParam => 3
  | methodReturn => 4
  | methodThrows => 5
  | instructionRef => 6
  | annotationRef => 7

/-- The name of a kind in configurations and reports. -/
def label : EdgeKind → String
  | superclass => "extends"
  | interface => "implements"
  | fieldType => "field_type"
  | methodParam => "method_param"
  | methodReturn => "method_return"
  | methodThrows => "method_throws"
  | instructionRef => "instruction_ref"
  | annotationRef => "annotation_ref"

/-- The kind with a given label. -/
def ofLabel? (text : String) : Option EdgeKind := all.find? fun k => k.label == text

/-- What is reported for a text that is no label. -/
def unknownMessage (text : String) : String :=
  s!"Unknown edge kind '{text}'. Valid kinds: " ++ ", ".intercalate (all.map label)

/-- Kinds of the class hierarchy. -/
def isInheritance : EdgeKind → Bool
  | superclass | interface => true
  | _ => false

/-- Kinds that come from the declared types of members. -/
def isSignature : EdgeKind → Bool
  | fieldType | methodParam | methodReturn | methodThrows => true
  | _ => false

theorem position_injective {a b : EdgeKind} (h : a.position = b.position) : a = b := by
  cases a <;> cases b <;> simp_all [position]

theorem mem_all (k : EdgeKind) : k ∈ all := by cases k <;> decide

theorem ofLabel?_label (k : EdgeKind) : ofLabel? k.label = some k := by cases k <;> decide

instance : Ord EdgeKind := ⟨compareOn position⟩

instance : Std.TransOrd EdgeKind := inferInstanceAs (Std.TransCmp (compareOn position))

instance : Std.LawfulEqOrd EdgeKind where
  eq_of_compare h := position_injective (Nat.compare_eq_eq.1 h)

end EdgeKind

/-- A unit together with the kind of reference that leads to it, or comes from it. -/
structure Link where
  unit : String
  kind : EdgeKind
  deriving DecidableEq

namespace Link

/-- Links are ordered by unit and then by kind. -/
instance : Ord Link := ⟨compareLex (compareOn unit) (compareOn kind)⟩

instance : Std.TransOrd Link :=
  inferInstanceAs (Std.TransCmp (compareLex (compareOn unit) (compareOn kind)))

instance : Std.LawfulEqOrd Link where
  compare_self {a} := by
    show compareLex (compareOn unit) (compareOn kind) a a = .eq
    simp [compareLex, compareOn]
  eq_of_compare {a b} h := by
    replace h : (compare a.unit b.unit).then (compare a.kind b.kind) = .eq := h
    rw [Ordering.then_eq_eq] at h
    obtain ⟨hu, hk⟩ := h
    cases a
    cases b
    cases Std.LawfulEqCmp.eq_of_compare hu
    cases Std.LawfulEqCmp.eq_of_compare hk
    rfl

end Link

end ClassAtlas
