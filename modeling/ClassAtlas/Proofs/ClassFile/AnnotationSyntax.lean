import ClassAtlas.Binary.Word
import ClassAtlas.ClassFile.Annotations

/-!
# The written form of annotations

Annotations and their element values have one written form each. An annotation of a use of a type is
written with a table or a path of which the decoder keeps the length alone, so it has many.

## Main definitions

* `ElementValue.Holds` relates an element value to those that stand some levels inside it.
* `ElementValue.Written`, `AnnotationInfo.Written` and `TypeAnnotationInfo.Written` relate values to
  their written forms. The forms exist for values of the right shape, with counts of two bytes.
-/

namespace ClassAtlas

/-! ## Element values -/

namespace ElementValue

/-- The values directly inside a value. -/
def inner : ElementValue → List ElementValue
  | nested _ elements => elements.map (·.2)
  | array values => values
  | const .. | enum .. | classInfo _ => []

/-- The value `w` stands `n` levels inside the value `v`. -/
inductive Holds : (v : ElementValue) → (n : Nat) → (w : ElementValue) → Prop
  | here (v : ElementValue) : Holds v 0 v
  | inside {v c w : ElementValue} {n : Nat} (hc : c ∈ v.inner) (h : Holds c n w) :
      Holds v (n + 1) w

theorem forall_holds_iff {v : ElementValue} {P : Nat → ElementValue → Prop} :
    (∀ n w, v.Holds n w → P n w) ↔
      P 0 v ∧ ∀ c ∈ v.inner, ∀ n w, c.Holds n w → P (n + 1) w := by
  constructor
  · intro h
    exact ⟨h 0 v (.here v), fun c hc n w hw => h (n + 1) w (.inside hc hw)⟩
  · rintro ⟨hhere, hinside⟩ n w (_ | ⟨hc, hw⟩)
    · exact hhere
    · exact hinside _ hc _ w hw

/-- The tag of a constant is one of those that there are, and the number of elements or values inside
has two bytes. -/
def Shaped : ElementValue → Prop
  | const tag _ => tag ∈ constTags
  | nested _ elements => elements.length ≤ 65535
  | array values => values.length ≤ 65535
  | enum .. | classInfo _ => True

mutual

/-- A tag, and the indices or the values inside. -/
def bytes : ElementValue → List UInt8
  | const tag index => tag :: Binary.word16 index
  | enum type name => 'e'.toUInt8 :: (Binary.word16 type ++ Binary.word16 name)
  | classInfo descriptor => 'c'.toUInt8 :: Binary.word16 descriptor
  | nested type elements => '@'.toUInt8 ::
      (Binary.word16 type ++ (Binary.toBigEndian 2 elements.length ++ elementsBytes elements))
  | array values => '['.toUInt8 :: (Binary.toBigEndian 2 values.length ++ valuesBytes values)

def elementsBytes : List (UInt16 × ElementValue) → List UInt8
  | [] => []
  | (name, value) :: rest => Binary.word16 name ++ value.bytes ++ elementsBytes rest

def valuesBytes : List ElementValue → List UInt8
  | [] => []
  | value :: rest => value.bytes ++ valuesBytes rest

end

theorem elementsBytes_eq_flatten (l : List (UInt16 × ElementValue)) :
    elementsBytes l = (l.map fun e => Binary.word16 e.1 ++ e.2.bytes).flatten := by
  induction l with
  | nil => rw [elementsBytes, List.map_nil, List.flatten_nil]
  | cons e l ih => rw [elementsBytes, ih, List.map_cons, List.flatten_cons]

theorem valuesBytes_eq_flatten (l : List ElementValue) :
    valuesBytes l = (l.map bytes).flatten := by
  induction l with
  | nil => rw [valuesBytes, List.map_nil, List.flatten_nil]
  | cons v l ih => rw [valuesBytes, ih, List.map_cons, List.flatten_cons]

/-- The bytes are the written form of a value in which every value has the right shape. -/
def Written (v : ElementValue) (written : List UInt8) : Prop :=
  (∀ n w, v.Holds n w → w.Shaped) ∧ written = v.bytes

end ElementValue

/-! ## Annotations -/

namespace AnnotationInfo

/-- The value stands `n` levels inside an element of the annotation. -/
def Holds (a : AnnotationInfo) (n : Nat) (w : ElementValue) : Prop :=
  ∃ e ∈ a.elements, e.2.Holds n w

/-- The index of the type, and the elements behind their number. -/
def bytes (a : AnnotationInfo) : List UInt8 :=
  Binary.word16 a.type ++ (Binary.toBigEndian 2 a.elements.length ++
    ElementValue.elementsBytes a.elements)

def Written (a : AnnotationInfo) (written : List UInt8) : Prop :=
  a.elements.length ≤ 65535 ∧ (∀ n w, a.Holds n w → w.Shaped) ∧ written = a.bytes

end AnnotationInfo

/-! ## Annotations of uses of types -/

/-- A range of code in which a local variable has a value. -/
structure VariableRange where
  startPc : UInt16
  length : UInt16
  index : UInt16

def VariableRange.bytes (r : VariableRange) : List UInt8 :=
  Binary.word16 r.startPc ++ (Binary.word16 r.length ++ Binary.word16 r.index)

/-- A step towards a part of a type. -/
structure PathStep where
  kind : UInt8
  argument : UInt8

def PathStep.bytes (s : PathStep) : List UInt8 := [s.kind, s.argument]

/-- The layouts of targets, each with the kinds that have it. -/
inductive AnnotationTarget.Written :
    (kind : UInt8) → AnnotationTarget → (written : List UInt8) → Prop
  | typeParameter {kind : UInt8} (h : kind ≤ 0x01) (index : UInt8) :
      Written kind (.typeParameter index) [index]
  | supertype (index : UInt16) : Written 0x10 (.supertype index) (Binary.word16 index)
  | typeParameterBound {kind : UInt8} (h : kind = 0x11 ∨ kind = 0x12) (parameter bound : UInt8) :
      Written kind (.typeParameterBound parameter bound) [parameter, bound]
  | empty {kind : UInt8} (h : 0x13 ≤ kind ∧ kind ≤ 0x15) : Written kind .empty []
  | formalParameter (index : UInt8) : Written 0x16 (.formalParameter index) [index]
  | throws (index : UInt16) : Written 0x17 (.throws index) (Binary.word16 index)
  | localVariable {kind : UInt8} (h : kind = 0x40 ∨ kind = 0x41) {entries : UInt16}
      {table : List VariableRange} (htable : table.length = entries.toNat) :
      Written kind (.localVariable entries)
        (Binary.word16 entries ++ table.flatMap VariableRange.bytes)
  | handler (index : UInt16) : Written 0x42 (.handler index) (Binary.word16 index)
  | offset {kind : UInt8} (h : 0x43 ≤ kind ∧ kind ≤ 0x46) (offset : UInt16) :
      Written kind (.offset offset) (Binary.word16 offset)
  | typeArgument {kind : UInt8} (h : 0x47 ≤ kind ∧ kind ≤ 0x4B) (offset : UInt16) (index : UInt8) :
      Written kind (.typeArgument offset index) (Binary.word16 offset ++ [index])

namespace TypeAnnotationInfo

/-- The value stands `n` levels inside an element of the annotation. -/
def Holds (t : TypeAnnotationInfo) (n : Nat) (w : ElementValue) : Prop := t.info.Holds n w

/-- The kind of the target, the target, the path behind its length, and the annotation. -/
def Written (t : TypeAnnotationInfo) (written : List UInt8) : Prop :=
  ∃ (target : List UInt8) (path : List PathStep) (info : List UInt8),
    t.target.Written t.targetType target ∧ path.length = t.pathLength.toNat ∧
    t.info.Written info ∧
    written = t.targetType :: (target ++ (t.pathLength :: (path.flatMap PathStep.bytes ++ info)))

end TypeAnnotationInfo

end ClassAtlas
