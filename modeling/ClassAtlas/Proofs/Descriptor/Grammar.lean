import ClassAtlas.Descriptor.Basic

/-!
# The grammar of descriptors

```text
FieldText  := '['* ElementText                     at most 255 brackets
ElementText:= BaseType | 'L' ClassName ';'
MethodText := '(' FieldText* ')' (FieldText | 'V')
```

The grammar speaks of characters only. A text belongs to it exactly if it is the written form of a
well-formed type, and no text is both that of a field and that of a method.

## Main definitions

* `FieldText` and `MethodText` are the two halves of the grammar.
* `FieldType.WellFormed`, `MethodType.WellFormed` and `Descriptor.WellFormed` say that a type has at
  most 255 dimensions everywhere and names its classes legally.
-/

namespace ClassAtlas

/-! ## Texts -/

/-- The characters can name a class in a descriptor. -/
def IsClassName (name : List Char) : Prop := name ≠ [] ∧ ∀ c ∈ name, c ∉ [';', '[', '.', '<', '(']

instance (name : List Char) : Decidable (IsClassName name) :=
  @instDecidableAnd _ _ inferInstance (List.decidableBAll _ name)

/-- A type that is no array. -/
inductive ElementText : List Char → Prop where
  | base {c : Char} (hc : c ∈ ['B', 'C', 'D', 'F', 'I', 'J', 'S', 'Z']) : ElementText [c]
  | object {name : List Char} (hname : IsClassName name) : ElementText ('L' :: (name ++ [';']))

/-- The type of a field. -/
inductive FieldText : List Char → Prop where
  | mk {dims : Nat} {element : List Char} (hdims : dims ≤ 255) (helement : ElementText element) :
    FieldText (List.replicate dims '[' ++ element)

/-- Types of fields one after the other. -/
inductive FieldTexts : List Char → Prop where
  | nil : FieldTexts []
  | cons {first others : List Char} (hfirst : FieldText first) (hothers : FieldTexts others) :
    FieldTexts (first ++ others)

/-- The type of a method. -/
inductive MethodText : List Char → Prop where
  | void {params : List Char} (hparams : FieldTexts params) :
    MethodText ('(' :: (params ++ [')', 'V']))
  | typed {params result : List Char} (hparams : FieldTexts params) (hresult : FieldText result) :
    MethodText ('(' :: (params ++ ')' :: result))

/-! ## Well-formed types -/

def ElementType.WellFormed : ElementType → Prop
  | primitive _ => True
  | object name => IsClassName name.toList

structure FieldType.WellFormed (t : FieldType) : Prop where
  dims : t.dims ≤ 255
  element : t.element.WellFormed

structure MethodType.WellFormed (m : MethodType) : Prop where
  params : ∀ t ∈ m.params, t.WellFormed
  result : ∀ t ∈ m.result, t.WellFormed

def Descriptor.WellFormed : Descriptor → Prop
  | field t => t.WellFormed
  | method m => m.WellFormed

instance : (t : ElementType) → Decidable t.WellFormed
  | .primitive _ => inferInstanceAs (Decidable True)
  | .object name => inferInstanceAs (Decidable (IsClassName name.toList))

instance (t : FieldType) : Decidable t.WellFormed :=
  decidable_of_iff (t.dims ≤ 255 ∧ t.element.WellFormed)
    ⟨fun h => ⟨h.1, h.2⟩, fun h => ⟨h.dims, h.element⟩⟩

instance (m : MethodType) : Decidable m.WellFormed :=
  decidable_of_iff ((∀ t ∈ m.params, t.WellFormed) ∧ ∀ t ∈ m.result, t.WellFormed)
    ⟨fun h => ⟨h.1, h.2⟩, fun h => ⟨h.params, h.result⟩⟩

instance : (d : Descriptor) → Decidable d.WellFormed
  | .field t => inferInstanceAs (Decidable t.WellFormed)
  | .method m => inferInstanceAs (Decidable m.WellFormed)

/-- The characters that a type can start with, other than brackets. -/
def elementStarts : List Char := ['B', 'C', 'D', 'F', 'I', 'J', 'S', 'Z', 'L']

theorem ElementType.exists_chars_eq_cons (t : ElementType) :
    ∃ first ∈ elementStarts, ∃ others, t.chars = first :: others := by
  cases t with
  | primitive p => exact ⟨p.code, by cases p <;> decide, [], rfl⟩
  | object name => exact ⟨'L', by decide, _, rfl⟩

theorem FieldType.exists_chars_eq_cons (t : FieldType) :
    ∃ first ∈ '[' :: elementStarts, ∃ others, t.chars = first :: others := by
  obtain ⟨dims, element⟩ := t
  cases dims with
  | zero =>
    obtain ⟨first, hfirst, others, hchars⟩ := element.exists_chars_eq_cons
    exact ⟨first, List.mem_cons_of_mem _ hfirst, others, hchars⟩
  | succ dims => exact ⟨'[', List.mem_cons_self, List.replicate dims '[' ++ element.chars, rfl⟩

theorem elementText_iff {cs : List Char} :
    ElementText cs ↔ ∃ t : ElementType, t.WellFormed ∧ t.chars = cs := by
  constructor
  · rintro (hc | hname)
    · rename_i c
      obtain ⟨p, rfl⟩ : ∃ p : Primitive, p.code = c := by
        simp only [List.mem_cons, List.not_mem_nil, or_false] at hc
        rcases hc with rfl | rfl | rfl | rfl | rfl | rfl | rfl | rfl
        · exact ⟨.byte, rfl⟩
        · exact ⟨.char, rfl⟩
        · exact ⟨.double, rfl⟩
        · exact ⟨.float, rfl⟩
        · exact ⟨.int, rfl⟩
        · exact ⟨.long, rfl⟩
        · exact ⟨.short, rfl⟩
        · exact ⟨.boolean, rfl⟩
      exact ⟨.primitive p, trivial, rfl⟩
    · rename_i name
      refine ⟨.object (String.ofList name), ?_, ?_⟩
      · simpa [ElementType.WellFormed] using hname
      · simp [ElementType.chars]
  · rintro ⟨t, ht, rfl⟩
    cases t with
    | primitive p => exact .base (by cases p <;> decide)
    | object name => exact .object ht

theorem fieldText_iff {cs : List Char} :
    FieldText cs ↔ ∃ t : FieldType, t.WellFormed ∧ t.chars = cs := by
  constructor
  · rintro ⟨hdims, helement⟩
    obtain ⟨t, ht, rfl⟩ := elementText_iff.1 helement
    exact ⟨⟨_, t⟩, ⟨hdims, ht⟩, rfl⟩
  · rintro ⟨t, ht, rfl⟩
    exact .mk ht.dims (elementText_iff.2 ⟨t.element, ht.element, rfl⟩)

theorem fieldTexts_iff {cs : List Char} :
    FieldTexts cs ↔
      ∃ l : List FieldType, (∀ t ∈ l, t.WellFormed) ∧ l.flatMap FieldType.chars = cs := by
  constructor
  · intro h
    induction h with
    | nil => exact ⟨[], by simp, rfl⟩
    | cons hfirst _ ih =>
      obtain ⟨t, ht, rfl⟩ := fieldText_iff.1 hfirst
      obtain ⟨l, hl, rfl⟩ := ih
      exact ⟨t :: l, by simpa using ⟨ht, hl⟩, rfl⟩
  · rintro ⟨l, hl, rfl⟩
    induction l with
    | nil => exact .nil
    | cons t l ih =>
      rw [List.forall_mem_cons] at hl
      exact .cons (fieldText_iff.2 ⟨t, hl.1, rfl⟩) (ih hl.2)

theorem methodText_iff {cs : List Char} :
    MethodText cs ↔ ∃ m : MethodType, m.WellFormed ∧ m.chars = cs := by
  constructor
  · rintro (hparams | ⟨hparams, hresult⟩)
    · obtain ⟨l, hl, rfl⟩ := fieldTexts_iff.1 hparams
      exact ⟨⟨l, none⟩, ⟨hl, by simp⟩, rfl⟩
    · obtain ⟨l, hl, rfl⟩ := fieldTexts_iff.1 hparams
      obtain ⟨t, ht, rfl⟩ := fieldText_iff.1 hresult
      exact ⟨⟨l, some t⟩, ⟨hl, by simpa using ht⟩, rfl⟩
  · rintro ⟨⟨l, result⟩, hm, rfl⟩
    have hparams : FieldTexts (l.flatMap FieldType.chars) := fieldTexts_iff.2 ⟨l, hm.params, rfl⟩
    cases result with
    | none => exact .void hparams
    | some t => exact .typed hparams (fieldText_iff.2 ⟨t, hm.result t rfl, rfl⟩)

/-- The halves of the grammar can be told apart by the first character. -/
theorem FieldText.not_methodText {cs : List Char} (h : FieldText cs) : ¬ MethodText cs := by
  obtain ⟨t, -, rfl⟩ := fieldText_iff.1 h
  obtain ⟨first, hfirst, others, hchars⟩ := t.exists_chars_eq_cons
  rw [methodText_iff]
  rintro ⟨m, -, hm⟩
  have hparen : '(' = first := (List.cons.inj (hm.trans hchars)).1
  rw [← hparen] at hfirst
  revert hfirst
  decide

end ClassAtlas
