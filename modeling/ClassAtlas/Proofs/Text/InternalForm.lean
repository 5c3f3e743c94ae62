import Mathlib.Data.List.DropRight
import Mathlib.Data.List.Infix
import ClassAtlas.Name

/-!
# Names in internal form

Bringing a name to internal form removes the blanks around it, a file ending, and the dots. What is
left as it was are the names that have none of these.

## Main definitions

* `Text.trimmed` is a text without the blanks around it.
* `Name.IsInternal` says on characters that a name is in internal form.
-/

namespace ClassAtlas

namespace Text

variable {cs : List Char}

/-- A text without the blanks around it. -/
def trimmed (text : String) : String := String.ofList (trim text.toList)

theorem mem_of_mem_trim {c : Char} (h : c ∈ trim cs) : c ∈ cs := by
  rw [trim, List.mem_reverse] at h
  have hstart := (List.dropWhile_sublist _).mem h
  exact (List.dropWhile_sublist _).mem (List.mem_reverse.1 hstart)

/-- A text is left as it is if there is no blank at either end. -/
theorem trim_eq_self_iff : trim cs = cs ↔
    (∀ c ∈ cs.head?, isBlank c = false) ∧ ∀ c ∈ cs.getLast?, isBlank c = false := by
  have hstart : cs.dropWhile isBlank = cs ↔ ∀ c ∈ cs.head?, isBlank c = false := by
    rw [List.dropWhile_eq_self_iff]
    cases cs <;> simp
  have hending : cs.rdropWhile isBlank = cs ↔ ∀ c ∈ cs.getLast?, isBlank c = false := by
    rw [List.rdropWhile_eq_self_iff]
    rcases List.eq_nil_or_concat cs with rfl | ⟨l, c, rfl⟩ <;> simp
  rw [← hstart, ← hending]
  change (cs.dropWhile isBlank).rdropWhile isBlank = cs ↔ _
  constructor
  · intro h
    have hdrop : cs.dropWhile isBlank = cs := by
      refine (List.dropWhile_sublist _).eq_of_length_le ?_
      have := (List.rdropWhile_prefix isBlank (cs.dropWhile isBlank)).length_le
      rwa [h] at this
    rw [hdrop] at h
    exact ⟨hdrop, h⟩
  · rintro ⟨hdrop, hrdrop⟩
    rw [hdrop, hrdrop]

end Text

namespace Name

variable {name : String}

/-- Without dots there is no file ending to remove and nothing to replace. -/
theorem normalize_eq_trimmed (h : '.' ∉ name.toList) : normalize name = Text.trimmed name := by
  have hdot : '.' ∉ Text.trim name.toList := fun hmem => h (Text.mem_of_mem_trim hmem)
  have hending : ¬ fileEnding.isSuffixOf (Text.trim name.toList) = true := by
    rw [List.isSuffixOf_iff_suffix]
    intro hsuffix
    exact hdot (hsuffix.subset (by decide))
  rw [normalize, normalizeChars, dropFileEnding, if_neg hending, Text.trimmed]
  congr 1
  refine (List.map_congr_left fun c hc => if_neg ?_).trans (List.map_id _)
  rintro rfl
  exact hdot hc

theorem dot_not_mem_normalize (name : String) : '.' ∉ (normalize name).toList := by
  rw [normalize, String.toList_ofList, normalizeChars, List.mem_map]
  rintro ⟨c, -, hc⟩
  split at hc
  · cases hc
  · next hne => exact hne hc

/-- The name has no dots, and no blank at either end. -/
structure IsInternal (name : String) : Prop where
  no_dot : '.' ∉ name.toList
  start : ∀ c ∈ name.toList.head?, Text.isBlank c = false
  ending : ∀ c ∈ name.toList.getLast?, Text.isBlank c = false

/-- These are the names that are left as they are. -/
theorem normalize_eq_self_iff : normalize name = name ↔ IsInternal name := by
  have htrimmed : Text.trimmed name = name ↔ Text.trim name.toList = name.toList := by
    rw [Text.trimmed, ← String.toList_inj, String.toList_ofList]
  constructor
  · intro h
    have hdot : '.' ∉ name.toList := h ▸ dot_not_mem_normalize name
    rw [normalize_eq_trimmed hdot, htrimmed, Text.trim_eq_self_iff] at h
    exact ⟨hdot, h.1, h.2⟩
  · intro h
    rw [normalize_eq_trimmed h.no_dot, htrimmed, Text.trim_eq_self_iff]
    exact ⟨h.start, h.ending⟩

instance (name : String) : Decidable (IsInternal name) :=
  decidable_of_iff _ normalize_eq_self_iff

end Name

end ClassAtlas
