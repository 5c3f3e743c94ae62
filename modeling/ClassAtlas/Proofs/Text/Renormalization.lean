import ClassAtlas.Analysis.Batch
import ClassAtlas.Graph.Impact
import ClassAtlas.Proofs.Text.InternalForm

/-!
# Bringing a name to internal form again

Blanks are removed from a name before its file ending is, and not after that. So a name in the form
that `Name.normalize` gives may still end with blanks, and these are what a second application
removes. A third one changes nothing.

A look-up by a name that another look-up gave is such a second application.

## Main statements

* `Name.normalize_normalize`: what a second application does, and when it does nothing.
* `Name.exists_normalize_normalize_ne`: a report that looks a unit up twice and finds it once.
-/

namespace ClassAtlas

namespace Text

theorem isBlank_head?_trim (cs : List Char) : ∀ c ∈ (trim cs).head?, isBlank c = false := by
  intro c hc
  obtain ⟨rest, hrest⟩ : trim cs <+: cs.dropWhile isBlank := List.rdropWhile_prefix isBlank _
  have hhead : (cs.dropWhile isBlank).head? = some c := by
    rw [← hrest, List.head?_append, Option.mem_def.1 hc]
    rfl
  have hnot := List.head?_dropWhile_not isBlank cs
  rwa [hhead] at hnot

theorem isBlank_getLast?_trim (cs : List Char) : ∀ c ∈ (trim cs).getLast?, isBlank c = false := by
  intro c hc
  rw [trim, List.getLast?_reverse] at hc
  have hnot := List.head?_dropWhile_not isBlank (cs.dropWhile isBlank).reverse
  rwa [Option.mem_def.1 hc] at hnot

/-- A text without the blanks around it has none left to remove. -/
theorem trimmed_trimmed (text : String) : trimmed (trimmed text) = trimmed text := by
  have htrim : trim (trim text.toList) = trim text.toList :=
    trim_eq_self_iff.2 ⟨isBlank_head?_trim _, isBlank_getLast?_trim _⟩
  rw [trimmed, trimmed, String.toList_ofList, htrim]

theorem trimmed_eq_self_iff {text : String} : trimmed text = text ↔ trim text.toList = text.toList := by
  rw [trimmed, ← String.toList_inj, String.toList_ofList]

end Text

namespace Name

open Text

/-- The character that stands for `c` in internal form. -/
def internalChar (c : Char) : Char := if c = '.' then '/' else c

theorem isBlank_internalChar (c : Char) : isBlank (internalChar c) = isBlank c := by
  rw [internalChar]
  split
  · next h =>
    subst h
    decide
  · rfl

theorem forall_isBlank_map_iff {c? : Option Char} :
    (∀ c ∈ c?.map internalChar, isBlank c = false) ↔ ∀ c ∈ c?, isBlank c = false := by
  cases c? <;> simp [isBlank_internalChar]

theorem dropFileEnding_append (stem : List Char) : dropFileEnding (stem ++ fileEnding) = stem := by
  have hsuffix : fileEnding.isSuffixOf (stem ++ fileEnding) = true :=
    List.isSuffixOf_iff_suffix.2 (List.suffix_append stem fileEnding)
  rw [dropFileEnding, if_pos hsuffix, List.length_append, Nat.add_sub_cancel, List.take_left]

theorem dropFileEnding_prefix (cs : List Char) : dropFileEnding cs <+: cs := by
  rw [dropFileEnding]
  split
  · exact List.take_prefix _ _
  · exact List.prefix_rfl

/-- No step brings blanks to the start of a name. -/
theorem isBlank_head?_normalizeChars (cs : List Char) :
    ∀ c ∈ (normalizeChars cs).head?, isBlank c = false := by
  change ∀ c ∈ ((dropFileEnding (trim cs)).map internalChar).head?, _
  rw [List.head?_map, forall_isBlank_map_iff]
  intro c hc
  obtain ⟨ending, hending⟩ := dropFileEnding_prefix (trim cs)
  refine isBlank_head?_trim cs c ?_
  rw [← hending, List.head?_append, Option.mem_def.1 hc]
  rfl

/-- Blanks at the end of a name were hidden by a file ending. -/
theorem isBlank_getLast?_normalizeChars_iff (cs : List Char) :
    (∀ c ∈ (normalizeChars cs).getLast?, isBlank c = false) ↔
      ¬ ∃ stem blank, isBlank blank = true ∧ trim cs = stem ++ blank :: fileEnding := by
  change (∀ c ∈ ((dropFileEnding (trim cs)).map internalChar).getLast?, _) ↔ _
  rw [List.getLast?_map, forall_isBlank_map_iff]
  constructor
  · rintro h ⟨stem, blank, hblank, hcs⟩
    rw [List.append_cons] at hcs
    rw [hcs, dropFileEnding_append] at h
    have hlast := h blank (by simp)
    rw [hblank] at hlast
    cases hlast
  · intro h c hc
    rw [dropFileEnding] at hc
    split at hc
    · next hsuffix =>
      obtain ⟨before, hbefore⟩ := List.isSuffixOf_iff_suffix.1 hsuffix
      rw [← hbefore, List.length_append, Nat.add_sub_cancel, List.take_left] at hc
      obtain ⟨stem, rfl⟩ := List.getLast?_eq_some_iff.1 hc
      by_contra hblank
      exact h ⟨stem, c, by simpa using hblank, by rw [← hbefore, ← List.append_cons]⟩
    · exact isBlank_getLast?_trim cs c hc

/-- A second application removes the blanks that stood before a file ending, and there is nothing for
a third one to remove. -/
theorem normalize_normalize (name : String) :
    normalize (normalize name) = trimmed (normalize name) ∧
      (normalize (normalize name) = normalize name ↔ ¬ ∃ stem blank, isBlank blank = true ∧
        trim name.toList = stem ++ blank :: fileEnding) ∧
      normalize (normalize (normalize name)) = normalize (normalize name) := by
  have hagain (name : String) : normalize (normalize name) = trimmed (normalize name) :=
    normalize_eq_trimmed (dot_not_mem_normalize name)
  refine ⟨hagain name, ?_, ?_⟩
  · rw [hagain, trimmed_eq_self_iff, trim_eq_self_iff, normalize, String.toList_ofList,
      ← isBlank_getLast?_normalizeChars_iff, and_iff_right (isBlank_head?_normalizeChars _)]
  · rw [hagain (normalize name), hagain name, trimmed_trimmed]

/-- The class file of a class `B` whose superclass is named `A` and a space. -/
def blankSuperclassBytes : List UInt8 :=
  [0xCA, 0xFE, 0xBA, 0xBE, 0, 0, 0, 52, 0, 5, 1, 0, 1, 0x42, 7, 0, 1, 1, 0, 2, 0x41, 0x20, 7, 0, 3,
    0, 0x21, 0, 2, 0, 4, 0, 0, 0, 0, 0, 0, 0, 0]

/-- Its graph. -/
def blankSuperclassGraph : Graph :=
  (runBatch (.ofPreset .full) false [⟨"B", blankSuperclassBytes⟩]).graph

/-- A second application can change a name. The report on that name finds a unit that refers to the
target directly, and none that reaches it. -/
theorem exists_normalize_normalize_ne :
    normalize "A .class" = "A " ∧ normalize (normalize "A .class") = "A" ∧
      ∃ r impact, analyzeBatch (.ofPreset .full) false [⟨"B", blankSuperclassBytes⟩] = .ok r ∧
        Impact.compute? r.graph "A .class" = some impact ∧ impact.target = "A " ∧
        impact.direct = ["B"] ∧ impact.transitive = [] ∧ impact.packages = [] ∧
        impact.maxDepth = 1 := by
  have hreport : (Impact.compute? blankSuperclassGraph "A .class").map
      (fun i => (i.target, i.direct, i.transitive, i.packages, i.maxDepth)) =
        some ("A ", ["B"], [], [], 1) := by decide +kernel
  obtain ⟨impact, himpact, hfields⟩ := Option.map_eq_some_iff.1 hreport
  simp only [Prod.mk.injEq] at hfields
  exact ⟨by decide, by decide, _, impact, rfl, himpact, hfields⟩

end Name

end ClassAtlas
