import ClassAtlas.Text.Blank

/-!
# Names of units

A unit is named by its binary name in internal form, with `/` between the parts
(`java/lang/String`). Class entries of a constant pool may also hold the name of an array
(`[Ljava/lang/String;`), which stands for its element class.

## Main definitions

* `Name.normalize` brings a name given by a caller to internal form.
* `Name.elementClass?` is the class that a class entry stands for.
* `Name.package` is the part of a name before its last `/`.
-/

namespace ClassAtlas.Name

/-- The ending of a file name that `normalize` removes. -/
def fileEnding : List Char := ".class".toList

/-- Removes one file ending. -/
def dropFileEnding (cs : List Char) : List Char :=
  if fileEnding.isSuffixOf cs then cs.take (cs.length - fileEnding.length) else cs

/-- Internal form of a name on characters: no blanks around it, no file ending, `/` for `.`. -/
def normalizeChars (cs : List Char) : List Char :=
  (dropFileEnding (Text.trim cs)).map fun c => if c = '.' then '/' else c

/-- Internal form of a name given by a caller. -/
def normalize (name : String) : String := String.ofList (normalizeChars name.toList)

/-- The class named between `L` and `;`. -/
def objectName? : List Char → Option (List Char)
  | 'L' :: inner =>
    if inner.getLast? = some ';' ∧ inner.dropLast ≠ [] then some inner.dropLast else none
  | _ => none

/-- The class that a class entry stands for: the name itself, or the element class of an array.
Arrays of primitives and the empty name stand for none. -/
def elementClass? (name : String) : Option String :=
  match name.toList with
  | [] => none
  | '[' :: rest => (objectName? (rest.dropWhile (· = '['))).map String.ofList
  | _ => some name

/-- What stands before the last `/`, on characters. -/
def packageChars (cs : List Char) : List Char :=
  (cs.reverse.dropWhile (· ≠ '/')).tail.reverse

/-- The package of a name; a name without `/` is in the unnamed package `""`. -/
def package (name : String) : String := String.ofList (packageChars name.toList)

theorem dropWhile_reverse_eq_nil {cs : List Char} (h : '/' ∉ cs) :
    cs.reverse.dropWhile (· ≠ '/') = [] := by
  have hother : ∀ c ∈ cs.reverse, decide (c ≠ '/') = true := by
    intro c hc
    exact decide_eq_true fun heq => h (heq ▸ List.mem_reverse.1 hc)
  have hdrop : (cs.reverse ++ []).dropWhile (· ≠ '/') = [].dropWhile (· ≠ '/') :=
    List.dropWhile_append_of_pos hother
  rwa [List.append_nil] at hdrop

theorem packageChars_of_not_mem {cs : List Char} (h : '/' ∉ cs) : packageChars cs = [] := by
  rw [packageChars, dropWhile_reverse_eq_nil h]
  rfl

theorem packageChars_append {cs simple : List Char} (h : '/' ∉ simple) :
    packageChars (cs ++ '/' :: simple) = cs := by
  rw [packageChars, List.reverse_append, List.reverse_cons, List.append_assoc,
    List.dropWhile_append, dropWhile_reverse_eq_nil h]
  simp

/-- A name is its package with a `/` and a last part behind it, unless it has no `/`. -/
theorem package_eq_iff {name p : String} : package name = p ↔
    (∃ simple, '/' ∉ simple ∧ name.toList = p.toList ++ '/' :: simple) ∨
      '/' ∉ name.toList ∧ p = "" := by
  constructor
  · rintro rfl
    by_cases h : '/' ∈ name.toList
    · -- The first `/` of the reversed name is the last one of the name.
      obtain ⟨back, front, hreverse, hback⟩ :=
        List.eq_append_cons_of_mem (List.mem_reverse.2 h)
      have hname : name.toList = front.reverse ++ '/' :: back.reverse := by
        rw [← List.reverse_reverse name.toList, hreverse]
        simp
      have hsimple : '/' ∉ back.reverse := mt List.mem_reverse.1 hback
      refine .inl ⟨back.reverse, hsimple, ?_⟩
      rw [package, hname, packageChars_append hsimple, String.toList_ofList]
    · exact .inr ⟨h, by rw [package, packageChars_of_not_mem h]⟩
  · rintro (⟨simple, hsimple, hname⟩ | ⟨h, rfl⟩)
    · rw [package, hname, packageChars_append hsimple, String.ofList_toList]
    · rw [package, packageChars_of_not_mem h]

/-- A name with `.` between its parts, for display. -/
def dotted (name : String) : String :=
  String.ofList (name.toList.map fun c => if c = '/' then '.' else c)

end ClassAtlas.Name
