import ClassAtlas.Proofs.Signature.Grammar
import ClassAtlas.Signature.Parser

/-!
# Limits of a signature

The nesting of type arguments and the runs of `[`, for lists of type arguments and for texts.

## Main results

* `RefForm.hasRun_chars_iff`: the runs of `[` in the text of a form are as long as the dimensions of
  the arrays in its type.
* `Runs.append`, `Runs.flatMap`: the runs of a text from those of its parts.
-/

namespace ClassAtlas

/-! ## Lists of type arguments -/

@[simp] theorem TypeArg.allDepth_append (args args' : List TypeArg) :
    allDepth (args ++ args') = max (allDepth args) (allDepth args') := by
  induction args with
  | nil => simp [allDepth]
  | cons arg args ih => rw [List.cons_append, allDepth, allDepth, ih, Nat.max_assoc]

@[simp] theorem TypeArg.allLongestRun_append (args args' : List TypeArg) :
    allLongestRun (args ++ args') = max (allLongestRun args) (allLongestRun args') := by
  induction args with
  | nil => simp [allLongestRun]
  | cons arg args ih => rw [List.cons_append, allLongestRun, allLongestRun, ih, Nat.max_assoc]

/-! ## Types within the limits -/

/-- Lists of type arguments nest at most `n` deep, and every array has a legal number of
dimensions. -/
def RefType.Fits (n : Nat) (t : RefType) : Prop := t.depth ≤ n ∧ t.longestRun ≤ maxDimensions

def SigType.Fits (n : Nat) (t : SigType) : Prop := t.depth ≤ n ∧ t.longestRun ≤ maxDimensions

def TypeArg.Fits (n : Nat) (a : TypeArg) : Prop := a.depth ≤ n ∧ a.longestRun ≤ maxDimensions

/-- The same for a list of type arguments, which counts as one level if it is not empty. -/
def TypeArg.AllFit (n : Nat) (args : List TypeArg) : Prop :=
  allDepth args ≤ n ∧ allLongestRun args ≤ maxDimensions

theorem TypeArg.allFit_nil (n : Nat) : AllFit n [] := ⟨Nat.zero_le n, Nat.zero_le _⟩

theorem TypeArg.allFit_append_iff {n : Nat} {args args' : List TypeArg} :
    AllFit n (args ++ args') ↔ AllFit n args ∧ AllFit n args' := by
  unfold AllFit
  rw [allDepth_append, allLongestRun_append]
  omega

theorem TypeArg.allFit_succ_iff {n : Nat} {args : List TypeArg} :
    AllFit (n + 1) args ↔ ∀ a ∈ args, a.Fits n := by
  induction args with
  | nil => exact iff_of_true (allFit_nil _) (by simp)
  | cons arg args ih =>
    rw [List.forall_mem_cons, ← ih]
    simp only [AllFit, Fits, allDepth, allLongestRun]
    omega

/-- Where no list can be opened there is none. -/
theorem TypeArg.pos_of_allFit {n : Nat} {args : List TypeArg} (h : AllFit n args)
    (hargs : args ≠ []) : 0 < n := by
  cases args with
  | nil => exact absurd rfl hargs
  | cons arg args =>
    have hdepth : max (arg.depth + 1) (allDepth args) ≤ n := h.1
    omega

/-! ## Arrays -/

/-- The form of an array with `k` more dimensions. -/
def SigForm.wrap (d : SigForm) : Nat → SigForm
  | 0 => d
  | k + 1 => .ref (.array (d.wrap k))

theorem SigForm.chars_wrap (d : SigForm) (k : Nat) :
    (d.wrap k).chars = List.replicate k '[' ++ d.chars := by
  induction k with
  | zero => rfl
  | succ k ih => rw [wrap, SigForm.chars, RefForm.chars, ih, List.replicate_succ, List.cons_append]

theorem SigForm.tree_array_wrap (d : SigForm) (k : Nat) :
    (RefForm.array (d.wrap k)).tree = Scan.arrayOf d.tree k := by
  induction k with
  | zero => rfl
  | succ k ih => rw [wrap, RefForm.tree, SigForm.tree, ih, Scan.arrayOf]

/-- A form that is no array does not start like one. -/
theorem SigForm.head?_chars_ne {d : SigForm} (hdims : d.tree.dims = 0) (rest : List Char) :
    (d.chars ++ rest).head? ≠ some '[' := by
  cases d with
  | primitive p => cases p <;> simp [SigForm.chars, Primitive.code]
  | ref type =>
    cases type with
    | object path args inner => simp [SigForm.chars, RefForm.chars]
    | var name => simp [SigForm.chars, RefForm.chars]
    | array element => cases hdims

/-- Every form is an array, possibly without dimensions, over a form that is none. -/
theorem SigForm.exists_eq_wrap : (d : SigForm) →
    ∃ (e : SigForm) (k : Nat), e.tree.dims = 0 ∧ d = e.wrap k
  | .primitive p => ⟨.primitive p, 0, rfl, rfl⟩
  | .ref (.object path args inner) => ⟨.ref (.object path args inner), 0, rfl, rfl⟩
  | .ref (.var name) => ⟨.ref (.var name), 0, rfl, rfl⟩
  | .ref (.array element) => by
    obtain ⟨e, k, he, rfl⟩ := element.exists_eq_wrap
    exact ⟨e, k + 1, he, rfl⟩

/-- An array of `dims + 1` dimensions over a type that is no array. -/
theorem Scan.fits_arrayOf_iff {n dims : Nat} {t : SigType} (ht : t.dims = 0) :
    (arrayOf t dims).Fits n ↔ dims + 1 ≤ maxDimensions ∧ t.Fits n := by
  have hmeasures : (arrayOf t dims).dims = dims + 1 ∧ (arrayOf t dims).depth = t.depth ∧
      (arrayOf t dims).longestRun = max (dims + 1) t.longestRun := by
    induction dims with
    | zero => simp [arrayOf, RefType.dims, RefType.depth, RefType.longestRun, ht]
    | succ dims ih =>
      obtain ⟨hdims, hdepth, hrun⟩ := ih
      simp only [arrayOf, RefType.dims, RefType.depth, RefType.longestRun, SigType.dims,
        SigType.depth, SigType.longestRun, hdims, hdepth, hrun, true_and]
      omega
  unfold RefType.Fits SigType.Fits
  rw [hmeasures.2.1, hmeasures.2.2]
  omega

/-! ## Runs of brackets -/

/-- The text has `k` brackets in a row. -/
def HasRun (k : Nat) (cs : List Char) : Prop := List.replicate k '[' <:+: cs

namespace HasRun

variable {k : Nat} {a b : List Char} {c : Char}

theorem nil_iff : HasRun k [] ↔ k = 0 := by
  unfold HasRun
  rw [List.infix_nil, List.replicate_eq_nil_iff]

theorem zero : HasRun 0 a := List.nil_infix

/-- A run does not go on beyond another character. -/
theorem append_iff (hab : a.getLast? ≠ some '[' ∨ b.head? ≠ some '[') :
    HasRun k (a ++ b) ↔ HasRun k a ∨ HasRun k b := by
  unfold HasRun
  rw [List.infix_append_iff]
  constructor
  · rintro (h | h | ⟨l, l', hl, hsuffix, hprefix⟩)
    · exact .inl h
    · exact .inr h
    · -- one of the two sides of a run across the border is empty
      have hbracket : ∀ x ∈ l ++ l', x = '[' := fun x hx =>
        List.eq_of_mem_replicate (n := k) (by rwa [hl])
      rcases hab with ha | hb
      · rcases List.eq_nil_or_concat l with rfl | ⟨l, x, rfl⟩
        · exact .inr (hl ▸ hprefix.isInfix)
        · obtain ⟨front, rfl⟩ := hsuffix
          simp [hbracket x (by simp)] at ha
      · cases l' with
        | nil => exact .inl (by simpa [hl] using hsuffix.isInfix)
        | cons x l' =>
          obtain ⟨back, rfl⟩ := hprefix
          simp [hbracket x (by simp)] at hb
  · rintro (h | h)
    · exact .inl h
    · exact .inr (.inl h)

theorem cons_iff (hc : c ≠ '[') : HasRun k (c :: b) ↔ HasRun k b := by
  have hsplit : HasRun k ([c] ++ b) ↔ HasRun k [c] ∨ HasRun k b :=
    append_iff (.inl (by simpa using hc))
  rw [List.singleton_append] at hsplit
  rw [hsplit, or_iff_right_of_imp]
  intro h
  obtain rfl : k = 0 := by
    cases k with
    | zero => rfl
    | succ k => exact absurd (List.mem_singleton.1 (h.subset (by simp))) (Ne.symm hc)
  exact zero

theorem append_iff_of_not_mem (ha : '[' ∉ a) : HasRun k (a ++ b) ↔ HasRun k b := by
  induction a with
  | nil => rfl
  | cons c a ih =>
    rw [List.mem_cons, not_or] at ha
    rw [List.cons_append, cons_iff (Ne.symm ha.1), ih ha.2]

theorem angled_append_iff : HasRun k (angled a ++ b) ↔ HasRun k a ∨ HasRun k b := by
  by_cases ha : a = []
  · subst ha
    exact append_iff (.inl (by decide))
  · rw [angled_of_ne_nil ha, List.cons_append, cons_iff (by decide), List.append_assoc,
      append_iff (.inr (by simp)), List.singleton_append, cons_iff (by decide)]

end HasRun

theorem Ident.bracket_not_mem (name : Ident) : '[' ∉ name.val := fun h => name.2.2 _ h (by decide)

theorem Path.bracket_not_mem (path : Path) : '[' ∉ path.val := fun h => path.2.2.1 _ h (by decide)

theorem getLast?_cons_ne {c : Char} {cs : List Char} (hne : cs ≠ [])
    (hlast : cs.getLast? ≠ some '[') : (c :: cs).getLast? ≠ some '[' := by
  grind

mutual

/-- No form ends with a bracket. -/
theorem RefForm.getLast?_chars : (d : RefForm) → d.chars.getLast? ≠ some '['
  | .object path args inner => by simp [RefForm.chars, List.getLast?_cons, List.getLast?_append]
  | .var name => by simp [RefForm.chars, List.getLast?_cons, List.getLast?_append]
  | .array element => getLast?_cons_ne element.startsIn_chars.ne_nil element.getLast?_chars

theorem SigForm.getLast?_chars : (d : SigForm) → d.chars.getLast? ≠ some '['
  | .primitive p => by cases p <;> decide
  | .ref type => type.getLast?_chars

end

theorem ArgForm.getLast?_chars (a : ArgForm) : a.chars.getLast? ≠ some '[' := by
  cases a with
  | any => decide
  | upTo bound => exact getLast?_cons_ne bound.startsIn_chars.ne_nil bound.getLast?_chars
  | downTo bound => exact getLast?_cons_ne bound.startsIn_chars.ne_nil bound.getLast?_chars
  | exactly type => exact type.getLast?_chars

mutual

/-- A form starts with as many brackets as its type has dimensions. -/
theorem RefForm.replicate_prefix_chars_iff : (d : RefForm) → {k : Nat} →
    (List.replicate k '[' <+: d.chars ↔ k ≤ d.tree.dims)
  | .object path args inner, k => by
    cases k with
    | zero => simp
    | succ k => simp [List.replicate_succ, RefForm.chars, RefForm.tree, RefType.dims]
  | .var name, k => by
    cases k with
    | zero => simp
    | succ k => simp [List.replicate_succ, RefForm.chars, RefForm.tree, RefType.dims]
  | .array element, k => by
    cases k with
    | zero => simp
    | succ k =>
      simp [List.replicate_succ, RefForm.chars, RefForm.tree, RefType.dims,
        element.replicate_prefix_chars_iff]

theorem SigForm.replicate_prefix_chars_iff : (d : SigForm) → {k : Nat} →
    (List.replicate k '[' <+: d.chars ↔ k ≤ d.tree.dims)
  | .primitive p, k => by
    cases k with
    | zero => simp
    | succ k =>
      cases p <;> simp [List.replicate_succ, SigForm.chars, SigForm.tree, SigType.dims,
        Primitive.code]
  | .ref type, k => type.replicate_prefix_chars_iff

end

mutual

theorem RefForm.hasRun_chars_iff : (d : RefForm) → {k : Nat} →
    (HasRun k d.chars ↔ k ≤ d.tree.longestRun)
  | .object path args inner, k => by
    rw [RefForm.chars, HasRun.cons_iff (by decide),
      HasRun.append_iff_of_not_mem path.bracket_not_mem, HasRun.angled_append_iff, ArgForm.hasRun_allChars_iff args,
      InnerForm.hasRun_allChars_iff inner]
    simp only [RefForm.tree, RefType.longestRun, TypeArg.allLongestRun_append]
    omega
  | .var name, k => by
    rw [RefForm.chars, HasRun.cons_iff (by decide),
      HasRun.append_iff_of_not_mem name.bracket_not_mem, HasRun.cons_iff (by decide), HasRun.nil_iff]
    exact Nat.le_zero.symm
  | .array element, k => by
    have hinfix : HasRun k ('[' :: element.chars) ↔ List.replicate k '[' <+: '[' :: element.chars ∨
      HasRun k element.chars := List.infix_cons_iff
    have hprefix := (RefForm.array element).replicate_prefix_chars_iff (k := k)
    simp only [RefForm.chars, RefForm.tree, RefType.dims] at hprefix
    rw [RefForm.chars, hinfix, hprefix, element.hasRun_chars_iff, RefForm.tree, RefType.longestRun]
    omega

theorem SigForm.hasRun_chars_iff : (d : SigForm) → {k : Nat} →
    (HasRun k d.chars ↔ k ≤ d.tree.longestRun)
  | .primitive p, k => by
    rw [SigForm.chars, HasRun.cons_iff (by cases p <;> decide), HasRun.nil_iff]
    exact Nat.le_zero.symm
  | .ref type, k => type.hasRun_chars_iff

theorem ArgForm.hasRun_chars_iff : (a : ArgForm) → {k : Nat} →
    (HasRun k a.chars ↔ k ≤ a.tree.longestRun)
  | .any, k => by
    rw [ArgForm.chars, HasRun.cons_iff (by decide), HasRun.nil_iff]
    exact Nat.le_zero.symm
  | .upTo bound, k => (HasRun.cons_iff (by decide)).trans bound.hasRun_chars_iff
  | .downTo bound, k => (HasRun.cons_iff (by decide)).trans bound.hasRun_chars_iff
  | .exactly type, k => type.hasRun_chars_iff

theorem ArgForm.hasRun_allChars_iff : (l : List ArgForm) → {k : Nat} →
    (HasRun k (ArgForm.allChars l) ↔ k ≤ TypeArg.allLongestRun (ArgForm.allTrees l))
  | [], k => HasRun.nil_iff.trans Nat.le_zero.symm
  | a :: l, k => by
    rw [ArgForm.allChars, HasRun.append_iff (.inl a.getLast?_chars), a.hasRun_chars_iff,
      ArgForm.hasRun_allChars_iff l, ArgForm.allTrees, TypeArg.allLongestRun]
    omega

theorem InnerForm.hasRun_allChars_iff : (l : List InnerForm) → {k : Nat} →
    (HasRun k (InnerForm.allChars l ++ [';']) ↔ k ≤ TypeArg.allLongestRun (InnerForm.allArgs l))
  | [], k => by
    rw [InnerForm.allChars, List.nil_append, HasRun.cons_iff (by decide), HasRun.nil_iff]
    exact Nat.le_zero.symm
  | .mk name args :: l, k => by
    rw [InnerForm.allChars, InnerForm.chars, List.append_assoc, List.cons_append, List.append_assoc,
      HasRun.cons_iff (by decide), HasRun.append_iff_of_not_mem name.bracket_not_mem,
      HasRun.angled_append_iff, ArgForm.hasRun_allChars_iff args,
      InnerForm.hasRun_allChars_iff l, InnerForm.allArgs, TypeArg.allLongestRun_append,
      InnerForm.argTrees]
    omega

end

/-- The limits can be read off the depth of the type and the runs in the text. -/
theorem RefForm.fits_tree_iff (d : RefForm) (n : Nat) :
    d.tree.Fits n ↔ d.tree.depth ≤ n ∧ ¬ HasRun 256 d.chars := by
  rw [RefType.Fits, d.hasRun_chars_iff, Nat.not_le, Nat.lt_succ_iff]
  rfl

/-! ## Texts in several parts -/

/-- No part of the text ends with a bracket, and the longest runs in its parts are as given. -/
structure Runs (cs : List Char) (lengths : List Nat) : Prop where
  getLast?_ne : cs.getLast? ≠ some '['
  hasRun_iff : ∀ k, 0 < k → (HasRun k cs ↔ ∃ n ∈ lengths, k ≤ n)

namespace Runs

variable {a b : List Char} {l m : List Nat} {c : Char}

theorem nil : Runs [] [] := by
  refine ⟨by simp, fun k hk => ?_⟩
  rw [HasRun.nil_iff]
  simp [Nat.ne_of_gt hk]

theorem append (ha : Runs a l) (hb : Runs b m) : Runs (a ++ b) (l ++ m) := by
  refine ⟨?_, fun k hk => ?_⟩
  · have hlast := ha.getLast?_ne
    have hlast' := hb.getLast?_ne
    rw [List.getLast?_append]
    grind
  · rw [HasRun.append_iff (.inl ha.getLast?_ne), ha.hasRun_iff k hk, hb.hasRun_iff k hk]
    simp only [List.mem_append, or_and_right, exists_or]

theorem singleton (hc : c ≠ '[') : Runs [c] [] := by
  refine ⟨by simpa using hc, fun k hk => ?_⟩
  rw [HasRun.cons_iff hc]
  exact nil.hasRun_iff k hk

theorem cons (hc : c ≠ '[') (ha : Runs a l) : Runs (c :: a) l := (singleton hc).append ha

theorem of_not_mem (ha : '[' ∉ a) : Runs a [] := by
  induction a with
  | nil => exact nil
  | cons c a ih =>
    rw [List.mem_cons, not_or] at ha
    exact cons (Ne.symm ha.1) (ih ha.2)

theorem angled (ha : Runs a l) : Runs (angled a) l := by
  by_cases hnil : a = []
  · subst hnil
    exact ha
  · rw [angled_of_ne_nil hnil]
    have hclosed : Runs (a ++ ['>']) (l ++ []) := ha.append (singleton (by decide))
    rw [List.append_nil] at hclosed
    exact cons (by decide) hclosed

theorem flatMap {δ : Type} {chars : δ → List Char} {lengths : δ → List Nat}
    (h : ∀ d, Runs (chars d) (lengths d)) (ds : List δ) :
    Runs (ds.flatMap chars) (ds.flatMap lengths) := by
  induction ds with
  | nil => exact nil
  | cons d ds ih => exact (h d).append ih

/-- Items with one length each. -/
theorem flatMap_map {δ : Type} {chars : δ → List Char} {length : δ → Nat}
    (h : ∀ d, Runs (chars d) [length d]) (ds : List δ) :
    Runs (ds.flatMap chars) (ds.map length) := by
  rw [List.map_eq_flatMap]
  exact flatMap h ds

/-- A bound on all lengths is one on the runs in the text. -/
theorem forall_le_iff {α : Type} {ts : List α} {length : α → Nat} (h : Runs a (ts.map length))
    (n : Nat) : (∀ t ∈ ts, length t ≤ n) ↔ ¬ HasRun (n + 1) a := by
  rw [h.hasRun_iff (n + 1) (Nat.succ_pos n)]
  simp only [not_exists, not_and, Nat.not_le, Nat.lt_succ_iff, List.forall_mem_map]

end Runs

theorem RefForm.runs (d : RefForm) : Runs d.chars [d.tree.longestRun] :=
  ⟨d.getLast?_chars, fun k _ => by simp [d.hasRun_chars_iff]⟩

theorem SigForm.runs (d : SigForm) : Runs d.chars [d.tree.longestRun] :=
  ⟨d.getLast?_chars, fun k _ => by simp [d.hasRun_chars_iff]⟩

end ClassAtlas
