/-!
# Sums over lists

The sum of a quantity over the elements of a list.
-/

namespace ClassAtlas

variable {α : Type}

/-- The sum of `f` over a list. -/
def sumOf (f : α → Nat) (l : List α) : Nat := l.foldr (fun a n => f a + n) 0

@[simp]
theorem sumOf_nil (f : α → Nat) : sumOf f [] = 0 := rfl

@[simp]
theorem sumOf_cons (f : α → Nat) (a : α) (l : List α) : sumOf f (a :: l) = f a + sumOf f l := rfl

theorem sumOf_append (f : α → Nat) (l m : List α) : sumOf f (l ++ m) = sumOf f l + sumOf f m := by
  induction l with
  | nil => simp
  | cons a l ih => simp [ih, Nat.add_assoc]

theorem le_sumOf (f : α → Nat) {a : α} {l : List α} (h : a ∈ l) : f a ≤ sumOf f l := by
  induction h with
  | head l => exact Nat.le_add_right _ _
  | tail b _ ih => exact Nat.le_trans ih (Nat.le_add_left _ _)

theorem sumOf_eq_zero {f : α → Nat} {l : List α} (h : ∀ a ∈ l, f a = 0) : sumOf f l = 0 := by
  induction l with
  | nil => rfl
  | cons a l ih => rw [sumOf_cons, h a List.mem_cons_self, ih fun b hb => h b (.tail a hb)]

theorem sumOf_ne_zero_iff {f : α → Nat} {l : List α} : sumOf f l ≠ 0 ↔ ∃ a ∈ l, f a ≠ 0 := by
  induction l with
  | nil => simp
  | cons a l ih =>
    simp only [sumOf_cons, List.mem_cons, exists_eq_or_imp, ← ih]
    omega

theorem sumOf_perm (f : α → Nat) {l m : List α} (h : l.Perm m) : sumOf f l = sumOf f m :=
  h.foldr_eq' (fun a _ b _ n => Nat.add_left_comm (f b) (f a) n) 0

end ClassAtlas
