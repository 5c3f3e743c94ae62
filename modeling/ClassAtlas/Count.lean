/-!
# Saturating counters

Occurrence counts are kept in 32 bits and stop at the largest such number instead of wrapping.
Adding counts one after another therefore gives the same as adding them first and stopping once
(`Count.ofNat_add`).
-/

namespace ClassAtlas

/-- The largest count, 2³² - 1. -/
def Count.cap : Nat := 4294967295

/-- A number of occurrences that stops at `Count.cap`. -/
structure Count where
  val : Nat
  val_le : val ≤ Count.cap
  deriving DecidableEq

namespace Count

/-- The count of `n` occurrences. -/
def ofNat (n : Nat) : Count := ⟨min n cap, Nat.min_le_right n cap⟩

instance : Zero Count := ⟨ofNat 0⟩
instance : Inhabited Count := ⟨ofNat 0⟩

/-- Saturating addition. -/
def add (a b : Count) : Count := ofNat (a.val + b.val)

instance : Add Count := ⟨add⟩

@[ext]
theorem ext {a b : Count} (h : a.val = b.val) : a = b := by
  cases a; cases b; simp_all

@[simp]
theorem val_ofNat (n : Nat) : (ofNat n).val = min n cap := rfl

@[simp]
theorem val_add (a b : Count) : (a + b).val = min (a.val + b.val) cap := rfl

@[simp]
theorem ofNat_val (a : Count) : ofNat a.val = a := by
  ext
  simp [a.val_le]

/-- Stopping at each step is the same as stopping at the end. -/
theorem ofNat_add (m n : Nat) : ofNat m + ofNat n = ofNat (m + n) := by
  ext
  simp only [val_add, val_ofNat]
  omega

theorem add_comm (a b : Count) : a + b = b + a := by
  ext
  simp [Nat.add_comm]

theorem add_assoc (a b c : Count) : a + b + c = a + (b + c) := by
  ext
  simp only [val_add]
  omega

theorem eq_zero_of_add_eq_zero {a b : Count} (h : a + b = 0) : b = 0 := by
  have hval : min (a.val + b.val) cap = 0 := congrArg val h
  have hcap : 0 < cap := by decide
  apply ext
  show b.val = 0
  omega

theorem ofNat_eq_zero_iff {n : Nat} : ofNat n = 0 ↔ n = 0 := by
  constructor
  · intro h
    have hval : min n cap = 0 := congrArg val h
    have hcap : 0 < cap := by decide
    omega
  · rintro rfl
    rfl

end Count

end ClassAtlas
