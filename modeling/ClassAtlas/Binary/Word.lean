/-!
# Big-endian words

Numbers as sequences of bytes with the most significant byte first.
-/

namespace ClassAtlas.Binary

/-- The number that bytes spell, the most significant first. -/
def bigEndian (bytes : List UInt8) : Nat := bytes.foldl (fun n b => n * 256 + b.toNat) 0

/-- The `width` low bytes of a number, the most significant first. -/
def toBigEndian : Nat → Nat → List UInt8
  | 0, _ => []
  | width + 1, n => toBigEndian width (n / 256) ++ [UInt8.ofNat n]

@[simp]
theorem length_toBigEndian (width n : Nat) : (toBigEndian width n).length = width := by
  induction width generalizing n with
  | zero => rfl
  | succ width ih => simp [toBigEndian, ih]

theorem bigEndian_append_singleton (bytes : List UInt8) (b : UInt8) :
    bigEndian (bytes ++ [b]) = bigEndian bytes * 256 + b.toNat := by
  simp [bigEndian]

/-- Two bytes. -/
def word16 (n : UInt16) : List UInt8 := toBigEndian 2 n.toNat

/-- Four bytes. -/
def word32 (n : UInt32) : List UInt8 := toBigEndian 4 n.toNat

/-- Eight bytes. -/
def word64 (n : UInt64) : List UInt8 := toBigEndian 8 n.toNat

end ClassAtlas.Binary
