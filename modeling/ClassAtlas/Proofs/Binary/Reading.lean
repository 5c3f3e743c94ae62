import Mathlib.Algebra.Group.Nat.Defs
import Mathlib.Data.List.Forall2
import ClassAtlas.Binary.Reader

/-!
# What a decoder reads

`Decoder.Reads d bytes P` says that a decoder accepts `bytes` wherever they stand, reads exactly
these, and gives a value with the property `P`. The rules below follow the ways in which decoders
are put together, so that what a writer wrote is read back part by part.
-/

namespace ClassAtlas

namespace Binary

theorem bigEndian_toBigEndian (width n : Nat) :
    bigEndian (toBigEndian width n) = n % 256 ^ width := by
  induction width generalizing n with
  | zero => simp [toBigEndian, bigEndian, Nat.mod_one]
  | succ width ih =>
    have hbyte : (UInt8.ofNat n).toNat = n % 256 := by simp
    rw [toBigEndian, bigEndian_append_singleton, ih, hbyte, Nat.pow_succ,
      Nat.mul_comm (256 ^ width), Nat.mod_mul]
    omega

end Binary

namespace Decoder

variable {α β : Type}

/-- The decoder accepts the bytes, reads no more, and gives a value with the property. -/
def Reads (d : Decoder α) (bytes : List UInt8) (P : α → Prop) : Prop :=
  ∀ base consumed rest, ∃ a,
    d ⟨base, consumed, bytes ++ rest⟩ = .ok (a, ⟨base, consumed + bytes.length, rest⟩) ∧ P a

theorem Reads.imp {d : Decoder α} {bytes : List UInt8} {P Q : α → Prop} (h : d.Reads bytes P)
    (hPQ : ∀ a, P a → Q a) : d.Reads bytes Q := by
  intro base consumed rest
  obtain ⟨a, ha, hP⟩ := h base consumed rest
  exact ⟨a, ha, hPQ a hP⟩

theorem reads_pure {a : α} {P : α → Prop} (h : P a) : (pure a : Decoder α).Reads [] P :=
  fun _ _ _ => ⟨a, rfl, h⟩

theorem Reads.bind {d : Decoder α} {f : α → Decoder β} {bytes more : List UInt8} {P : α → Prop}
    {Q : β → Prop} (hd : d.Reads bytes P) (hf : ∀ a, P a → (f a).Reads more Q) :
    (d >>= f).Reads (bytes ++ more) Q := by
  intro base consumed rest
  obtain ⟨a, ha, hP⟩ := hd base consumed (more ++ rest)
  obtain ⟨b, hb, hQ⟩ := hf a hP base (consumed + bytes.length) rest
  refine ⟨b, ?_, hQ⟩
  have hlen : consumed + (bytes ++ more).length = consumed + bytes.length + more.length := by
    rw [List.length_append]
    omega
  rw [List.append_assoc, hlen]
  show (d _ >>= fun p => f p.1 p.2) = _
  rw [ha]
  exact hb

/-- A last step that reads nothing. -/
theorem Reads.bind_end {d : Decoder α} {f : α → Decoder β} {bytes : List UInt8} {P : α → Prop}
    {Q : β → Prop} (hd : d.Reads bytes P) (hf : ∀ a, P a → (f a).Reads [] Q) :
    (d >>= f).Reads bytes Q := by
  have hbind : (d >>= f).Reads (bytes ++ []) Q := hd.bind hf
  rwa [List.append_nil] at hbind

theorem Reads.bind_pure {d : Decoder α} {f : α → β} {bytes : List UInt8} {P : α → Prop}
    {Q : β → Prop} (hd : d.Reads bytes P) (hf : ∀ a, P a → Q (f a)) :
    (d >>= fun a => pure (f a)).Reads bytes Q :=
  hd.bind_end fun a ha => reads_pure (hf a ha)

theorem Reads.map {d : Decoder α} {f : α → β} {bytes : List UInt8} {P : α → Prop} {Q : β → Prop}
    (hd : d.Reads bytes P) (hf : ∀ a, P a → Q (f a)) : (f <$> d).Reads bytes Q :=
  hd.bind_pure hf

/-- A first step that reads nothing. -/
theorem Reads.bind_nil {d : Decoder α} {f : α → Decoder β} {bytes : List UInt8} {P : α → Prop}
    {Q : β → Prop} (hd : d.Reads [] P) (hf : ∀ a, P a → (f a).Reads bytes Q) :
    (d >>= f).Reads bytes Q := hd.bind hf

theorem reads_position : position.Reads [] fun _ => True := fun _ _ _ => ⟨_, rfl, trivial⟩

theorem reads_ofExcept {result : Except DecodeError α} {a : α} (h : result = .ok a) :
    (ofExcept result).Reads [] (· = a) := by
  subst h
  exact fun _ _ _ => ⟨a, rfl, rfl⟩

theorem reads_take (bytes : List UInt8) : (take bytes.length).Reads bytes (· = bytes) := by
  intro base consumed rest
  refine ⟨bytes, ?_, rfl⟩
  simp [take_apply, Reader.skip, Reader.remaining]

theorem reads_skip (bytes : List UInt8) : (skip bytes.length).Reads bytes fun _ => True :=
  (reads_take bytes).bind_pure fun _ _ => trivial

/-! ## Numbers -/

theorem reads_number (width n : Nat) :
    (number width).Reads (Binary.toBigEndian width n) (· = n % 256 ^ width) := by
  have htake := reads_take (Binary.toBigEndian width n)
  rw [Binary.length_toBigEndian] at htake
  refine htake.bind_pure fun bytes hbytes => ?_
  rw [hbytes, Binary.bigEndian_toBigEndian]

theorem reads_uint8 (b : UInt8) : uint8.Reads [b] (· = b) := by
  have hb : Binary.toBigEndian 1 b.toNat = [b] := by simp [Binary.toBigEndian]
  rw [← hb]
  refine (reads_number 1 b.toNat).bind_pure fun n hn => ?_
  have hlt := b.toNat_lt
  rw [hn, Nat.mod_eq_of_lt (by omega), UInt8.ofNat_toNat]

theorem reads_uint16_ofNat (n : Nat) :
    uint16.Reads (Binary.toBigEndian 2 n) (· = UInt16.ofNat n) := by
  refine (reads_number 2 n).bind_pure fun m hm => ?_
  rw [hm]
  exact UInt16.toNat_inj.1 (by simp)

theorem reads_uint16 (n : UInt16) : uint16.Reads (Binary.word16 n) (· = n) := by
  refine (reads_uint16_ofNat n.toNat).imp fun m hm => ?_
  rw [hm, UInt16.ofNat_toNat]

theorem reads_uint32_ofNat (n : Nat) :
    uint32.Reads (Binary.toBigEndian 4 n) (· = UInt32.ofNat n) := by
  refine (reads_number 4 n).bind_pure fun m hm => ?_
  rw [hm]
  exact UInt32.toNat_inj.1 (by simp)

theorem reads_uint32 (n : UInt32) : uint32.Reads (Binary.word32 n) (· = n) := by
  refine (reads_uint32_ofNat n.toNat).imp fun m hm => ?_
  rw [hm, UInt32.ofNat_toNat]

theorem reads_uint64 (n : UInt64) : uint64.Reads (Binary.word64 n) (· = n) := by
  refine (reads_number 8 n.toNat).bind_pure fun m hm => ?_
  have hlt := n.toNat_lt
  rw [hm, Nat.mod_eq_of_lt (by omega), UInt64.ofNat_toNat]

theorem reads_int32 (n : Int32) : int32.Reads (Binary.word32 n.toUInt32) (· = n) := by
  refine (reads_uint32 n.toUInt32).bind_pure fun m hm => ?_
  rw [hm, Int32.toInt32_toUInt32]

theorem reads_int64 (n : Int64) : int64.Reads (Binary.word64 n.toUInt64) (· = n) := by
  refine (reads_uint64 n.toUInt64).bind_pure fun m hm => ?_
  rw [hm, Int64.toInt64_toUInt64]

/-! ## Lists and parts -/

/-- Values that were written one after the other are read one after the other. -/
theorem reads_replicate {γ : Type} {d : Decoder α} {R : γ → α → Prop} {items : List γ}
    {chunks : List (List UInt8)}
    (h : List.Forall₂ (fun c bytes => d.Reads bytes (R c)) items chunks) :
    (replicate d items.length).Reads chunks.flatten (List.Forall₂ R items) := by
  induction h with
  | nil => exact reads_pure .nil
  | cons hfirst _ ih =>
    refine hfirst.bind fun a ha => ?_
    exact ih.bind_pure fun others hothers => .cons ha hothers

theorem reads_counted {d : Decoder α} {n : Nat} {bytes : List UInt8} {P : List α → Prop}
    (hn : n ≤ 65535) (h : (replicate d n).Reads bytes P) :
    (counted d).Reads (Binary.toBigEndian 2 n ++ bytes) P := by
  refine (reads_uint16_ofNat n).bind fun m hm => ?_
  have hnat : m.toNat = n := by
    rw [hm, UInt16.toNat_ofNat']
    omega
  rw [hnat]
  exact h

/-- A part that is read to its end by an inner decoder. -/
theorem reads_within {d : Decoder α} {bytes : List UInt8} {P : α → Prop} (h : d.Reads bytes P)
    (base : Nat) :
    (within (.ofBytes bytes base) d).Reads [] fun p => P p.1 ∧ p.2.isEmpty = true := by
  intro base' consumed rest
  obtain ⟨a, ha, hP⟩ := h base 0 []
  rw [List.append_nil] at ha
  refine ⟨(a, ⟨base, 0 + bytes.length, []⟩), ?_, hP, rfl⟩
  rw [within, Reader.ofBytes, ha]
  rfl

theorem reads_part (bytes : List UInt8) :
    (part bytes.length).Reads bytes fun r => ∃ base, r = .ofBytes bytes base := by
  refine reads_position.bind_nil fun base _ => ?_
  exact (reads_take bytes).bind_pure fun taken htaken => ⟨base, by rw [htaken]⟩

theorem run'_ofBytes {d : Decoder α} {bytes : List UInt8} {base : Nat} {a : α} {r : Reader}
    (h : d ⟨base, 0, bytes⟩ = .ok (a, r)) : d.run' (.ofBytes bytes base) = .ok a := by
  rw [StateT.run', Reader.ofBytes, h]
  rfl

/-! ## Positions -/

/-- The decoder accepts the bytes, and the value it gives has the property together with the
absolute offset of the next byte. -/
def ReadsTo (d : Decoder α) (bytes : List UInt8) (P : α → Nat → Prop) : Prop :=
  ∀ base consumed rest, ∃ a,
    d ⟨base, consumed, bytes ++ rest⟩ = .ok (a, ⟨base, consumed + bytes.length, rest⟩) ∧
      P a (base + consumed + bytes.length)

theorem readsTo_position : position.ReadsTo [] (· = ·) := fun _ _ _ => ⟨_, rfl, rfl⟩

theorem ReadsTo.bind_pure {d : Decoder α} {f : α → β} {bytes : List UInt8} {P : α → Nat → Prop}
    {Q : β → Nat → Prop} (hd : d.ReadsTo bytes P) (hf : ∀ a n, P a n → Q (f a) n) :
    (d >>= fun a => pure (f a)).ReadsTo bytes Q := by
  intro base consumed rest
  obtain ⟨a, ha, hP⟩ := hd base consumed rest
  refine ⟨f a, ?_, hf a _ hP⟩
  show (d _ >>= fun p => pure (f p.1, p.2)) = _
  rw [ha]
  rfl

theorem Reads.bind_to {d : Decoder α} {f : α → Decoder β} {bytes more : List UInt8} {P : α → Prop}
    {Q : β → Nat → Prop} (hd : d.Reads bytes P) (hf : ∀ a, P a → (f a).ReadsTo more Q) :
    (d >>= f).ReadsTo (bytes ++ more) Q := by
  intro base consumed rest
  obtain ⟨a, ha, hP⟩ := hd base consumed (more ++ rest)
  obtain ⟨b, hb, hQ⟩ := hf a hP base (consumed + bytes.length) rest
  have hlen : consumed + (bytes ++ more).length = consumed + bytes.length + more.length := by
    rw [List.length_append]
    omega
  refine ⟨b, ?_, ?_⟩
  · rw [List.append_assoc, hlen]
    show (d _ >>= fun p => f p.1 p.2) = _
    rw [ha]
    exact hb
  · rwa [Nat.add_assoc, hlen, ← Nat.add_assoc]

end Decoder

end ClassAtlas
