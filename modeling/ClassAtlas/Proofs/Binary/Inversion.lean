import Mathlib.Data.List.Induction
import ClassAtlas.Proofs.Binary.Reading
import ClassAtlas.Proofs.Outcome

/-!
# What a decoder has read

The converse of `Decoder.Reads`: `Decoder.Passes d R` says that whenever a decoder gives a value, the
bytes that it passed over stand in the relation `R` to it. For numbers the relation is that the bytes
are the written form of the value, so nothing is lost by reading them.
-/

namespace ClassAtlas

namespace Binary

/-- Bytes are the written form of the number that they spell. -/
theorem toBigEndian_bigEndian (bytes : List UInt8) :
    toBigEndian bytes.length (bigEndian bytes) = bytes := by
  induction bytes using List.reverseRecOn with
  | nil => rfl
  | append_singleton bytes b ih =>
    have hb := b.toNat_lt
    have hquot : (bigEndian bytes * 256 + b.toNat) / 256 = bigEndian bytes := by omega
    have hlast : UInt8.ofNat (bigEndian bytes * 256 + b.toNat) = b := by
      apply UInt8.toNat_inj.1
      rw [UInt8.toNat_ofNat']
      omega
    rw [bigEndian_append_singleton, List.length_append, List.length_singleton, toBigEndian, hquot, ih,
      hlast]

theorem bigEndian_lt (bytes : List UInt8) : bigEndian bytes < 256 ^ bytes.length := by
  have h := bigEndian_toBigEndian bytes.length (bigEndian bytes)
  rw [toBigEndian_bigEndian] at h
  rw [h]
  exact Nat.mod_lt _ (Nat.pow_pos (by decide))

end Binary

namespace Decoder

variable {α β : Type}

/-- Whenever the decoder gives a value, the bytes that it passed over are related to it. -/
def Passes (d : Decoder α) (R : α → List UInt8 → Prop) : Prop :=
  ∀ r a r', d r = .ok (a, r') → ∃ used, r.rest = used ++ r'.rest ∧
    r'.base = r.base ∧ r'.consumed = r.consumed + used.length ∧ R a used

theorem Passes.imp {d : Decoder α} {R Q : α → List UInt8 → Prop} (h : d.Passes R)
    (hRQ : ∀ a used, R a used → Q a used) : d.Passes Q := by
  intro r a r' hrun
  obtain ⟨used, hrest, hbase, hconsumed, hR⟩ := h r a r' hrun
  exact ⟨used, hrest, hbase, hconsumed, hRQ a used hR⟩

theorem Passes.exists_of_run {d : Decoder α} {R : α → List UInt8 → Prop} (hd : d.Passes R)
    {base consumed : Nat} {bytes : List UInt8} {a : α} {r : Reader}
    (h : d ⟨base, consumed, bytes⟩ = .ok (a, r)) :
    ∃ used rest, bytes = used ++ rest ∧ r = ⟨base, consumed + used.length, rest⟩ ∧ R a used := by
  obtain ⟨used, hbytes, hbase, hconsumed, hR⟩ := hd _ a r h
  obtain ⟨_, _, rest⟩ := r
  cases hbase
  cases hconsumed
  exact ⟨used, rest, hbytes, rfl, hR⟩

theorem passes_pure (a : α) : (pure a : Decoder α).Passes fun b used => b = a ∧ used = [] := by
  intro r b r' hrun
  cases hrun
  exact ⟨[], rfl, rfl, rfl, rfl, rfl⟩

theorem passes_fail (fault : FormatFault) (R : α → List UInt8 → Prop) :
    (fail fault : Decoder α).Passes R := by
  intro r a r' hrun
  cases hrun

theorem passes_ite {p : Prop} [Decidable p] {d e : Decoder α} {R : α → List UInt8 → Prop}
    (hd : p → d.Passes R) (he : ¬p → e.Passes R) : (if p then d else e).Passes R := by
  split
  · next h => exact hd h
  · next h => exact he h

theorem passes_fail_bind (fault : FormatFault) (f : α → Decoder β) (R : β → List UInt8 → Prop) :
    (fail fault >>= f).Passes R := by
  intro r b r' hrun
  cases hrun

theorem passes_position : position.Passes fun _ used => used = [] := by
  intro r a r' hrun
  cases hrun
  exact ⟨[], rfl, rfl, rfl, rfl⟩

theorem passes_ofExcept (result : Except DecodeError α) :
    (ofExcept result).Passes fun a used => result = .ok a ∧ used = [] := by
  intro r a r' hrun
  cases result with
  | error e => cases hrun
  | ok b =>
    cases hrun
    exact ⟨[], rfl, rfl, rfl, rfl, rfl⟩

theorem passes_take (n : Nat) : (take n).Passes fun bytes used => bytes = used ∧ used.length = n := by
  intro r bytes r' hrun
  rw [take_apply] at hrun
  split at hrun
  · next hle =>
    cases hrun
    have hlength : (r.rest.take n).length = n := List.length_take_of_le hle
    exact ⟨r.rest.take n, by simp [Reader.skip], rfl, by simp [Reader.skip, hlength], rfl, hlength⟩
  · cases hrun

/-- One decoder after the other. -/
theorem Passes.bind {d : Decoder α} {f : α → Decoder β} {R : α → List UInt8 → Prop}
    {Q : α → β → List UInt8 → Prop} (hd : d.Passes R) (hf : ∀ a, (f a).Passes (Q a)) :
    (d >>= f).Passes fun b used => ∃ a first second, used = first ++ second ∧ R a first ∧
      Q a b second := by
  intro r b r' hrun
  obtain ⟨a, s, ha, hb⟩ := stateBind_eq_ok_iff.1 hrun
  obtain ⟨first, hrest, hbase, hconsumed, hR⟩ := hd r a s ha
  obtain ⟨second, hrest', hbase', hconsumed', hQ⟩ := hf a s b r' hb
  refine ⟨first ++ second, ?_, ?_, ?_, a, first, second, rfl, hR, hQ⟩
  · rw [hrest, hrest', List.append_assoc]
  · rw [hbase', hbase]
  · rw [hconsumed', hconsumed, List.length_append, Nat.add_assoc]

/-- A value that is computed from the one that was read. -/
theorem Passes.map {d : Decoder α} {R : α → List UInt8 → Prop} (hd : d.Passes R) (f : α → β) :
    (d >>= fun a => pure (f a)).Passes fun b used => ∃ a, b = f a ∧ R a used := by
  refine (hd.bind fun a => passes_pure (f a)).imp ?_
  rintro b used ⟨a, first, second, rfl, hR, rfl, rfl⟩
  exact ⟨a, rfl, by rwa [List.append_nil]⟩

/-! ## Numbers -/

theorem passes_number (width : Nat) : (number width).Passes fun n used =>
    used = Binary.toBigEndian width n ∧ n < 256 ^ width := by
  refine ((passes_take width).map Binary.bigEndian).imp ?_
  rintro n used ⟨bytes, rfl, rfl, rfl⟩
  exact ⟨(Binary.toBigEndian_bigEndian bytes).symm, Binary.bigEndian_lt bytes⟩

theorem passes_uint8 : uint8.Passes fun b used => used = [b] := by
  refine ((passes_number 1).map UInt8.ofNat).imp ?_
  rintro b used ⟨n, rfl, rfl, hn⟩
  rfl

theorem passes_uint16 : uint16.Passes fun n used => used = Binary.word16 n := by
  refine ((passes_number 2).map UInt16.ofNat).imp ?_
  rintro m used ⟨n, rfl, rfl, hn⟩
  rw [Binary.word16, UInt16.toNat_ofNat_of_lt' hn]

theorem passes_uint32 : uint32.Passes fun n used => used = Binary.word32 n := by
  refine ((passes_number 4).map UInt32.ofNat).imp ?_
  rintro m used ⟨n, rfl, rfl, hn⟩
  rw [Binary.word32, UInt32.toNat_ofNat_of_lt' hn]

theorem passes_uint64 : uint64.Passes fun n used => used = Binary.word64 n := by
  refine ((passes_number 8).map UInt64.ofNat).imp ?_
  rintro m used ⟨n, rfl, rfl, hn⟩
  rw [Binary.word64, UInt64.toNat_ofNat_of_lt' hn]

theorem passes_int32 : int32.Passes fun n used => used = Binary.word32 n.toUInt32 := by
  refine (passes_uint32.map UInt32.toInt32).imp ?_
  rintro n used ⟨m, rfl, rfl⟩
  rfl

theorem passes_int64 : int64.Passes fun n used => used = Binary.word64 n.toUInt64 := by
  refine (passes_uint64.map UInt64.toInt64).imp ?_
  rintro n used ⟨m, rfl, rfl⟩
  rfl

end Decoder

end ClassAtlas
