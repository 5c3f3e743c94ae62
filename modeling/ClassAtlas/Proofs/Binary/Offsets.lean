import ClassAtlas.Binary.Reader
import ClassAtlas.Proofs.Outcome

/-!
# Offsets into a buffer

Readers of parts report offsets into the whole. What keeps these right is that every reader has its
unread bytes from the buffer, at the offset that it takes for its position: a reader of a part gets
this from the reader that it was cut from.

## Main definitions

* `StandAt` says that bytes stand in a buffer at an offset.
* `FailsIn` says that a computation that finds too little data reports an offset in the buffer.
* `Decoder.Located` says that a decoder fails so or leaves a reader whose bytes are still from the
  buffer.
-/

namespace ClassAtlas

variable {α β : Type} {raw : List UInt8}

/-! ## Bytes and where they stand -/

/-- The bytes are those of the buffer from the offset `start` on, as many as they are. -/
structure StandAt (raw : List UInt8) (start : Nat) (bytes : List UInt8) : Prop where
  end_le : start + bytes.length ≤ raw.length
  slice_eq : (raw.drop start).take bytes.length = bytes

namespace StandAt

variable {start : Nat} {bytes : List UInt8}

theorem drop_self (h : start ≤ raw.length) : StandAt raw start (raw.drop start) where
  end_le := by
    rw [List.length_drop]
    omega
  slice_eq := List.take_length

theorem take (h : StandAt raw start bytes) (n : Nat) : StandAt raw start (bytes.take n) where
  end_le := by
    have hend := h.end_le
    rw [List.length_take]
    omega
  slice_eq := by
    rw [List.length_take, ← List.take_take, h.slice_eq]

theorem drop (h : StandAt raw start bytes) {n : Nat} (hn : n ≤ bytes.length) :
    StandAt raw (start + n) (bytes.drop n) where
  end_le := by
    have hend := h.end_le
    rw [List.length_drop]
    omega
  slice_eq := by
    rw [List.length_drop, ← List.drop_drop, ← List.drop_take, h.slice_eq]

end StandAt

/-- The reader has its unread bytes from the buffer. -/
def Reader.StandsIn (r : Reader) (raw : List UInt8) : Prop := StandAt raw r.position r.rest

theorem StandAt.standsIn_ofBytes {start : Nat} {bytes : List UInt8} (h : StandAt raw start bytes) :
    (Reader.ofBytes bytes start).StandsIn raw := h

/-! ## Errors -/

/-- If data is missing, there are fewer bytes than needed at an offset in the buffer. -/
def DecodeError.EndsIn (raw : List UInt8) : DecodeError → Prop
  | unexpectedEnd offset needed available => available < needed ∧ offset + available ≤ raw.length
  | format _ | badIndex .. | malformed _ => True

/-- The computation fails only with errors whose offsets are right for the buffer. -/
def FailsIn (raw : List UInt8) (x : Except DecodeError α) : Prop := ∀ e, x = .error e → e.EndsIn raw

theorem failsIn_ok (a : α) : FailsIn raw (.ok a) := fun _ h => nomatch h

theorem failsIn_error {e : DecodeError} (h : e.EndsIn raw) :
    FailsIn raw (.error e : Except DecodeError α) := by
  rintro _ ⟨⟩
  exact h

theorem FailsIn.bind {x : Except DecodeError α} {f : α → Except DecodeError β} (hx : FailsIn raw x)
    (hf : ∀ a, x = .ok a → FailsIn raw (f a)) : FailsIn raw (x >>= f) := by
  cases x with
  | error e => exact failsIn_error (hx e rfl)
  | ok a => exact hf a rfl

theorem FailsIn.map {x : Except DecodeError α} (hx : FailsIn raw x) (f : α → β) :
    FailsIn raw (f <$> x) := by
  cases x with
  | error e => exact failsIn_error (hx e rfl)
  | ok a => exact failsIn_ok (f a)

theorem failsIn_mapM {f : α → Except DecodeError β} (hf : ∀ a, FailsIn raw (f a)) (l : List α) :
    FailsIn raw (l.mapM f) := by
  induction l with
  | nil => exact failsIn_ok []
  | cons a l ih =>
    rw [List.mapM_cons]
    exact (hf a).bind fun _ _ => ih.bind fun _ _ => failsIn_ok _

/-! ## Decoders -/

namespace Decoder

/-- An error has its offset in the buffer; a value has the property and leaves a reader that stands in
the buffer. -/
def ResultIn (raw : List UInt8) (P : α → Prop) : Except DecodeError (α × Reader) → Prop
  | .ok (a, s) => P a ∧ s.StandsIn raw
  | .error e => e.EndsIn raw

/-- On every reader that stands in the buffer, the decoder gives such a result. -/
def Located (raw : List UInt8) (d : Decoder α) (P : α → Prop) : Prop :=
  ∀ r : Reader, r.StandsIn raw → ResultIn raw P (d r)

variable {d : Decoder α} {P Q : α → Prop} {R : β → Prop}

theorem ResultIn.imp {x : Except DecodeError (α × Reader)} (h : ResultIn raw P x)
    (hPQ : ∀ a, P a → Q a) : ResultIn raw Q x := by
  rcases x with e | ⟨a, s⟩
  · exact h
  · exact ⟨hPQ a h.1, h.2⟩

theorem ResultIn.bind {f : α → Decoder β} {x : Except DecodeError (α × Reader)}
    (hx : ResultIn raw P x) (hf : ∀ a, P a → (f a).Located raw R) :
    ResultIn raw R (x >>= fun p => f p.1 p.2) := by
  rcases x with e | ⟨a, s⟩
  · exact hx
  · exact hf a hx.1 s hx.2

theorem Located.imp (h : d.Located raw P) (hPQ : ∀ a, P a → Q a) : d.Located raw Q :=
  fun r hr => (h r hr).imp hPQ

theorem Located.bind {f : α → Decoder β} (hd : d.Located raw P)
    (hf : ∀ a, P a → (f a).Located raw R) : (d >>= f).Located raw R :=
  fun r hr => (hd r hr).bind hf

theorem located_pure {a : α} (h : P a) : (pure a : Decoder α).Located raw P := fun _ hr => ⟨h, hr⟩

theorem located_fail (fault : FormatFault) : (fail fault : Decoder α).Located raw P :=
  fun _ _ => trivial

/-- A failure stays one, whatever was to follow. -/
theorem located_fail_bind (fault : FormatFault) (f : α → Decoder β) :
    (fail fault >>= f).Located raw R := fun _ _ => trivial

theorem located_ite {p : Prop} [Decidable p] {e : Decoder α} (hd : d.Located raw P)
    (he : e.Located raw P) : (if p then d else e).Located raw P := by
  split
  · exact hd
  · exact he

theorem Located.map {f : α → β} (hd : d.Located raw P) (hf : ∀ a, P a → R (f a)) :
    (f <$> d).Located raw R := hd.bind fun a ha => located_pure (hf a ha)

theorem located_ofExcept {result : Except DecodeError α} (h : FailsIn raw result) :
    (ofExcept result).Located raw fun _ => True := by
  intro r hr
  cases result with
  | error e => exact h e rfl
  | ok a => exact ⟨trivial, hr⟩

/-- The inner reader has to stand in the buffer as well. -/
theorem located_within {inner : Reader} (hinner : inner.StandsIn raw) (h : d.Located raw P) :
    (within inner d).Located raw fun p => P p.1 := by
  intro r hr
  have hresult := h inner hinner
  rw [within]
  generalize d inner = x at hresult
  rcases x with e | ⟨a, s⟩
  · exact hresult
  · exact ⟨hresult.1, hr⟩

theorem located_position : position.Located raw fun _ => True := fun _ hr => ⟨trivial, hr⟩

/-- The bytes that are taken stand where the reader stood. -/
theorem resultIn_take {r : Reader} (hr : r.StandsIn raw) (n : Nat) :
    ResultIn raw (StandAt raw r.position) (take n r) := by
  rw [take_apply]
  split
  · next hle =>
    have hskip : (r.skip n).position = r.position + n := (Nat.add_assoc ..).symm
    refine ⟨StandAt.take hr n, ?_⟩
    rw [Reader.StandsIn, hskip]
    exact StandAt.drop hr hle
  · next hlt => exact ⟨Nat.not_le.1 hlt, hr.end_le⟩

theorem located_take (n : Nat) : (take n).Located raw fun _ => True :=
  fun _ hr => (resultIn_take hr n).imp fun _ _ => trivial

/-- The position is asked for to know where the next bytes stand. -/
theorem located_position_take {f : Nat → List UInt8 → Decoder β} (n : Nat)
    (hf : ∀ start bytes, StandAt raw start bytes → (f start bytes).Located raw R) :
    (position >>= fun start => take n >>= f start).Located raw R :=
  fun r hr => (resultIn_take hr n).bind (hf r.position)

/-- A part of what stands in the buffer stands in the buffer. -/
theorem located_part (n : Nat) : (part n).Located raw fun inner => inner.StandsIn raw :=
  located_position_take n fun _ _ h => located_pure h.standsIn_ofBytes

/-! ## Numbers and lists -/

theorem located_skip (n : Nat) : (skip n).Located raw fun _ => True :=
  (located_take n).bind fun _ _ => located_pure trivial

theorem located_number (width : Nat) : (number width).Located raw fun _ => True :=
  (located_take width).map fun _ _ => trivial

theorem located_uint8 : uint8.Located raw fun _ => True := (located_number 1).map fun _ _ => trivial

theorem located_uint16 : uint16.Located raw fun _ => True := (located_number 2).map fun _ _ => trivial

theorem located_uint32 : uint32.Located raw fun _ => True := (located_number 4).map fun _ _ => trivial

theorem located_uint64 : uint64.Located raw fun _ => True := (located_number 8).map fun _ _ => trivial

theorem located_int32 : int32.Located raw fun _ => True := located_uint32.map fun _ _ => trivial

theorem located_int64 : int64.Located raw fun _ => True := located_uint64.map fun _ _ => trivial

theorem located_replicate (hd : d.Located raw P) (n : Nat) :
    (replicate d n).Located raw fun l => ∀ a ∈ l, P a := by
  induction n with
  | zero => exact located_pure (List.forall_mem_nil P)
  | succ n ih =>
    exact hd.bind fun a ha => ih.map fun l hl => List.forall_mem_cons.2 ⟨ha, hl⟩

theorem located_counted (hd : d.Located raw P) :
    (counted d).Located raw fun l => ∀ a ∈ l, P a :=
  located_uint16.bind fun n _ => located_replicate hd n.toNat

/-! ## Whole runs -/

theorem Located.failsIn_run' (hd : d.Located raw P) {r : Reader} (hr : r.StandsIn raw) :
    FailsIn raw (d.run' r) := by
  have hresult := hd r hr
  rw [StateT.run']
  generalize d r = x at hresult
  rcases x with e | ⟨a, s⟩
  · exact failsIn_error hresult
  · exact failsIn_ok a

theorem Located.of_run' (hd : d.Located raw P) {r : Reader} (hr : r.StandsIn raw) {a : α}
    (h : d.run' r = .ok a) : P a := by
  obtain ⟨p, hp, rfl⟩ := exists_of_map_eq_ok h
  have hresult := hd r hr
  rw [hp] at hresult
  exact hresult.1

end Decoder

end ClassAtlas
