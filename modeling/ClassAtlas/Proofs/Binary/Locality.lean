import ClassAtlas.Binary.Reader
import ClassAtlas.Proofs.Outcome

/-!
# What a decoder depends on

A decoder that succeeds has looked at the bytes it passed over and at nothing behind them. If some of
these bytes are missing it cannot tell until it asks for the first missing one, so all it can do is
to run out of data.

## Main definitions

* `RunsOut` says that a result is the error of data that ended at a given offset.
* `Decoder.Settles` says that a decoder gives a value on these bytes, whatever follows them, and runs
  out on every proper part of them.
* `Decoder.Local` says that a decoder settles on what it passes over.

The rules below show that every decoder that is put together from reads is local: `take` is the only
one that looks at bytes, and it gives all the bytes that are asked for or none.
-/

namespace ClassAtlas

/-- The result is the error of data that ended at the offset `total` where more was needed. -/
def RunsOut {α : Type} (result : Except DecodeError α) (total : Nat) : Prop :=
  ∃ offset needed available, result = .error (.unexpectedEnd offset needed available) ∧
    offset + available = total ∧ available < needed

theorem RunsOut.bind {α β : Type} {x : Except DecodeError α} {total : Nat} (h : RunsOut x total)
    (f : α → Except DecodeError β) : RunsOut (x >>= f) total := by
  obtain ⟨offset, needed, available, rfl, hrest⟩ := h
  exact ⟨offset, needed, available, rfl, hrest⟩

theorem RunsOut.map {α β : Type} {x : Except DecodeError α} {total : Nat} (h : RunsOut x total)
    (f : α → β) : RunsOut (f <$> x) total := by
  obtain ⟨offset, needed, available, rfl, hrest⟩ := h
  exact ⟨offset, needed, available, rfl, hrest⟩

namespace Decoder

variable {α β : Type}

/-- At an offset the decoder gives `a` for the bytes `used`, whatever follows them, and every proper
part of them is too short for it. -/
structure Settles (d : Decoder α) (base consumed : Nat) (used : List UInt8) (a : α) : Prop where
  extend : ∀ rest, d ⟨base, consumed, used ++ rest⟩ = .ok (a, ⟨base, consumed + used.length, rest⟩)
  cut : ∀ k < used.length, RunsOut (d ⟨base, consumed, used.take k⟩) (base + consumed + k)

/-- Whatever the decoder gives depends on the bytes that it passed over alone. -/
def Local (d : Decoder α) : Prop :=
  ∀ base consumed bytes a r, d ⟨base, consumed, bytes⟩ = .ok (a, r) →
    ∃ used, bytes = used ++ r.rest ∧ d.Settles base consumed used a

theorem Settles.run' {d : Decoder α} {base : Nat} {used : List UInt8} {a : α}
    (h : d.Settles base 0 used a) (rest : List UInt8) :
    d.run' (.ofBytes (used ++ rest) base) = .ok a := by
  rw [StateT.run', Reader.ofBytes, h.extend rest]
  rfl

theorem Settles.run'_take {d : Decoder α} {base : Nat} {used : List UInt8} {a : α}
    (h : d.Settles base 0 used a) {k : Nat} (hk : k < used.length) :
    RunsOut (d.run' (.ofBytes (used.take k) base)) (base + k) := (h.cut k hk).map Prod.fst

/-- What a decoder accepts from its start settles it. -/
theorem Local.exists_settles {d : Decoder α} (hd : d.Local) {bytes : List UInt8} {base : Nat} {a : α}
    (h : d.run' (.ofBytes bytes base) = .ok a) :
    ∃ used rest, bytes = used ++ rest ∧ d.Settles base 0 used a := by
  obtain ⟨p, hp, rfl⟩ := exists_of_map_eq_ok h
  obtain ⟨used, hbytes, hused⟩ := hd base 0 bytes p.1 p.2 hp
  exact ⟨used, p.2.rest, hbytes, hused⟩

/-! ## Steps -/

/-- A decoder that looks at no byte. -/
theorem local_of_forall_rest {d : Decoder α} (result : Nat → Nat → Except DecodeError α)
    (h : ∀ base consumed rest,
      d ⟨base, consumed, rest⟩ = (result base consumed).map (·, ⟨base, consumed, rest⟩)) :
    d.Local := by
  intro base consumed bytes a r hrun
  rw [h] at hrun
  cases hresult : result base consumed with
  | error e =>
    rw [hresult] at hrun
    cases hrun
  | ok b =>
    rw [hresult] at hrun
    cases hrun
    refine ⟨[], rfl, fun rest => ?_, fun k hk => absurd hk (Nat.not_lt_zero k)⟩
    rw [h, hresult]
    rfl

theorem local_pure (a : α) : (pure a : Decoder α).Local :=
  local_of_forall_rest (fun _ _ => .ok a) fun _ _ _ => rfl

theorem local_fail (fault : FormatFault) : (fail fault : Decoder α).Local :=
  local_of_forall_rest (fun _ _ => .error (.format fault)) fun _ _ _ => rfl

theorem local_position : position.Local :=
  local_of_forall_rest (fun base consumed => .ok (base + consumed)) fun _ _ _ => rfl

theorem local_ofExcept (result : Except DecodeError α) : (ofExcept result).Local :=
  local_of_forall_rest (fun _ _ => result) fun _ _ _ => by cases result <;> rfl

/-- An inner reader has its own bytes; those of the outer one are not looked at. -/
theorem local_within (inner : Reader) (d : Decoder α) : (within inner d).Local := by
  refine local_of_forall_rest (fun _ _ => d inner) fun _ _ _ => ?_
  rw [within]
  cases d inner <;> rfl

theorem local_take (n : Nat) : (take n).Local := by
  intro base consumed bytes a r hrun
  rw [take_apply] at hrun
  split at hrun
  · next hle =>
    cases hrun
    have hlength : (bytes.take n).length = n := List.length_take_of_le hle
    refine ⟨bytes.take n, by simp [Reader.skip], fun rest => ?_, fun k hk => ?_⟩
    · simp [take_apply, Reader.skip, Reader.remaining, hlength]
    · refine ⟨base + consumed, n, k, ?_, rfl, hlength ▸ hk⟩
      have hk' : ((bytes.take n).take k).length = k := by
        rw [List.length_take]
        omega
      have hshort : ¬ n ≤ (⟨base, consumed, (bytes.take n).take k⟩ : Reader).remaining := by
        rw [Reader.remaining, hk']
        omega
      rw [take_apply, if_neg hshort, Reader.remaining, hk']
      rfl
  · cases hrun

/-- One decoder after the other: where the first one has all its bytes, the second one runs out. -/
theorem Settles.bind {d : Decoder α} {f : α → Decoder β} {base consumed : Nat}
    {first second : List UInt8} {a : α} {b : β} (hd : d.Settles base consumed first a)
    (hf : (f a).Settles base (consumed + first.length) second b) :
    (d >>= f).Settles base consumed (first ++ second) b where
  extend rest := by
    rw [List.append_assoc, List.length_append, ← Nat.add_assoc, stateBind_eq_ok_iff]
    exact ⟨a, _, hd.extend (second ++ rest), hf.extend rest⟩
  cut k hk := by
    change RunsOut (d _ >>= fun p => f p.1 p.2) _
    rcases Nat.lt_or_ge k first.length with hlt | hge
    · rw [List.take_append_of_le_length (Nat.le_of_lt hlt)]
      exact (hd.cut k hlt).bind _
    · obtain ⟨j, rfl⟩ := Nat.exists_eq_add_of_le hge
      rw [List.take_length_add_append, hd.extend, ← Nat.add_assoc, Nat.add_assoc base]
      refine hf.cut j ?_
      rw [List.length_append] at hk
      omega

theorem Local.bind {d : Decoder α} {f : α → Decoder β} (hd : d.Local) (hf : ∀ a, (f a).Local) :
    (d >>= f).Local := by
  intro base consumed bytes b r hrun
  obtain ⟨a, s, ha, hb⟩ := stateBind_eq_ok_iff.1 hrun
  obtain ⟨first, rfl, hfirst⟩ := hd base consumed bytes a s ha
  obtain ⟨_, _, rest⟩ := s
  rw [hfirst.extend] at ha
  cases ha
  obtain ⟨second, hrest, hsecond⟩ := hf a base _ _ b r hb
  exact ⟨first ++ second, by rw [hrest, List.append_assoc], hfirst.bind hsecond⟩

/-- A failure stays one, whatever was to follow. -/
theorem local_fail_bind (fault : FormatFault) (f : α → Decoder β) : (fail fault >>= f).Local :=
  local_of_forall_rest (fun _ _ => .error (.format fault)) fun _ _ _ => rfl

theorem local_ite {p : Prop} [Decidable p] {d e : Decoder α} (hd : d.Local) (he : e.Local) :
    (if p then d else e).Local := by
  split
  · exact hd
  · exact he

theorem Local.map {d : Decoder α} (hd : d.Local) (f : α → β) : (f <$> d).Local :=
  hd.bind fun a => local_pure (f a)

/-! ## Numbers, lists and parts -/

theorem local_skip (n : Nat) : (skip n).Local := (local_take n).bind fun _ => local_pure _

theorem local_number (width : Nat) : (number width).Local :=
  (local_take width).bind fun _ => local_pure _

theorem local_uint8 : uint8.Local := (local_number 1).bind fun _ => local_pure _

theorem local_uint16 : uint16.Local := (local_number 2).bind fun _ => local_pure _

theorem local_uint32 : uint32.Local := (local_number 4).bind fun _ => local_pure _

theorem local_uint64 : uint64.Local := (local_number 8).bind fun _ => local_pure _

theorem local_int32 : int32.Local := local_uint32.bind fun _ => local_pure _

theorem local_int64 : int64.Local := local_uint64.bind fun _ => local_pure _

theorem local_part (n : Nat) : (part n).Local :=
  local_position.bind fun _ => (local_take n).bind fun _ => local_pure _

theorem local_replicate {d : Decoder α} (hd : d.Local) (n : Nat) : (replicate d n).Local := by
  induction n with
  | zero => exact local_pure []
  | succ n ih => exact hd.bind fun _ => ih.bind fun _ => local_pure _

theorem local_counted {d : Decoder α} (hd : d.Local) : (counted d).Local :=
  local_uint16.bind fun n => local_replicate hd n.toNat

end Decoder

end ClassAtlas
