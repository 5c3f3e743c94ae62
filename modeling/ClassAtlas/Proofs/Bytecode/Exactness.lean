import Mathlib.Logic.ExistsUnique
import ClassAtlas.Proofs.Bytecode.Encoding

/-!
# Bodies of code

A body of code that is accepted consists of the encodings of instructions, one behind the other, and
there is one way to cut it into them. Reading it elsewhere changes the offset at which data is
missing, and nothing else.

## Main definitions

* `Instruction.LaidOut` relates instructions with their places to the bytes of a body of code.
* `Decoder.Relocates` says that a decoder treats bytes alike wherever they start.

## Main statements

* `Instruction.decodeAll_eq_ok_iff` says that the instructions read are those that are laid out.
* `scanCode_exact` describes the references of a body of code.
-/

namespace ClassAtlas

/-! ## Moving the start of the bytes -/

/-- The same bytes, starting `n` further on. -/
def Reader.moved (n : Nat) (r : Reader) : Reader := { r with base := r.base + n }

/-- The error in bytes that start `n` further on. -/
def DecodeError.moved (n : Nat) : DecodeError → DecodeError
  | unexpectedEnd offset needed available => unexpectedEnd (offset + n) needed available
  | error => error

namespace Decoder

variable {α β : Type}

/-- What is read from bytes that start `n` further on. -/
def movedResult (n : Nat) : Except DecodeError (α × Reader) → Except DecodeError (α × Reader)
  | .ok (a, r) => .ok (a, r.moved n)
  | .error error => .error (error.moved n)

/-- The decoder depends on where the bytes start only for the offset of missing data. -/
def Relocates (d : Decoder α) : Prop := ∀ n r, d (r.moved n) = movedResult n (d r)

theorem relocates_pure (a : α) : (pure a : Decoder α).Relocates := fun _ _ => rfl

theorem relocates_fail (fault : FormatFault) : (fail fault : Decoder α).Relocates := fun _ _ => rfl

theorem relocates_fail_bind (fault : FormatFault) (f : α → Decoder β) :
    (fail fault >>= f).Relocates := fun _ _ => rfl

theorem Relocates.bind {d : Decoder α} {f : α → Decoder β} (hd : d.Relocates)
    (hf : ∀ a, (f a).Relocates) : (d >>= f).Relocates := by
  intro n r
  change (d (r.moved n) >>= fun p => f p.1 p.2) = movedResult n (d r >>= fun p => f p.1 p.2)
  rw [hd n r]
  cases d r with
  | error error => rfl
  | ok p => exact hf p.1 n p.2

theorem relocates_take (n : Nat) : (take n).Relocates := by
  intro m r
  have hposition : (r.moved m).position = r.position + m := by
    simp only [Reader.position, Reader.moved]
    omega
  rw [take_apply, take_apply, hposition]
  change (if n ≤ r.remaining then _ else _) = _
  split <;> rfl

theorem relocates_number (width : Nat) : (number width).Relocates :=
  (relocates_take width).bind fun _ => relocates_pure _

theorem relocates_uint8 : uint8.Relocates := (relocates_number 1).bind fun _ => relocates_pure _

theorem relocates_int32 : int32.Relocates :=
  ((relocates_number 4).bind fun _ => relocates_pure _).bind fun _ => relocates_pure _

/-- The result of a whole run in bytes that start elsewhere. -/
theorem Relocates.run'_eq {d : Decoder α} (hd : d.Relocates) (bytes : List UInt8) (base : Nat) :
    d.run' (.ofBytes bytes base) = (d.run' (.ofBytes bytes 0)).mapError (·.moved base) := by
  have hstart : Reader.ofBytes bytes base = (Reader.ofBytes bytes 0).moved base := by
    rw [Reader.ofBytes, Reader.ofBytes, Reader.moved, Nat.zero_add]
  rw [StateT.run', StateT.run', hstart, hd]
  cases d (Reader.ofBytes bytes 0) <;> rfl

end Decoder

open Decoder

namespace Instruction

theorem relocates_tableSwitchBody (pc : Nat) : (tableSwitchBody pc).Relocates := by
  refine (relocates_take _).bind fun padding => (relocates_take 4).bind fun default => ?_
  refine relocates_int32.bind fun low => relocates_int32.bind fun high => ?_
  split
  · exact relocates_fail_bind _ _
  · exact (relocates_take _).bind fun _ => relocates_pure _

theorem relocates_lookupSwitchBody (pc : Nat) : (lookupSwitchBody pc).Relocates := by
  refine (relocates_take _).bind fun padding => (relocates_take 4).bind fun default => ?_
  refine relocates_int32.bind fun pairs => ?_
  split
  · exact relocates_fail_bind _ _
  · exact (relocates_take _).bind fun _ => relocates_pure _

theorem relocates_wideBody (pc : Nat) : (wideBody pc).Relocates := by
  refine relocates_uint8.bind fun opcode => ?_
  split
  · exact (relocates_take _).bind fun _ => relocates_pure _
  · exact relocates_fail _

theorem relocates_afterOpcode (pc : Nat) (opcode : UInt8) : (afterOpcode pc opcode).Relocates := by
  unfold afterOpcode
  split
  · exact (relocates_take _).bind fun _ => relocates_pure _
  · exact (relocates_number _).bind fun _ => (relocates_take _).bind fun _ => relocates_pure _
  · exact relocates_tableSwitchBody pc
  · exact relocates_lookupSwitchBody pc
  · exact relocates_wideBody pc
  · exact relocates_fail _

-- The place of an instruction counts from the start of the code, which is not moved.
theorem relocates_decode : decode.Relocates := by
  intro n r
  rw [decode_eq, decode_eq]
  exact (relocates_uint8.bind fun opcode => relocates_afterOpcode r.consumed opcode) n r

theorem decodeUpTo_succ (n : Nat) (r : Reader) :
    decodeUpTo (n + 1) r = if r.isEmpty then .ok ([], r) else
      (decode >>= fun first => decodeUpTo n >>= fun others =>
        pure ((r.consumed, first) :: others)) r := by
  cases hempty : r.isEmpty <;>
    simp only [decodeUpTo, bind, StateT.bind, get, getThe, MonadStateOf.get, StateT.get, pure,
      Except.pure, Except.bind, hempty] <;> rfl

theorem relocates_decodeUpTo (n : Nat) : (decodeUpTo n).Relocates := by
  induction n with
  | zero => exact relocates_pure []
  | succ n ih =>
    intro m r
    rw [decodeUpTo_succ, decodeUpTo_succ]
    change (if r.isEmpty then _ else _) = _
    split
    · rfl
    · exact (relocates_decode.bind fun _ => ih.bind fun _ => relocates_pure _) m r

/-! ## Instructions one behind the other -/

/-- The bytes from `pc` on are the encodings of the instructions, each at its place, and nothing
else. -/
inductive LaidOut : Nat → List (Nat × Instruction) → List UInt8 → Prop
  | nil (pc : Nat) : LaidOut pc [] []
  | cons {pc : Nat} {i : Instruction} {bytes code : List UInt8} {insns : List (Nat × Instruction)}
      (hfirst : Encodes pc i bytes) (hrest : LaidOut (pc + bytes.length) insns code) :
      LaidOut pc ((pc, i) :: insns) (bytes ++ code)

variable {pc : Nat} {insns : List (Nat × Instruction)} {code : List UInt8}

/-- No instruction is empty. -/
theorem LaidOut.length_le (h : LaidOut pc insns code) : insns.length ≤ code.length := by
  induction h with
  | nil pc => exact Nat.le_refl 0
  | cons hfirst hrest ih =>
    have hpos := List.length_pos_of_ne_nil hfirst.ne_nil
    rw [List.length_cons, List.length_append]
    omega

/-- The instructions that are laid out are read. -/
theorem LaidOut.decodeUpTo_eq (h : LaidOut pc insns code) (base : Nat) {n : Nat}
    (hn : insns.length ≤ n) :
    decodeUpTo n ⟨base, pc, code⟩ = .ok (insns, ⟨base, pc + code.length, []⟩) := by
  induction h generalizing n with
  | nil pc =>
    cases n with
    | zero => rfl
    | succ n => exact decodeUpTo_succ n _
  | @cons pc i bytes code insns hfirst hrest ih =>
    obtain ⟨n, rfl⟩ := Nat.exists_eq_add_one_of_ne_zero (Nat.ne_zero_of_lt hn)
    have hempty : (⟨base, pc, bytes ++ code⟩ : Reader).isEmpty = false := by
      simp [Reader.isEmpty, hfirst.ne_nil]
    rw [decodeUpTo_succ, hempty, if_neg Bool.false_ne_true, stateBind_eq_ok_iff]
    refine ⟨i, _, hfirst.decode_eq base code, stateBind_eq_ok_iff.2 ⟨insns, _, ?_, rfl⟩⟩
    rw [ih (Nat.le_of_succ_le_succ hn), List.length_append, Nat.add_assoc]

/-- What is read to the end is laid out. -/
theorem laidOut_of_decodeUpTo {base n : Nat} {r : Reader} (hn : code.length ≤ n)
    (h : decodeUpTo n ⟨base, pc, code⟩ = .ok (insns, r)) : LaidOut pc insns code := by
  induction n generalizing pc code insns r with
  | zero =>
    obtain rfl := List.length_eq_zero_iff.1 (Nat.le_zero.1 hn)
    cases h
    exact .nil pc
  | succ n ih =>
    rw [decodeUpTo_succ] at h
    split at h
    · next hempty =>
      obtain rfl := List.isEmpty_iff.1 hempty
      cases h
      exact .nil pc
    · obtain ⟨i, s, hfirst, h⟩ := stateBind_eq_ok_iff.1 h
      obtain ⟨others, t, hothers, h⟩ := stateBind_eq_ok_iff.1 h
      obtain ⟨bytes, hcode, hs, hencodes⟩ := encodes_of_decode hfirst
      have hpos := List.length_pos_of_ne_nil hencodes.ne_nil
      rw [hs] at hothers
      cases h
      rw [hcode]
      refine .cons hencodes (ih ?_ hothers)
      rw [hcode, List.length_append] at hn
      omega

/-- The instructions of a body of code are the ones that are laid out in it. -/
theorem decodeAll_eq_ok_iff (base : Nat) :
    decodeAll code base = .ok insns ↔ LaidOut 0 insns code := by
  constructor
  · intro h
    obtain ⟨p, hp, rfl⟩ := exists_of_map_eq_ok h
    exact laidOut_of_decodeUpTo (Nat.le_refl _) hp
  · intro h
    rw [decodeAll, StateT.run', Reader.ofBytes, h.decodeUpTo_eq base h.length_le]
    rfl

/-- A body of code can be cut into instructions in one way. -/
theorem LaidOut.unique {others : List (Nat × Instruction)} (h : LaidOut 0 insns code)
    (h' : LaidOut 0 others code) : others = insns :=
  Except.ok.inj (((decodeAll_eq_ok_iff 0).2 h').symm.trans ((decodeAll_eq_ok_iff 0).2 h))

end Instruction

open Instruction

theorem scanCode_eq_moved (code : List UInt8) (base : Nat) :
    scanCode code base = (scanCode code 0).mapError (·.moved base) := by
  rw [scanCode, scanCode, decodeAll, (relocates_decodeUpTo _).run'_eq code base, decodeAll]
  cases (decodeUpTo code.length).run' (.ofBytes code 0) <;> rfl

/-- The references of a body of code are those of the instructions that are laid out in it, with
their places, and a body of code without such a layout is rejected. Where it starts matters for the
offset of missing data alone. -/
theorem scanCode_exact (code : List UInt8) (base : Nat) :
    (∀ insns, LaidOut 0 insns code → scanCode code base = .ok (insns.filterMap reference?)) ∧
      (∀ refs, scanCode code base = .ok refs →
        (∃! insns, LaidOut 0 insns code) ∧
          ∀ insns, LaidOut 0 insns code → refs = insns.filterMap reference?) ∧
      scanCode code base = (scanCode code 0).mapError (·.moved base) := by
  have hscan : ∀ insns, LaidOut 0 insns code →
      scanCode code base = .ok (insns.filterMap reference?) := by
    intro insns h
    rw [scanCode, (decodeAll_eq_ok_iff base).2 h]
    rfl
  refine ⟨hscan, ?_, scanCode_eq_moved code base⟩
  intro refs hrefs
  obtain ⟨insns, hinsns, -⟩ := exists_of_map_eq_ok hrefs
  have hlaid := (decodeAll_eq_ok_iff base).1 hinsns
  refine ⟨⟨insns, hlaid, fun others h => hlaid.unique h⟩, ?_⟩
  intro others h
  exact Except.ok.inj (hrefs.symm.trans (hscan others h))

/-- A constant, a switch over two numbers whose padding is not zero, and a call. -/
theorem scanCode_exact_switch :
    let code : List UInt8 := [0x12, 7, 0xaa, 0xff, 0, 0, 0, 22, 0xff, 0xff, 0xff, 0xff, 0, 0, 0, 0,
      0, 0, 0, 22, 0, 0, 0, 22, 0xb9, 0, 5, 1, 0]
    scanCode code 10 = .ok [⟨0, 0x12, 7⟩, ⟨24, 0xb9, 5⟩] ∧ ∃! insns, LaidOut 0 insns code := by
  have hswitch : Encodes 2 (.tableSwitch [0xff] [0, 0, 0, 22] (-1) 0 [0, 0, 0, 22, 0, 0, 0, 22])
      [0xaa, 0xff, 0, 0, 0, 22, 0xff, 0xff, 0xff, 0xff, 0, 0, 0, 0, 0, 0, 0, 22, 0, 0, 0, 22] :=
    .tableSwitch ⟨by decide, by decide⟩ rfl (by decide) (by decide)
  have hlaid := LaidOut.cons (.load 7) (.cons hswitch (.cons (.call (.inl rfl) 5 1 0) (.nil _)))
  have hscan := (scanCode_exact _ 10).1 _ hlaid
  exact ⟨hscan, ((scanCode_exact _ 10).2.1 _ hscan).1⟩

end ClassAtlas
