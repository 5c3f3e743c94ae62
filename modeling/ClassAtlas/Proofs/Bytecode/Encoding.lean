import ClassAtlas.Bytecode.Instruction
import ClassAtlas.Proofs.Binary.Inversion

/-!
# The encoding of instructions

Which bytes an instruction is encoded as, form by form. The operands of a switch stand at a multiple
of four from the start of the code, so its encoding depends on where it stands, and the bytes in
between are arbitrary.

## Main definitions

* `operandTable` lists the opcodes of fixed length without a pool index.
* `Instruction.Encodes` relates an instruction at a place in the code to its bytes.

## Main statements

* `Instruction.Encodes.decode_eq` says that an encoding is read as the instruction.
* `Instruction.encodes_of_decode` says that what is read is an encoding of it.
-/

namespace ClassAtlas

open Decoder

/-! ## Opcodes -/

/-- Neighbouring opcodes with the same number of operand bytes. -/
structure OpcodeRange where
  first : UInt8
  last : UInt8
  operands : Nat

/-- The opcodes of fixed length without a pool index. -/
def operandTable : List OpcodeRange :=
  [⟨0x00, 0x0f, 0⟩, -- small constants
    ⟨0x10, 0x10, 1⟩, ⟨0x11, 0x11, 2⟩, -- constants of one and two bytes
    ⟨0x15, 0x19, 1⟩, ⟨0x1a, 0x35, 0⟩, -- loads from local variables, loads from arrays
    ⟨0x36, 0x3a, 1⟩, ⟨0x3b, 0x83, 0⟩, -- stores to local variables, stack and arithmetic
    ⟨0x84, 0x84, 2⟩, -- increment of a local variable
    ⟨0x85, 0x98, 0⟩, -- conversions and comparisons
    ⟨0x99, 0xa8, 2⟩, ⟨0xa9, 0xa9, 1⟩, -- branches, return from a subroutine
    ⟨0xac, 0xb1, 0⟩, -- returns
    ⟨0xbc, 0xbc, 1⟩, -- arrays of primitives
    ⟨0xbe, 0xbf, 0⟩, ⟨0xc2, 0xc3, 0⟩, -- array length and throw, monitors
    ⟨0xc6, 0xc7, 2⟩, ⟨0xc8, 0xc9, 4⟩, -- branches on null, wide branches
    ⟨0xca, 0xca, 0⟩, ⟨0xfe, 0xff, 0⟩] -- reserved

/-- The number of operand bytes that the table has for an opcode. -/
def operandCount? (opcode : UInt8) : Option Nat :=
  (operandTable.find? fun range => range.first ≤ opcode ∧ opcode ≤ range.last).map
    OpcodeRange.operands

/-- The opcodes with a pool index of two bytes and nothing else. -/
def indexedOpcodes : List UInt8 :=
  [0x13, 0x14, 0xb2, 0xb3, 0xb4, 0xb5, 0xb6, 0xb7, 0xb8, 0xbb, 0xbd, 0xc0, 0xc1]

/-- The opcodes whose operand is the number of a local variable. -/
def localOpcodes : List UInt8 :=
  [0x15, 0x16, 0x17, 0x18, 0x19, 0x36, 0x37, 0x38, 0x39, 0x3a, 0xa9]

/-- The forms of opcodes other than those of the table. -/
def OpcodeForm.special? (opcode : UInt8) : Option OpcodeForm :=
  if opcode = 0x12 then some (.reference 1 0)
  else if opcode ∈ indexedOpcodes then some (.reference 2 0)
  else if opcode = 0xb9 ∨ opcode = 0xba then some (.reference 2 2)
  else if opcode = 0xc5 then some (.reference 2 1)
  else if opcode = 0xaa then some .tableSwitch
  else if opcode = 0xab then some .lookupSwitch
  else if opcode = 0xc4 then some .wide
  else none

theorem forall_byte {P : UInt8 → Prop} (h : ∀ n < 256, P (UInt8.ofNat n)) (b : UInt8) :
    P b := by
  have hb := h b.toNat b.toNat_lt
  rwa [UInt8.ofNat_toNat] at hb

namespace OpcodeForm

/-- An opcode has the form that the table gives it, or else a special one. -/
theorem of?_eq (opcode : UInt8) :
    of? opcode = ((operandCount? opcode).map .plain).or (special? opcode) := by
  revert opcode
  exact forall_byte (by decide +kernel)

theorem of?_of_operandCount? {opcode : UInt8} {n : Nat} (h : operandCount? opcode = some n) :
    of? opcode = some (.plain n) := by
  rw [of?_eq, h]
  rfl

/-- The forms that there are, and their opcodes. -/
theorem of?_cases {opcode : UInt8} {form : OpcodeForm} (h : of? opcode = some form) :
    (∃ n, operandCount? opcode = some n ∧ form = .plain n) ∨
      (opcode = 0x12 ∧ form = .reference 1 0) ∨
      (opcode ∈ indexedOpcodes ∧ form = .reference 2 0) ∨
      ((opcode = 0xb9 ∨ opcode = 0xba) ∧ form = .reference 2 2) ∨
      (opcode = 0xc5 ∧ form = .reference 2 1) ∨
      (opcode = 0xaa ∧ form = .tableSwitch) ∨
      (opcode = 0xab ∧ form = .lookupSwitch) ∨
      (opcode = 0xc4 ∧ form = .wide) := by
  rw [of?_eq, Option.or_eq_some_iff, Option.map_eq_some_iff] at h
  rcases h with ⟨n, hn, rfl⟩ | ⟨-, h⟩
  · exact .inl ⟨n, hn, rfl⟩
  · rw [special?] at h
    split_ifs at h <;> simp_all

end OpcodeForm

/-! ## Encodings -/

namespace Instruction

/-- The bytes between the opcode of a switch at `pc` and its operands. -/
def Pads (pc : Nat) (padding : List UInt8) : Prop :=
  padding.length < 4 ∧ (pc + 1 + padding.length) % 4 = 0

/-- The bytes are an encoding of the instruction, if it stands at `pc`. -/
inductive Encodes (pc : Nat) : Instruction → List UInt8 → Prop
  | plain {opcode : UInt8} {operands : List UInt8}
      (hcount : operandCount? opcode = some operands.length) :
      Encodes pc (.plain opcode operands) (opcode :: operands)
  /-- A constant that is loaded by an index of one byte. -/
  | load (index : UInt8) : Encodes pc (.reference 0x12 index.toUInt16 []) [0x12, index]
  | indexed {opcode : UInt8} (hopcode : opcode ∈ indexedOpcodes) (index : UInt16) :
      Encodes pc (.reference opcode index []) (opcode :: Binary.word16 index)
  /-- A call of an interface method or a dynamic call. -/
  | call {opcode : UInt8} (hopcode : opcode = 0xb9 ∨ opcode = 0xba) (index : UInt16) (a b : UInt8) :
      Encodes pc (.reference opcode index [a, b]) (opcode :: (Binary.word16 index ++ [a, b]))
  /-- An array of several dimensions. -/
  | newArray (index : UInt16) (dims : UInt8) :
      Encodes pc (.reference 0xc5 index [dims]) (0xc5 :: (Binary.word16 index ++ [dims]))
  | tableSwitch {padding default targets : List UInt8} {low high : Int32} (hpads : Pads pc padding)
      (hdefault : default.length = 4) (hle : low.toInt ≤ high.toInt)
      (htargets : (targets.length : Int) = 4 * (high.toInt - low.toInt + 1)) :
      Encodes pc (.tableSwitch padding default low high targets)
        (0xaa :: (padding ++ (default ++ (Binary.word32 low.toUInt32 ++
          (Binary.word32 high.toUInt32 ++ targets)))))
  | lookupSwitch {padding default table : List UInt8} {pairs : Int32} (hpads : Pads pc padding)
      (hdefault : default.length = 4) (hpairs : 0 ≤ pairs.toInt)
      (htable : (table.length : Int) = 8 * pairs.toInt) :
      Encodes pc (.lookupSwitch padding default pairs table)
        (0xab :: (padding ++ (default ++ (Binary.word32 pairs.toUInt32 ++ table))))
  /-- An increment with wide operands. -/
  | wideIncrement {operands : List UInt8} (hlength : operands.length = 4) :
      Encodes pc (.wide 0x84 operands) (0xc4 :: 0x84 :: operands)
  /-- A use of a local variable with a wide number. -/
  | wideLocal {opcode : UInt8} {operands : List UInt8} (hopcode : opcode ∈ localOpcodes)
      (hlength : operands.length = 2) :
      Encodes pc (.wide opcode operands) (0xc4 :: opcode :: operands)

variable {pc : Nat} {i : Instruction} {bytes : List UInt8}

theorem Encodes.ne_nil (h : Encodes pc i bytes) : bytes ≠ [] := by
  cases h <;> simp

/-- There is one length that pads a switch. -/
theorem pads_iff {padding : List UInt8} : Pads pc padding ↔ padding.length = switchPadding pc := by
  rw [Pads, switchPadding]
  omega

theorem wideOperands?_eq_some_iff {opcode : UInt8} {n : Nat} :
    wideOperands? opcode = some n ↔ opcode = 0x84 ∧ n = 4 ∨ opcode ∈ localOpcodes ∧ n = 2 := by
  have h : ∀ opcode : UInt8, wideOperands? opcode =
      if opcode = 0x84 then some 4 else if opcode ∈ localOpcodes then some 2 else none :=
    forall_byte (by decide +kernel)
  have hnot : (0x84 : UInt8) ∉ localOpcodes := by decide
  rw [h]
  grind

/-! ## Reading -/

/-- What follows an opcode at `pc`. -/
def afterOpcode (pc : Nat) (opcode : UInt8) : Decoder Instruction :=
  match OpcodeForm.of? opcode with
  | some (.plain n) => return .plain opcode (← Decoder.take n)
  | some (.reference width extra) =>
    return .reference opcode (UInt16.ofNat (← Decoder.number width)) (← Decoder.take extra)
  | some .tableSwitch => tableSwitchBody pc
  | some .lookupSwitch => lookupSwitchBody pc
  | some .wide => wideBody pc
  | none => Decoder.fail (.unknownOpcode opcode pc)

theorem decode_eq (r : Reader) :
    decode r = (uint8 >>= fun opcode => afterOpcode r.consumed opcode) r := rfl

theorem reads_take_of_length {n : Nat} (h : bytes.length = n) :
    (take n).Reads bytes (· = bytes) := h ▸ reads_take bytes

theorem reads_afterOpcode_plain {opcode : UInt8} {operands : List UInt8}
    (h : OpcodeForm.of? opcode = some (.plain operands.length)) :
    (afterOpcode pc opcode).Reads operands (· = .plain opcode operands) := by
  rw [afterOpcode, h]
  exact (reads_take operands).bind_pure fun bytes hbytes => by rw [hbytes]

theorem reads_afterOpcode_reference {opcode : UInt8} {index : UInt16} {width : Nat}
    {extra : List UInt8} (h : OpcodeForm.of? opcode = some (.reference width extra.length))
    (hindex : index.toNat < 256 ^ width) :
    (afterOpcode pc opcode).Reads (Binary.toBigEndian width index.toNat ++ extra)
      (· = .reference opcode index extra) := by
  rw [afterOpcode, h]
  refine (reads_number width index.toNat).bind fun n hn => ?_
  refine (reads_take extra).bind_pure fun bytes hbytes => ?_
  rw [hn, hbytes, Nat.mod_eq_of_lt hindex, UInt16.ofNat_toNat]

theorem reads_wideBody {opcode : UInt8} {operands : List UInt8}
    (h : wideOperands? opcode = some operands.length) :
    (wideBody pc).Reads (opcode :: operands) (· = .wide opcode operands) := by
  refine (reads_uint8 opcode).bind fun op hop => ?_
  rw [hop, h]
  exact (reads_take operands).bind_pure fun bytes hbytes => by rw [hbytes]

/-- An instruction that is read alike wherever it stands. -/
theorem reads_of_afterOpcode {opcode : UInt8} {operands : List UInt8} {P : Instruction → Prop}
    (h : ∀ pc, (afterOpcode pc opcode).Reads operands P) : decode.Reads (opcode :: operands) P :=
  fun base pc rest => ((reads_uint8 opcode).bind fun _ hop => hop ▸ h pc) base pc rest

/-- What an encoding holds behind the opcode is read as the instruction. -/
theorem Encodes.reads (h : Encodes pc i bytes) : ∃ opcode operands, bytes = opcode :: operands ∧
    (afterOpcode pc opcode).Reads operands (· = i) := by
  cases h with
  | plain hcount =>
    exact ⟨_, _, rfl, reads_afterOpcode_plain (OpcodeForm.of?_of_operandCount? hcount)⟩
  | load index =>
    have hbyte : [index] = Binary.toBigEndian 1 index.toUInt16.toNat ++ [] := by
      simp [Binary.toBigEndian]
    refine ⟨_, _, rfl, ?_⟩
    rw [hbyte]
    refine reads_afterOpcode_reference rfl ?_
    rw [UInt8.toNat_toUInt16]
    exact index.toNat_lt
  | @indexed opcode hopcode index =>
    have hform : ∀ opcode ∈ indexedOpcodes, OpcodeForm.of? opcode = some (.reference 2 0) := by
      decide +kernel
    refine ⟨_, _, rfl, ?_⟩
    rw [← List.append_nil (Binary.word16 index)]
    refine reads_afterOpcode_reference ?_ index.toNat_lt
    exact hform opcode hopcode
  | call hopcode index a b =>
    refine ⟨_, _, rfl, reads_afterOpcode_reference ?_ index.toNat_lt⟩
    rcases hopcode with rfl | rfl <;> rfl
  | newArray index dims =>
    exact ⟨_, _, rfl, reads_afterOpcode_reference rfl index.toNat_lt⟩
  | @tableSwitch padding default targets low high hpads hdefault hle htargets =>
    have hcount : targets.length = (high.toInt - low.toInt + 1).toNat * 4 := by omega
    refine ⟨_, _, rfl, ?_⟩
    refine (reads_take_of_length (pads_iff.1 hpads)).bind fun _ hpadding => ?_
    refine (reads_take_of_length hdefault).bind fun _ hdefault => ?_
    refine (reads_int32 low).bind fun _ hlow => (reads_int32 high).bind fun _ hhigh => ?_
    rw [hlow, hhigh, if_neg (Int.not_lt.2 hle)]
    exact (reads_take_of_length hcount).bind_pure fun _ htargets => by
      rw [hpadding, hdefault, htargets]
  | @lookupSwitch padding default table pairs hpads hdefault hpairs htable =>
    have hcount : table.length = pairs.toInt.toNat * 8 := by omega
    refine ⟨_, _, rfl, ?_⟩
    refine (reads_take_of_length (pads_iff.1 hpads)).bind fun _ hpadding => ?_
    refine (reads_take_of_length hdefault).bind fun _ hdefault => ?_
    refine (reads_int32 pairs).bind fun _ hp => ?_
    rw [hp, if_neg (Int.not_lt.2 hpairs)]
    exact (reads_take_of_length hcount).bind_pure fun _ htable => by
      rw [hpadding, hdefault, htable]
  | wideIncrement hlength =>
    exact ⟨_, _, rfl, reads_wideBody (wideOperands?_eq_some_iff.2 (.inl ⟨rfl, hlength⟩))⟩
  | wideLocal hopcode hlength =>
    exact ⟨_, _, rfl, reads_wideBody (wideOperands?_eq_some_iff.2 (.inr ⟨hopcode, hlength⟩))⟩

/-- An encoding is read as the instruction at its place, whatever follows it. -/
theorem Encodes.decode_eq (h : Encodes pc i bytes) (base : Nat) (rest : List UInt8) :
    decode ⟨base, pc, bytes ++ rest⟩ = .ok (i, ⟨base, pc + bytes.length, rest⟩) := by
  obtain ⟨opcode, operands, rfl, hoperands⟩ := h.reads
  obtain ⟨_, hread, rfl⟩ := ((reads_uint8 opcode).bind fun op hop => hop ▸ hoperands) base pc rest
  exact hread

/-! ## What was read -/

/-- An index of two bytes and the bytes behind it. -/
theorem passes_indexed (opcode : UInt8) (extra : Nat) :
    (do return .reference opcode (UInt16.ofNat (← Decoder.number 2)) (← Decoder.take extra) :
      Decoder Instruction).Passes fun i used => ∃ index bytes, bytes.length = extra ∧
        i = .reference opcode index bytes ∧ used = Binary.word16 index ++ bytes := by
  refine ((passes_number 2).bind fun n => (passes_take extra).map _).imp ?_
  rintro i used ⟨n, _, _, rfl, ⟨rfl, hn⟩, bytes, rfl, rfl, hlength⟩
  refine ⟨UInt16.ofNat n, bytes, hlength, rfl, ?_⟩
  rw [Binary.word16, UInt16.toNat_ofNat_of_lt' hn]

theorem passes_load :
    (do return .reference 0x12 (UInt16.ofNat (← Decoder.number 1)) (← Decoder.take 0) :
      Decoder Instruction).Passes fun i used => Encodes pc i (0x12 :: used) := by
  refine ((passes_number 1).bind fun n => (passes_take 0).map _).imp ?_
  rintro i used ⟨n, _, _, rfl, ⟨rfl, hn⟩, bytes, rfl, rfl, hlength⟩
  obtain rfl := List.length_eq_zero_iff.1 hlength
  have hindex : UInt16.ofNat n = (UInt8.ofNat n).toUInt16 := by
    apply UInt16.toNat_inj.1
    rw [UInt8.toNat_toUInt16, UInt16.toNat_ofNat', UInt8.toNat_ofNat']
    omega
  rw [hindex]
  exact .load (UInt8.ofNat n)

theorem passes_tableSwitchBody (pc : Nat) :
    (tableSwitchBody pc).Passes fun i used => Encodes pc i (0xaa :: used) := by
  refine ((passes_take _).bind fun padding => (passes_take 4).bind fun default =>
    passes_int32.bind fun low => passes_int32.bind (Q := fun high i used => ∃ targets,
      low.toInt ≤ high.toInt ∧ targets.length = (high.toInt - low.toInt + 1).toNat * 4 ∧
        i = .tableSwitch padding default low high targets ∧ used = targets) fun high => ?_).imp ?_
  · split
    · exact passes_fail_bind _ _ _
    · next hle =>
      refine ((passes_take _).map _).imp ?_
      rintro i used ⟨targets, rfl, rfl, hlength⟩
      exact ⟨_, Int.not_lt.1 hle, hlength, rfl, rfl⟩
  · rintro i used ⟨padding, _, _, rfl, ⟨rfl, hpads⟩, default, _, _, rfl, ⟨rfl, hdefault⟩, low, _, _,
      rfl, rfl, high, _, _, rfl, rfl, targets, hle, hlength, rfl, rfl⟩
    exact .tableSwitch (pads_iff.2 hpads) hdefault hle (by omega)

theorem passes_lookupSwitchBody (pc : Nat) :
    (lookupSwitchBody pc).Passes fun i used => Encodes pc i (0xab :: used) := by
  refine ((passes_take _).bind fun padding => (passes_take 4).bind fun default =>
    passes_int32.bind (Q := fun pairs i used => ∃ table, 0 ≤ pairs.toInt ∧
      table.length = pairs.toInt.toNat * 8 ∧ i = .lookupSwitch padding default pairs table ∧
        used = table) fun pairs => ?_).imp ?_
  · split
    · exact passes_fail_bind _ _ _
    · next hpairs =>
      refine ((passes_take _).map _).imp ?_
      rintro i used ⟨table, rfl, rfl, hlength⟩
      exact ⟨_, Int.not_lt.1 hpairs, hlength, rfl, rfl⟩
  · rintro i used ⟨padding, _, _, rfl, ⟨rfl, hpads⟩, default, _, _, rfl, ⟨rfl, hdefault⟩, pairs, _,
      _, rfl, rfl, table, hpairs, hlength, rfl, rfl⟩
    exact .lookupSwitch (pads_iff.2 hpads) hdefault hpairs (by omega)

theorem passes_wideBody (pc : Nat) :
    (wideBody pc).Passes fun i used => Encodes pc i (0xc4 :: used) := by
  refine (passes_uint8.bind (Q := fun opcode i used => ∃ operands,
    wideOperands? opcode = some operands.length ∧ i = .wide opcode operands ∧ used = operands)
      fun opcode => ?_).imp ?_
  · split
    · next n hn =>
      refine ((passes_take n).map _).imp ?_
      rintro i used ⟨operands, rfl, rfl, rfl⟩
      exact ⟨_, hn, rfl, rfl⟩
    · exact passes_fail _ _
  · rintro i used ⟨opcode, _, _, rfl, rfl, operands, hcount, rfl, rfl⟩
    rcases wideOperands?_eq_some_iff.1 hcount with ⟨rfl, hlength⟩ | ⟨hopcode, hlength⟩
    · exact .wideIncrement hlength
    · exact .wideLocal hopcode hlength

/-- The bytes behind an opcode that were read make up an encoding with it. -/
theorem passes_afterOpcode (pc : Nat) (opcode : UInt8) :
    (afterOpcode pc opcode).Passes fun i used => Encodes pc i (opcode :: used) := by
  rw [afterOpcode]
  cases hform : OpcodeForm.of? opcode with
  | none => exact passes_fail _ _
  | some form =>
    rcases OpcodeForm.of?_cases hform with ⟨n, hcount, rfl⟩ | ⟨rfl, rfl⟩ | ⟨hopcode, rfl⟩ |
      ⟨hopcode, rfl⟩ | ⟨rfl, rfl⟩ | ⟨rfl, rfl⟩ | ⟨rfl, rfl⟩ | ⟨rfl, rfl⟩
    · refine ((passes_take n).map _).imp ?_
      rintro i used ⟨bytes, rfl, rfl, rfl⟩
      exact .plain hcount
    · exact passes_load
    · refine (passes_indexed opcode 0).imp ?_
      rintro i used ⟨index, bytes, hlength, rfl, rfl⟩
      obtain rfl := List.length_eq_zero_iff.1 hlength
      rw [List.append_nil]
      exact .indexed hopcode index
    · refine (passes_indexed opcode 2).imp ?_
      rintro i used ⟨index, bytes, hlength, rfl, rfl⟩
      obtain ⟨a, b, rfl⟩ := List.length_eq_two.1 hlength
      exact .call hopcode index a b
    · refine (passes_indexed 0xc5 1).imp ?_
      rintro i used ⟨index, bytes, hlength, rfl, rfl⟩
      obtain ⟨dims, rfl⟩ := List.length_eq_one_iff.1 hlength
      exact .newArray index dims
    · exact passes_tableSwitchBody pc
    · exact passes_lookupSwitchBody pc
    · exact passes_wideBody pc

/-- What is read is encoded by the bytes that were passed over. -/
theorem encodes_of_decode {base : Nat} {r : Reader} (h : decode ⟨base, pc, bytes⟩ = .ok (i, r)) :
    ∃ used, bytes = used ++ r.rest ∧ r = ⟨base, pc + used.length, r.rest⟩ ∧ Encodes pc i used := by
  obtain ⟨used, hrest, hbase, hconsumed, opcode, _, operands, rfl, rfl, hencodes⟩ :=
    (passes_uint8.bind fun opcode => passes_afterOpcode pc opcode) _ _ _ h
  obtain ⟨_, _, rest⟩ := r
  cases hbase
  cases hconsumed
  exact ⟨_, hrest, rfl, hencodes⟩

end Instruction

end ClassAtlas
