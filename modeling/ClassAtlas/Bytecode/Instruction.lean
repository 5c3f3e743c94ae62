import ClassAtlas.Binary.Reader

/-!
# Instructions

The encoding of bytecode: an opcode determines how the operands that follow it are laid out. No
control flow or stack effect is modelled; an `Instruction` is an opcode with its operands.

## Main definitions

* `OpcodeForm.of?` is the table of operand layouts.
* `Instruction.decode` reads one instruction, `Instruction.decodeAll` a whole body of code.
* `Instruction.reference?` is the pool index that an instruction refers to.
* `scanCode` lists the references of a body of code.
-/

namespace ClassAtlas

/-- How operands follow an opcode. -/
inductive OpcodeForm where
  /-- So many bytes, none of which is a pool index. -/
  | plain (operands : Nat)
  /-- A pool index of so many bytes, and then so many other bytes. -/
  | reference (indexWidth extra : Nat)
  | tableSwitch
  | lookupSwitch
  | wide
  deriving DecidableEq

/-- The layout of the operands of an opcode. -/
def OpcodeForm.of? (opcode : UInt8) : Option OpcodeForm :=
  let op := opcode.toNat
  if op = 0x12 then some (.reference 1 0)
  else if op = 0x13 ∨ op = 0x14 then some (.reference 2 0)
  else if 0xb2 ≤ op ∧ op ≤ 0xb8 then some (.reference 2 0)
  else if op = 0xb9 ∨ op = 0xba then some (.reference 2 2)
  else if op = 0xbb ∨ op = 0xbd ∨ op = 0xc0 ∨ op = 0xc1 then some (.reference 2 0)
  else if op = 0xc5 then some (.reference 2 1)
  else if op = 0xaa then some .tableSwitch
  else if op = 0xab then some .lookupSwitch
  else if op = 0xc4 then some .wide
  else if op = 0x10 then some (.plain 1)
  else if op = 0x11 then some (.plain 2)
  else if 0x15 ≤ op ∧ op ≤ 0x19 then some (.plain 1)
  else if 0x36 ≤ op ∧ op ≤ 0x3a then some (.plain 1)
  else if op = 0x84 then some (.plain 2)
  else if 0x99 ≤ op ∧ op ≤ 0xa8 then some (.plain 2)
  else if op = 0xa9 then some (.plain 1)
  else if op = 0xbc then some (.plain 1)
  else if op = 0xc6 ∨ op = 0xc7 then some (.plain 2)
  else if op = 0xc8 ∨ op = 0xc9 then some (.plain 4)
  else if op ≤ 0xca then some (.plain 0)
  else if op = 0xfe ∨ op = 0xff then some (.plain 0)
  else none

/-- The number of operand bytes of an opcode behind `wide`. -/
def wideOperands? (opcode : UInt8) : Option Nat :=
  let op := opcode.toNat
  if op = 0x84 then some 4
  else if (0x15 ≤ op ∧ op ≤ 0x19) ∨ (0x36 ≤ op ∧ op ≤ 0x3a) ∨ op = 0xa9 then some 2
  else none

/-- The bytes between the opcode of a switch at `pc` and the next multiple of four. -/
def switchPadding (pc : Nat) : Nat := (4 - (pc + 1) % 4) % 4

/-- An opcode with its operands. -/
inductive Instruction where
  | plain (opcode : UInt8) (operands : List UInt8)
  | reference (opcode : UInt8) (index : UInt16) (extra : List UInt8)
  | tableSwitch (padding default : List UInt8) (low high : Int32) (targets : List UInt8)
  | lookupSwitch (padding default : List UInt8) (pairs : Int32) (table : List UInt8)
  | wide (opcode : UInt8) (operands : List UInt8)
  deriving DecidableEq

/-- An instruction with a pool index. -/
structure InstructionRef where
  /-- The place of the instruction in the code. -/
  pc : Nat
  opcode : UInt8
  index : UInt16
  deriving DecidableEq

namespace Instruction

/-- What follows the opcode of a switch over a range of numbers at `pc`. -/
def tableSwitchBody (pc : Nat) : Decoder Instruction := do
  let padding ← Decoder.take (switchPadding pc)
  let default ← Decoder.take 4
  let low ← Decoder.int32
  let high ← Decoder.int32
  if high.toInt < low.toInt then
    Decoder.fail (.emptyTableSwitch pc high.toInt low.toInt)
  let targets ← Decoder.take ((high.toInt - low.toInt + 1).toNat * 4)
  return .tableSwitch padding default low high targets

/-- What follows the opcode of a switch over a list of numbers at `pc`. -/
def lookupSwitchBody (pc : Nat) : Decoder Instruction := do
  let padding ← Decoder.take (switchPadding pc)
  let default ← Decoder.take 4
  let pairs ← Decoder.int32
  if pairs.toInt < 0 then Decoder.fail (.negativeLookupSwitch pc pairs.toInt)
  let table ← Decoder.take (pairs.toInt.toNat * 8)
  return .lookupSwitch padding default pairs table

/-- What follows `wide` at `pc`. -/
def wideBody (pc : Nat) : Decoder Instruction := do
  let opcode ← Decoder.uint8
  match wideOperands? opcode with
  | some n => return .wide opcode (← Decoder.take n)
  | none => Decoder.fail (.unknownWide opcode pc)

/-- One instruction. The reader counts from the start of the code. -/
def decode : Decoder Instruction := do
  let pc := (← get).consumed
  let opcode ← Decoder.uint8
  match OpcodeForm.of? opcode with
  | some (.plain n) => return .plain opcode (← Decoder.take n)
  | some (.reference width extra) =>
    return .reference opcode (UInt16.ofNat (← Decoder.number width)) (← Decoder.take extra)
  | some .tableSwitch => tableSwitchBody pc
  | some .lookupSwitch => lookupSwitchBody pc
  | some .wide => wideBody pc
  | none => Decoder.fail (.unknownOpcode opcode pc)

/-- At most so many instructions, each with its place, up to the end of the code. -/
def decodeUpTo : Nat → Decoder (List (Nat × Instruction))
  | 0 => return []
  | n + 1 => do
    let start ← get
    if start.isEmpty then return []
    let first ← decode
    let others ← decodeUpTo n
    return (start.consumed, first) :: others

/-- All instructions of a body of code that starts at the absolute offset `base`. An instruction has
at least one byte, so the length of the code bounds their number. -/
def decodeAll (code : List UInt8) (base : Nat) : Except DecodeError (List (Nat × Instruction)) :=
  (decodeUpTo code.length).run' (.ofBytes code base)

/-- The pool index of an instruction. -/
def reference? : Nat × Instruction → Option InstructionRef
  | (pc, .reference opcode index _) => some ⟨pc, opcode, index⟩
  | _ => none

end Instruction

/-- The references of a body of code that starts at the absolute offset `base`. -/
def scanCode (code : List UInt8) (base : Nat) : Except DecodeError (List InstructionRef) :=
  (·.filterMap Instruction.reference?) <$> Instruction.decodeAll code base

end ClassAtlas
