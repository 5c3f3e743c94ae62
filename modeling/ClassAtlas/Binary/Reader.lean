import ClassAtlas.Binary.DecodeError
import ClassAtlas.Binary.Word

/-!
# Reading bytes

A `Reader` is a position in a sequence of bytes. It knows the absolute offset at which the sequence
starts, so a reader of a part still reports offsets into the whole.

The reads in `Bytes` work in any monad with a reader for its state. All of them go through
`Bytes.take`, which asks for a number of bytes at once: it makes sure that they are there, and only
then moves on. A `Decoder` either gives a value with the reader after it, or an error; what is left
behind an error does not matter to it.
-/

namespace ClassAtlas

/-- The unread bytes of a sequence, how many were read before them, and the absolute offset of the
start of the sequence. -/
structure Reader where
  base : Nat
  consumed : Nat
  rest : List UInt8
  deriving DecidableEq

namespace Reader

/-- A reader at the start of `bytes`, which begin at the absolute offset `base`. -/
def ofBytes (bytes : List UInt8) (base : Nat) : Reader := ⟨base, 0, bytes⟩

/-- The absolute offset of the next byte. -/
def position (r : Reader) : Nat := r.base + r.consumed

/-- The number of unread bytes. -/
def remaining (r : Reader) : Nat := r.rest.length

def isEmpty (r : Reader) : Bool := r.rest.isEmpty

/-- The reader `n` bytes further on. -/
def skip (r : Reader) (n : Nat) : Reader := ⟨r.base, r.consumed + n, r.rest.drop n⟩

end Reader

namespace Bytes

variable {m : Type → Type} [Monad m] [MonadStateOf Reader m] [MonadExceptOf DecodeError m]

/-- Fails if fewer than `n` bytes are left. -/
def ensure (n : Nat) : m Unit := do
  let r ← get
  unless n ≤ r.remaining do throw (.unexpectedEnd r.position n r.remaining)

/-- Moves on by `n` bytes. -/
def advance (n : Nat) : m Unit := modify (·.skip n)

/-- The next `n` bytes. -/
def take (n : Nat) : m (List UInt8) := do
  ensure n
  let bytes := (← get).rest.take n
  advance n
  return bytes

/-- Passes over `n` bytes. -/
def skip (n : Nat) : m Unit := do let _ ← take n

/-- The absolute offset of the next byte. -/
def position : m Nat := return (← get).position

/-- An unsigned number of `width` bytes. -/
def number (width : Nat) : m Nat := return Binary.bigEndian (← take width)

def uint8 : m UInt8 := return UInt8.ofNat (← number 1)
def uint16 : m UInt16 := return UInt16.ofNat (← number 2)
def uint32 : m UInt32 := return UInt32.ofNat (← number 4)
def uint64 : m UInt64 := return UInt64.ofNat (← number 8)
def int32 : m Int32 := return (← uint32).toInt32
def int64 : m Int64 := return (← uint64).toInt64

/-- A reader of the next `n` bytes; they are passed over. -/
def part (n : Nat) : m Reader := do
  let start ← position
  let bytes ← take n
  return .ofBytes bytes start

end Bytes

/-- A reader of values. -/
abbrev Decoder (α : Type) := StateT Reader (Except DecodeError) α

namespace Decoder

variable {α β : Type}

/-- Rejects the format. -/
def fail (fault : FormatFault) : Decoder α := throw (.format fault)

def take (n : Nat) : Decoder (List UInt8) := Bytes.take n
def skip (n : Nat) : Decoder Unit := Bytes.skip n
def position : Decoder Nat := Bytes.position
def number (width : Nat) : Decoder Nat := Bytes.number width
def uint8 : Decoder UInt8 := Bytes.uint8
def uint16 : Decoder UInt16 := Bytes.uint16
def uint32 : Decoder UInt32 := Bytes.uint32
def uint64 : Decoder UInt64 := Bytes.uint64
def int32 : Decoder Int32 := Bytes.int32
def int64 : Decoder Int64 := Bytes.int64
def part (n : Nat) : Decoder Reader := Bytes.part n

theorem ensure_apply (n : Nat) (r : Reader) : (Bytes.ensure n : Decoder Unit) r =
    if n ≤ r.remaining then .ok ((), r)
    else .error (.unexpectedEnd r.position n r.remaining) := by
  show (if n ≤ r.remaining then pure () else throw _ : Decoder Unit) r = _
  split <;> rfl

theorem take_apply (n : Nat) (r : Reader) : take n r =
    if n ≤ r.remaining then .ok (r.rest.take n, r.skip n)
    else .error (.unexpectedEnd r.position n r.remaining) := by
  show ((Bytes.ensure n : Decoder Unit) r >>= fun p => .ok (p.2.rest.take n, p.2.skip n)) = _
  rw [ensure_apply]
  split <;> rfl

/-- Runs a decoder on another reader, and gives what it leaves unread. -/
def within (inner : Reader) (decoder : Decoder α) : Decoder (α × Reader) := fun r =>
  match decoder inner with
  | .ok result => .ok (result, r)
  | .error e => .error e

/-- `n` values one after the other. -/
def replicate (decoder : Decoder α) : Nat → Decoder (List α)
  | 0 => return []
  | n + 1 => do
    let first ← decoder
    let others ← replicate decoder n
    return first :: others

/-- Values preceded by their number in two bytes. -/
def counted (decoder : Decoder α) : Decoder (List α) := do replicate decoder (← uint16).toNat

/-- Lifts a result that needs no bytes. -/
def ofExcept (result : Except DecodeError α) : Decoder α := liftM result

end Decoder

end ClassAtlas
