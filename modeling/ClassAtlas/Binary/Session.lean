import ClassAtlas.Binary.Reader

/-!
# Sessions of reads

A `Session` is a stack of nested readers. Each `Read` is made on the innermost reader, and the
session goes on with the reader that the read leaves, whether it succeeds or fails.
-/

namespace ClassAtlas

/-- A single read. -/
inductive Read where
  | uint8 | uint16 | uint32 | int32 | int64 | float32 | float64
  | bytes (n : Nat)
  | skip (n : Nat)
  /-- Opens a reader of the next `n` bytes inside the current one. -/
  | enter (n : Nat)
  /-- Goes back to the enclosing reader; the outermost one stays. -/
  | leave
  deriving DecidableEq

/-- What a read gives. -/
inductive ReadValue where
  | nothing
  | unsigned (n : Nat)
  | int32 (n : Int32)
  | int64 (n : Int64)
  /-- The bits of a floating-point number. -/
  | float32 (bits : UInt32)
  | float64 (bits : UInt64)
  | bytes (bytes : List UInt8)

/-- A read that leaves a reader behind also where it fails. -/
abbrev Reading (α : Type) := ExceptT DecodeError (StateM Reader) α

namespace Reading

variable {α : Type}

/-- What the read gives on a reader, and the reader that it leaves. -/
def on (reading : Reading α) (r : Reader) : Except DecodeError α × Reader := reading.run.run r

end Reading

/-- A read that stays on the innermost reader. -/
def Read.reading : Read → Reading ReadValue
  | .uint8 => return .unsigned (← Bytes.uint8).toNat
  | .uint16 => return .unsigned (← Bytes.uint16).toNat
  | .uint32 => return .unsigned (← Bytes.uint32).toNat
  | .int32 => return .int32 (← Bytes.int32)
  | .int64 => return .int64 (← Bytes.int64)
  | .float32 => return .float32 (← Bytes.uint32)
  | .float64 => return .float64 (← Bytes.uint64)
  | .bytes n => return .bytes (← Bytes.take n)
  | .skip n => do
    Bytes.skip n
    return .nothing
  | .enter _ | .leave => return .nothing

/-- Nested readers, the innermost apart from those around it. -/
structure Session where
  current : Reader
  outer : List Reader

namespace Session

def start (bytes : List UInt8) (base : Nat) : Session := ⟨.ofBytes bytes base, []⟩

/-- Makes one read. -/
def step (s : Session) (read : Read) : Except DecodeError ReadValue × Session :=
  match read with
  | .enter n =>
    match (Bytes.part n : Reading Reader).on s.current with
    | (.ok inner, after) => (.ok .nothing, ⟨inner, after :: s.outer⟩)
    | (.error e, after) => (.error e, { s with current := after })
  | .leave =>
    match s.outer with
    | parent :: others => (.ok .nothing, ⟨parent, others⟩)
    | [] => (.ok .nothing, s)
  | read =>
    let (result, after) := read.reading.on s.current
    (result, { s with current := after })

end Session

end ClassAtlas
