import ClassAtlas.Binary.Reader
import ClassAtlas.Pool.Basic
import ClassAtlas.Text.Utf8

/-!
# Decoding constant pools

`PoolHeader.decode` reads the start of a class file: its magic word, its version and its constant
pool. What follows the pool is not looked at.
-/

namespace ClassAtlas

/-- The version of the format that a class file uses. -/
structure ClassVersion where
  major : UInt16
  minor : UInt16
  deriving DecidableEq

def ClassVersion.text (v : ClassVersion) : String := s!"{v.major}.{v.minor}"

/-- The start of a class file. -/
structure PoolHeader where
  version : ClassVersion
  pool : Pool
  /-- Where the part after the pool starts. -/
  sectionsOffset : Nat
  deriving DecidableEq

namespace PoolEntry

/-- The part of an entry after its tag; `index` and `offset` say where the entry stands. -/
def body (tag : UInt8) (index offset : Nat) : Decoder PoolEntry := do
  match tag with
  | 1 =>
    let bytes ← Decoder.take (← Decoder.uint16).toNat
    match Text.modifiedDecode? bytes with
    | some text => return .utf8 (String.ofList text)
    | none => Decoder.fail (.invalidText index offset)
  | 3 => return .integer (← Decoder.int32)
  | 4 => return .float (← Decoder.uint32)
  | 5 => return .long (← Decoder.int64)
  | 6 => return .double (← Decoder.uint64)
  | 7 => return .classEntry (← Decoder.uint16)
  | 8 => return .string (← Decoder.uint16)
  | 9 => return .fieldRef (← Decoder.uint16) (← Decoder.uint16)
  | 10 => return .methodRef (← Decoder.uint16) (← Decoder.uint16)
  | 11 => return .interfaceMethodRef (← Decoder.uint16) (← Decoder.uint16)
  | 12 => return .nameAndType (← Decoder.uint16) (← Decoder.uint16)
  | 15 => return .methodHandle (← Decoder.uint8) (← Decoder.uint16)
  | 16 => return .methodType (← Decoder.uint16)
  | 17 => return .dynamic (← Decoder.uint16) (← Decoder.uint16)
  | 18 => return .invokeDynamic (← Decoder.uint16) (← Decoder.uint16)
  | 19 => return .module (← Decoder.uint16)
  | 20 => return .package (← Decoder.uint16)
  | tag => Decoder.fail (.unknownPoolTag tag index offset)

/-- The entry of slot `index`. -/
def decode (index : Nat) : Decoder PoolEntry := do
  let offset ← Decoder.position
  let tag ← Decoder.uint8
  body tag index offset

end PoolEntry

namespace Pool

/-- The slots from `index` on, of which there are as many as the last argument says. -/
def decodeSlots (index : Nat) : Nat → Decoder (List (Option PoolEntry))
  | 0 => return []
  | left + 1 => do
    let entry ← PoolEntry.decode index
    if entry.isWide then
      match left with
      | 0 => Decoder.fail (.wideEntryAtEnd index)
      | left + 1 => return some entry :: none :: (← decodeSlots (index + 2) left)
    else return some entry :: (← decodeSlots (index + 1) left)

/-- A pool preceded by its declared size. -/
def decode : Decoder Pool := do
  let count := (← Decoder.uint16).toNat
  if count = 0 then Decoder.fail .emptyPool
  let slots ← decodeSlots 1 (count - 1)
  return ⟨(none :: slots).toArray⟩

end Pool

namespace PoolHeader

/-- The decoder of the start of a class file. -/
def decoder : Decoder PoolHeader := do
  let magic ← Decoder.uint32
  if magic ≠ classFileMagic then Decoder.fail (.badMagic magic)
  let minor ← Decoder.uint16
  let major ← Decoder.uint16
  if major.toNat < minMajorVersion ∨ maxMajorVersion < major.toNat then
    Decoder.fail (.unsupportedVersion major minor)
  let pool ← Pool.decode
  return ⟨⟨major, minor⟩, pool, ← Decoder.position⟩

/-- Decodes the start of a class file. -/
def decode (bytes : List UInt8) : Except DecodeError PoolHeader :=
  if (bytes.take 4).length < 4 then .error (.format .missingMagic)
  else decoder.run' (.ofBytes bytes 0)

end PoolHeader

end ClassAtlas
