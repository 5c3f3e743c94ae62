import ClassAtlas.Pool.Encode

/-!
# Collecting pool entries

A class file names its constants by pool indices, so an entry gets its index when it is first
needed; asking again for an equal entry gives the same index.
-/

namespace ClassAtlas

/-- The entries collected so far, the latest first, and the next free index. -/
structure PoolWriter where
  entries : List (PoolEntry × UInt16)
  next : UInt16

/-- A computation that collects pool entries. -/
abbrev Assemble (α : Type) := StateM PoolWriter α

namespace PoolWriter

def empty : PoolWriter := ⟨[], 1⟩

/-- The index of an entry that was collected. -/
def find? (w : PoolWriter) (e : PoolEntry) : Option UInt16 :=
  (w.entries.find? (·.1 = e)).map (·.2)

/-- Collects an entry that is new; eight-byte constants take two indices. -/
def push (w : PoolWriter) (e : PoolEntry) : PoolWriter :=
  ⟨(e, w.next) :: w.entries, w.next + if e.isWide then 2 else 1⟩

/-- The written form of all entries. -/
def bytes (w : PoolWriter) : List UInt8 := w.entries.reverse.flatMap fun e => e.1.encode

end PoolWriter

namespace Assemble

/-- The index of an entry, which is collected if it is new. -/
def intern (e : PoolEntry) : Assemble UInt16 := fun w =>
  match w.find? e with
  | some index => (index, w)
  | none => (w.next, w.push e)

def utf8 (text : String) : Assemble UInt16 := intern (.utf8 text)

def classEntry (name : String) : Assemble UInt16 := do intern (.classEntry (← utf8 name))

def string (text : String) : Assemble UInt16 := do intern (.string (← utf8 text))

/-- The index of a reference to a member, where `ref` makes the entry. -/
def member (ref : UInt16 → UInt16 → PoolEntry) (owner name descriptor : String) :
    Assemble UInt16 := do
  let owner ← classEntry owner
  let name ← utf8 name
  let descriptor ← utf8 descriptor
  let nameAndType ← intern (.nameAndType name descriptor)
  intern (ref owner nameAndType)

end Assemble

end ClassAtlas
