import ClassAtlas.Binary.DecodeError

/-!
# Constant pools

A constant pool is an array of slots addressed by 16-bit indices. Slot 0 is unusable, and so is the
slot after every eight-byte entry. Entries name each other by index; the functions here follow such
names and report an index that leads nowhere or to an entry of another shape.

## Main definitions

* `PoolEntry` has the seventeen shapes of an entry.
* `Pool.get`, `Pool.utf8`, `Pool.className`, `Pool.nameAndType` and `Pool.memberRef` look entries
  up.
-/

namespace ClassAtlas

/-- An entry of a constant pool. Floating-point constants are kept as their bits. -/
inductive PoolEntry where
  | utf8 (text : String)
  | integer (value : Int32)
  | float (bits : UInt32)
  | long (value : Int64)
  | double (bits : UInt64)
  | classEntry (name : UInt16)
  | string (text : UInt16)
  | fieldRef (owner nameAndType : UInt16)
  | methodRef (owner nameAndType : UInt16)
  | interfaceMethodRef (owner nameAndType : UInt16)
  | nameAndType (name descriptor : UInt16)
  | methodHandle (kind : UInt8) (reference : UInt16)
  | methodType (descriptor : UInt16)
  | dynamic (bootstrap nameAndType : UInt16)
  | invokeDynamic (bootstrap nameAndType : UInt16)
  | module (name : UInt16)
  | package (name : UInt16)
  deriving DecidableEq

namespace PoolEntry

/-- The name of an entry's shape in reports. -/
def variant : PoolEntry → String
  | utf8 _ => "Utf8"
  | integer _ => "Integer"
  | float _ => "Float"
  | long _ => "Long"
  | double _ => "Double"
  | classEntry _ => "Class"
  | string _ => "String"
  | fieldRef .. => "FieldRef"
  | methodRef .. => "MethodRef"
  | interfaceMethodRef .. => "InterfaceMethodRef"
  | nameAndType .. => "NameAndType"
  | methodHandle .. => "MethodHandle"
  | methodType _ => "MethodType"
  | dynamic .. => "Dynamic"
  | invokeDynamic .. => "InvokeDynamic"
  | module _ => "Module"
  | package _ => "Package"

/-- Eight-byte constants take two slots. -/
def isWide : PoolEntry → Bool
  | long _ | double _ => true
  | _ => false

end PoolEntry

/-- The slots of a constant pool; `none` is an unusable slot. -/
structure Pool where
  slots : Array (Option PoolEntry)
  deriving DecidableEq

/-- What a reference to a member leads to. -/
inductive MemberKind where
  | field
  | method
  | interfaceMethod
  deriving DecidableEq

/-- A reference to a member with all its names. -/
structure MemberRef where
  kind : MemberKind
  /-- The class that has the member, or the name of an array type. -/
  owner : String
  name : String
  descriptor : String
  deriving DecidableEq

namespace Pool

/-- The declared size of a pool: one more than its largest index. -/
def count (pool : Pool) : Nat := pool.slots.size

/-- The usable entries with their indices, in order. -/
def entries (pool : Pool) : List (Nat × PoolEntry) :=
  (pool.slots.toList.zipIdx).filterMap fun (slot, i) => slot.map fun e => (i, e)

/-- The number of usable entries. -/
def size (pool : Pool) : Nat := pool.entries.length

/-- The entry at an index. -/
def get (pool : Pool) (index : UInt16) : Except DecodeError PoolEntry :=
  match pool.slots[index.toNat]? with
  | some (some entry) => .ok entry
  | some none => .error (.badIndex index .usable .unusable)
  | none => .error (.badIndex index .usable (.outOfRange pool.count))

/-- Reports an entry of another shape than asked for. -/
def mismatch {α : Type} (index : UInt16) (wanted : Wanted) (entry : PoolEntry) :
    Except DecodeError α :=
  .error (.badIndex index wanted (.entry entry.variant))

/-- The text at an index. -/
def utf8 (pool : Pool) (index : UInt16) : Except DecodeError String := do
  match ← pool.get index with
  | .utf8 text => return text
  | entry => mismatch index .utf8 entry

/-- The name held by the class entry at an index. -/
def className (pool : Pool) (index : UInt16) : Except DecodeError String := do
  match ← pool.get index with
  | .classEntry name => pool.utf8 name
  | entry => mismatch index .classEntry entry

/-- The name and the descriptor at an index. -/
def nameAndType (pool : Pool) (index : UInt16) : Except DecodeError (String × String) := do
  match ← pool.get index with
  | .nameAndType name descriptor => return (← pool.utf8 name, ← pool.utf8 descriptor)
  | entry => mismatch index .nameAndType entry

/-- Follows the two indices of a reference to a member, the owner first. -/
def resolveMember (pool : Pool) (kind : MemberKind) (owner nameAndType : UInt16) :
    Except DecodeError MemberRef := do
  let owner ← pool.className owner
  let (name, descriptor) ← pool.nameAndType nameAndType
  return ⟨kind, owner, name, descriptor⟩

/-- The reference to a member at an index. -/
def memberRef (pool : Pool) (index : UInt16) : Except DecodeError MemberRef := do
  match ← pool.get index with
  | .fieldRef owner nat => pool.resolveMember .field owner nat
  | .methodRef owner nat => pool.resolveMember .method owner nat
  | .interfaceMethodRef owner nat => pool.resolveMember .interfaceMethod owner nat
  | entry => mismatch index .member entry

end Pool

end ClassAtlas
