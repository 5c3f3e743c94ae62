import ClassAtlas.Binary.Word
import ClassAtlas.Pool.Basic
import ClassAtlas.Text.Utf8

/-!
# Writing constant pools

The written form of the entries of a constant pool.
-/

namespace ClassAtlas.PoolEntry

/-- The tag of an entry. -/
def tag : PoolEntry → UInt8
  | utf8 _ => 1
  | integer _ => 3
  | float _ => 4
  | long _ => 5
  | double _ => 6
  | classEntry _ => 7
  | string _ => 8
  | fieldRef .. => 9
  | methodRef .. => 10
  | interfaceMethodRef .. => 11
  | nameAndType .. => 12
  | methodHandle .. => 15
  | methodType _ => 16
  | dynamic .. => 17
  | invokeDynamic .. => 18
  | module _ => 19
  | package _ => 20

/-- What follows the tag of an entry, where `text` writes texts. The length of a text stands before
it in two bytes. -/
def payload (text : List Char → List UInt8) : PoolEntry → List UInt8
  | utf8 t => Binary.toBigEndian 2 (text t.toList).length ++ text t.toList
  | integer n => Binary.word32 n.toUInt32
  | float bits => Binary.word32 bits
  | long n => Binary.word64 n.toUInt64
  | double bits => Binary.word64 bits
  | classEntry i | string i | methodType i | module i | package i => Binary.word16 i
  | fieldRef a b | methodRef a b | interfaceMethodRef a b | nameAndType a b | dynamic a b
  | invokeDynamic a b => Binary.word16 a ++ Binary.word16 b
  | methodHandle kind i => kind :: Binary.word16 i

/-- The written form of an entry, where `text` writes texts. -/
def encodeWith (text : List Char → List UInt8) (e : PoolEntry) : List UInt8 :=
  e.tag :: e.payload text

/-- The written form of an entry with texts in plain UTF-8. -/
def encode (e : PoolEntry) : List UInt8 := e.encodeWith Text.utf8Encode

end ClassAtlas.PoolEntry
