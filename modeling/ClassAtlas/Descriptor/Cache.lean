import ClassAtlas.Order.SortedMap
import ClassAtlas.Descriptor.Parser

/-!
# Remembered descriptors

A `DescriptorCache` remembers each descriptor that was read successfully under its text, and counts
how often a look-up could be answered from memory. A text may be asked for as a field and as a
method; only a remembered descriptor of the same shape answers.
-/

namespace ClassAtlas

structure DescriptorCache where
  entries : SortedMap String Descriptor
  hits : Nat
  misses : Nat

namespace DescriptorCache

def empty : DescriptorCache := ⟨∅, 0, 0⟩

instance : Inhabited DescriptorCache := ⟨empty⟩

/-- Counts a look-up that was not answered from memory, and remembers what it gave. -/
def learn (cache : DescriptorCache) (text : String) (answer : Except Malformed Descriptor) :
    DescriptorCache :=
  match answer with
  | .ok d => { cache with misses := cache.misses + 1, entries := cache.entries.insert text d }
  | .error _ => { cache with misses := cache.misses + 1 }

/-- Looks the type of a field up. -/
def field (cache : DescriptorCache) (text : String) :
    Except Malformed FieldType × DescriptorCache :=
  match cache.entries.get? text with
  | some (.field t) => (.ok t, { cache with hits := cache.hits + 1 })
  | _ =>
    let answer := FieldType.parse text
    (answer, cache.learn text (.field <$> answer))

/-- Looks the type of a method up. -/
def method (cache : DescriptorCache) (text : String) :
    Except Malformed MethodType × DescriptorCache :=
  match cache.entries.get? text with
  | some (.method m) => (.ok m, { cache with hits := cache.hits + 1 })
  | _ =>
    let answer := MethodType.parse text
    (answer, cache.learn text (.method <$> answer))

/-- Forgets the descriptors and the numbers. -/
def clear (_ : DescriptorCache) : DescriptorCache := empty

/-- The share of look-ups that were answered from memory, 0 before the first look-up. -/
def hitRate (cache : DescriptorCache) : Float :=
  let total := cache.hits + cache.misses
  if total = 0 then 0.0 else cache.hits.toFloat / total.toFloat

end DescriptorCache

end ClassAtlas
