import ClassAtlas.Pool.Decode
import ClassAtlas.Pool.Encode
import ClassAtlas.Proofs.Binary.Reading

/-!
# Constant pools are read back

The entries of a pool are read back as they were written, and stand at the indices that the widths
of the entries before them give.

## Main definitions

* `PoolEntry.Writable` says that the text of an entry can be written and read back.
* `Pool.layout` are the slots that entries take.
-/

namespace ClassAtlas

open Decoder

namespace PoolEntry

/-- The text of the entry, written by `text`, has a length of two bytes and is read back. -/
def Writable (text : List Char → List UInt8) : PoolEntry → Prop
  | utf8 t => (text t.toList).length ≤ 65535 ∧ Text.modifiedDecode? (text t.toList) = some t.toList
  | _ => True

theorem reads_body {text : List Char → List UInt8} {e : PoolEntry} (h : e.Writable text)
    (index offset : Nat) : (body e.tag index offset).Reads (e.payload text) (· = e) := by
  have hone {f : UInt16 → PoolEntry} (i : UInt16) :
      (do return f (← uint16) : Decoder PoolEntry).Reads (Binary.word16 i) (· = f i) :=
    (reads_uint16 i).bind_pure fun _ ha => congrArg f ha
  have htwo {f : UInt16 → UInt16 → PoolEntry} (i j : UInt16) :
      (do return f (← uint16) (← uint16) : Decoder PoolEntry).Reads
        (Binary.word16 i ++ Binary.word16 j) (· = f i j) := by
    refine (reads_uint16 i).bind fun a ha => (reads_uint16 j).bind_pure fun b hb => ?_
    rw [ha, hb]
  cases e with
  | utf8 t =>
    obtain ⟨hlen, hread⟩ := h
    refine (reads_uint16_ofNat _).bind fun n hn => ?_
    have hnat : n.toNat = (text t.toList).length := by
      rw [hn, UInt16.toNat_ofNat']
      omega
    rw [hnat]
    refine (reads_take (text t.toList)).bind_end fun bytes hbytes => ?_
    rw [hbytes, hread]
    exact reads_pure (congrArg utf8 String.ofList_toList)
  | integer n => exact (reads_int32 n).bind_pure fun _ ha => congrArg _ ha
  | float bits => exact (reads_uint32 bits).bind_pure fun _ ha => congrArg _ ha
  | long n => exact (reads_int64 n).bind_pure fun _ ha => congrArg _ ha
  | double bits => exact (reads_uint64 bits).bind_pure fun _ ha => congrArg _ ha
  | classEntry i | string i | methodType i | module i | package i => exact hone i
  | fieldRef a b | methodRef a b | interfaceMethodRef a b | nameAndType a b | dynamic a b
  | invokeDynamic a b => exact htwo a b
  | methodHandle kind i =>
    refine (reads_uint8 kind).bind fun a ha => (reads_uint16 i).bind_pure fun b hb => ?_
    rw [ha, hb]

theorem reads_decode {text : List Char → List UInt8} {e : PoolEntry} (h : e.Writable text)
    (index : Nat) : (decode index).Reads (e.encodeWith text) (· = e) := by
  refine reads_position.bind_nil fun offset _ => ?_
  refine (reads_uint8 e.tag).bind fun tag htag => ?_
  rw [htag]
  exact reads_body h index offset

end PoolEntry

namespace Pool

/-- The slots that entries take, in order. -/
def layout (entries : List PoolEntry) : List (Option PoolEntry) :=
  entries.flatMap fun e => if e.isWide then [some e, none] else [some e]

theorem layout_append (l m : List PoolEntry) : layout (l ++ m) = layout l ++ layout m :=
  List.flatMap_append

theorem reads_decodeSlots {text : List Char → List UInt8} {entries : List PoolEntry}
    (h : ∀ e ∈ entries, e.Writable text) (index : Nat) :
    (decodeSlots index (layout entries).length).Reads
      (entries.flatMap (·.encodeWith text)) (· = layout entries) := by
  induction entries generalizing index with
  | nil => exact reads_pure rfl
  | cons e entries ih =>
    have hrest := ih fun e' he' => h e' (List.mem_cons_of_mem e he')
    have hfirst := PoolEntry.reads_decode (h e List.mem_cons_self) index
    cases hwide : e.isWide with
    | true =>
      have hlayout : layout (e :: entries) = some e :: none :: layout entries := by
        simp [layout, hwide]
      rw [hlayout]
      refine hfirst.bind fun e' he' => ?_
      rw [he', if_pos hwide]
      exact (hrest (index + 2)).bind_pure fun others hothers => by rw [hothers]
    | false =>
      have hlayout : layout (e :: entries) = some e :: layout entries := by
        simp [layout, hwide]
      rw [hlayout, List.length_cons, decodeSlots.eq_def]
      refine hfirst.bind fun e' he' => ?_
      rw [he', if_neg (by simp [hwide])]
      exact (hrest (index + 1)).bind_pure fun others hothers => by rw [hothers]

/-- The pool that has given entries. -/
def ofEntries (entries : List PoolEntry) : Pool := ⟨(none :: layout entries).toArray⟩

theorem reads_decode {text : List Char → List UInt8} {entries : List PoolEntry}
    (h : ∀ e ∈ entries, e.Writable text) (hlen : 1 + (layout entries).length ≤ 65535) :
    decode.Reads (Binary.toBigEndian 2 (1 + (layout entries).length) ++
      entries.flatMap (·.encodeWith text)) (· = ofEntries entries) := by
  refine (reads_uint16_ofNat _).bind fun n hn => ?_
  have hnat : n.toNat = 1 + (layout entries).length := by
    rw [hn, UInt16.toNat_ofNat']
    omega
  simp only [hnat, Nat.add_sub_cancel_left, Nat.add_eq_zero_iff, Nat.one_ne_zero, false_and,
    if_false]
  exact (reads_decodeSlots h 1).bind_pure fun slots hslots => by rw [hslots, ofEntries]

/-! ## Indices -/

/-- An entry stands at one more than the slots that the entries before it take. -/
theorem get_ofEntries {before after : List PoolEntry} {e : PoolEntry} {index : UInt16}
    (h : index.toNat = 1 + (layout before).length) :
    (ofEntries (before ++ e :: after)).get index = .ok e := by
  have hslot : (none :: layout (before ++ e :: after))[index.toNat]? = some (some e) := by
    rw [h, Nat.add_comm, List.getElem?_cons_succ, layout_append,
      List.getElem?_append_right (Nat.le_refl _), Nat.sub_self]
    cases hwide : e.isWide <;> simp [layout, hwide]
  simp [get, ofEntries, hslot]

theorem exists_of_getElem?_layout {entries : List PoolEntry} {e : PoolEntry} {k : Nat}
    (h : (layout entries)[k]? = some (some e)) :
    ∃ before after, entries = before ++ e :: after ∧ k = (layout before).length := by
  induction entries generalizing k with
  | nil => simp [layout] at h
  | cons first entries ih =>
    have hsplit : layout (first :: entries) = layout [first] ++ layout entries :=
      layout_append [first] entries
    rw [hsplit] at h
    by_cases hk : k < (layout [first]).length
    · -- The slot belongs to the first entry, and it is not the unusable one behind a wide entry.
      rw [List.getElem?_append_left hk] at h
      have hfirst : k = 0 ∧ first = e := by
        cases hwide : first.isWide with
        | true => rcases k with _ | _ | k <;> simp_all [layout]
        | false => rcases k with _ | k <;> simp_all [layout]
      exact ⟨[], entries, by rw [hfirst.2, List.nil_append], hfirst.1⟩
    · rw [List.getElem?_append_right (by omega)] at h
      obtain ⟨before, after, rfl, hlen⟩ := ih h
      refine ⟨first :: before, after, rfl, ?_⟩
      have hbefore : layout (first :: before) = layout [first] ++ layout before :=
        layout_append [first] before
      rw [hbefore, List.length_append]
      omega

/-- Only entries stand in usable slots. -/
theorem exists_of_get_ofEntries {entries : List PoolEntry} {e : PoolEntry} {index : UInt16}
    (h : (ofEntries entries).get index = .ok e) :
    ∃ before after, entries = before ++ e :: after ∧
      index.toNat = 1 + (layout before).length := by
  have hslot : (none :: layout entries)[index.toNat]? = some (some e) := by
    simp only [get, ofEntries, List.getElem?_toArray] at h
    split at h
    · next hsome => simpa [hsome] using h
    · simp at h
    · simp at h
  cases hindex : index.toNat with
  | zero => simp [hindex] at hslot
  | succ k =>
    rw [hindex, List.getElem?_cons_succ] at hslot
    obtain ⟨before, after, heq, hk⟩ := exists_of_getElem?_layout hslot
    exact ⟨before, after, heq, by omega⟩

end Pool

namespace PoolHeader

/-- The start of a class file is read up to the end of the pool. -/
theorem readsTo_decoder (minor : UInt16) {major : UInt16} {entries : List PoolEntry}
    {text : List Char → List UInt8}
    (hversion : minMajorVersion ≤ major.toNat ∧ major.toNat ≤ maxMajorVersion)
    (hentries : ∀ e ∈ entries, e.Writable text)
    (hlen : 1 + (Pool.layout entries).length ≤ 65535) :
    decoder.ReadsTo (Binary.word32 classFileMagic ++ (Binary.word16 minor ++ (Binary.word16 major ++
      (Binary.toBigEndian 2 (1 + (Pool.layout entries).length) ++
        entries.flatMap (·.encodeWith text)))))
      fun h n => h = ⟨⟨major, minor⟩, .ofEntries entries, n⟩ := by
  refine (reads_uint32 classFileMagic).bind_to fun magic hmagic => ?_
  rw [if_neg (not_not.2 hmagic)]
  refine (reads_uint16 minor).bind_to fun m hm => (reads_uint16 major).bind_to fun n hn => ?_
  dsimp only
  rw [hn, if_neg (by omega)]
  have hpool := Pool.reads_decode hentries hlen
  rw [← List.append_nil (Binary.toBigEndian _ _ ++ _)]
  refine hpool.bind_to fun pool hpool => readsTo_position.bind_pure fun position n hposition => ?_
  rw [hm, hpool, hposition]

end PoolHeader

end ClassAtlas
