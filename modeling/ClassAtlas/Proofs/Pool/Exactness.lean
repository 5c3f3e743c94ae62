import ClassAtlas.Proofs.Binary.Inversion
import ClassAtlas.Proofs.ClassFile.Truncation
import ClassAtlas.Proofs.Pool.RoundTrip
import ClassAtlas.Proofs.Text.ModifiedUtf8

/-!
# Constant pools, exactly

A pool that was written is read back with its entries at the indices that the double slots of
eight-byte entries give. And every pool that is accepted was written in this way: its bytes are
records of its entries, one after the other, and its unusable slots are those that the layout has.

## Main definitions

* `Pool.number` gives entries their indices.
* `PoolHeader.written` is the start of a class file with given entries.

## Main results

* `PoolEntry.passes_decode`: an entry is read from a record of it.
* `Pool.passes_decodeSlots`: slots are read from the records of the entries that they hold.
* `PoolHeader.decode_exact`: both directions for the start of a class file.
-/

namespace ClassAtlas

open Decoder

namespace PoolEntry

/-- The part after the tag is that of the entry which is given, and the tag is its own. -/
theorem passes_body (tag : UInt8) (index offset : Nat) :
    (body tag index offset).Passes fun e used =>
      ∃ text, e.Writable text ∧ e.tag = tag ∧ used = e.payload text := by
  -- the text of an entry that has none does not matter
  let plain : List Char → List UInt8 := fun _ => []
  have hone {α : Type} {d : Decoder α} {write : α → List UInt8} {f : α → PoolEntry}
      (hd : d.Passes fun a used => used = write a)
      (hf : ∀ a, (f a).Writable plain ∧ (f a).tag = tag ∧ (f a).payload plain = write a) :
      (do return f (← d) : Decoder PoolEntry).Passes fun e used =>
        ∃ text, e.Writable text ∧ e.tag = tag ∧ used = e.payload text := by
    refine (hd.map f).imp ?_
    rintro e used ⟨a, rfl, rfl⟩
    exact ⟨plain, (hf a).1, (hf a).2.1, (hf a).2.2.symm⟩
  have htwo {α : Type} {d : Decoder α} {write : α → List UInt8} {f : α → UInt16 → PoolEntry}
      (hd : d.Passes fun a used => used = write a)
      (hf : ∀ a i, (f a i).Writable plain ∧ (f a i).tag = tag ∧
        (f a i).payload plain = write a ++ Binary.word16 i) :
      (do return f (← d) (← uint16) : Decoder PoolEntry).Passes fun e used =>
        ∃ text, e.Writable text ∧ e.tag = tag ∧ used = e.payload text := by
    refine (hd.bind fun a => passes_uint16.map (f a)).imp ?_
    rintro e used ⟨a, _, _, rfl, rfl, i, rfl, rfl⟩
    exact ⟨plain, (hf a i).1, (hf a i).2.1, (hf a i).2.2.symm⟩
  unfold body
  split
  · refine (passes_uint16.bind fun n => (passes_take n.toNat).bind
      (Q := fun bytes e second => second = [] ∧
        ∃ cs, Text.modifiedDecode? bytes = some cs ∧ e = .utf8 (String.ofList cs))
      fun bytes => ?_).imp ?_
    · split
      · next cs hcs =>
        refine (passes_pure _).imp ?_
        rintro e used ⟨rfl, rfl⟩
        exact ⟨rfl, cs, hcs, rfl⟩
      · exact passes_fail _ _
    · rintro e used ⟨n, _, _, rfl, rfl, bytes, _, _, rfl, ⟨rfl, hlength⟩, rfl, cs, hcs, rfl⟩
      have hn : bytes.length ≤ 65535 := by
        have := n.toNat_lt
        omega
      refine ⟨fun _ => bytes, ⟨hn, by rw [hcs, String.toList_ofList]⟩, rfl, ?_⟩
      rw [payload, hlength, List.append_nil, Binary.word16]
  · exact hone passes_int32 fun n => ⟨trivial, rfl, rfl⟩
  · exact hone passes_uint32 fun bits => ⟨trivial, rfl, rfl⟩
  · exact hone passes_int64 fun n => ⟨trivial, rfl, rfl⟩
  · exact hone passes_uint64 fun bits => ⟨trivial, rfl, rfl⟩
  · exact hone passes_uint16 fun i => ⟨trivial, rfl, rfl⟩
  · exact hone passes_uint16 fun i => ⟨trivial, rfl, rfl⟩
  · exact htwo passes_uint16 fun i j => ⟨trivial, rfl, rfl⟩
  · exact htwo passes_uint16 fun i j => ⟨trivial, rfl, rfl⟩
  · exact htwo passes_uint16 fun i j => ⟨trivial, rfl, rfl⟩
  · exact htwo passes_uint16 fun i j => ⟨trivial, rfl, rfl⟩
  · exact htwo passes_uint8 fun kind i => ⟨trivial, rfl, rfl⟩
  · exact hone passes_uint16 fun i => ⟨trivial, rfl, rfl⟩
  · exact htwo passes_uint16 fun i j => ⟨trivial, rfl, rfl⟩
  · exact htwo passes_uint16 fun i j => ⟨trivial, rfl, rfl⟩
  · exact hone passes_uint16 fun i => ⟨trivial, rfl, rfl⟩
  · exact hone passes_uint16 fun i => ⟨trivial, rfl, rfl⟩
  · exact passes_fail _ _

/-- An entry is read from a record of it; only how its text was written is not determined. -/
theorem passes_decode (index : Nat) : (decode index).Passes fun e used =>
    ∃ text, e.Writable text ∧ used = e.encodeWith text := by
  refine (passes_position.bind fun offset => passes_uint8.bind fun tag =>
    passes_body tag index offset).imp ?_
  rintro e used ⟨_, _, _, rfl, rfl, tag, _, _, rfl, rfl, text, htext, rfl, rfl⟩
  exact ⟨text, htext, rfl⟩

/-- The bytes are a record of the entry in slot `index`. -/
def IsRecord (numbered : Nat × PoolEntry) (record : List UInt8) : Prop :=
  (decode numbered.1).Reads record (· = numbered.2)

end PoolEntry

namespace Pool

/-- Entries with their indices, where the first one gets `index`. -/
def number (index : Nat) : List PoolEntry → List (Nat × PoolEntry)
  | [] => []
  | e :: entries => (index, e) :: number (index + if e.isWide then 2 else 1) entries

theorem layout_cons_of_wide {e : PoolEntry} (h : e.isWide = true) (entries : List PoolEntry) :
    layout (e :: entries) = some e :: none :: layout entries := by
  simp [layout, h]

theorem layout_cons_of_narrow {e : PoolEntry} (h : e.isWide = false) (entries : List PoolEntry) :
    layout (e :: entries) = some e :: layout entries := by
  simp [layout, h]

theorem length_layout (entries : List PoolEntry) :
    (layout entries).length = entries.length + entries.countP PoolEntry.isWide := by
  induction entries with
  | nil => rfl
  | cons e entries ih =>
    cases h : e.isWide with
    | true => simp [layout_cons_of_wide h, ih, h]; omega
    | false => simp [layout_cons_of_narrow h, ih, h]; omega

theorem map_snd_number (index : Nat) (entries : List PoolEntry) :
    (number index entries).map (·.2) = entries := by
  induction entries generalizing index with
  | nil => rfl
  | cons e entries ih => simp [number, ih]

theorem mem_entries {pool : Pool} {i : Nat} {e : PoolEntry} :
    (i, e) ∈ pool.entries ↔ pool.slots[i]? = some (some e) := by
  simp only [Pool.entries, List.mem_filterMap, Option.map_eq_some_iff, Prod.exists, Prod.mk.injEq,
    List.mem_zipIdx_iff_getElem?, Array.getElem?_toList]
  grind

theorem get_eq_ok_iff {pool : Pool} {index : UInt16} {e : PoolEntry} :
    pool.get index = .ok e ↔ (index.toNat, e) ∈ pool.entries := by
  rw [mem_entries, get]
  split <;> simp_all

theorem filterMap_zipIdx_layout (index : Nat) (entries : List PoolEntry) :
    ((layout entries).zipIdx index).filterMap (fun (slot, i) => slot.map fun e => (i, e)) =
      number index entries := by
  induction entries generalizing index with
  | nil => rfl
  | cons e entries ih =>
    cases h : e.isWide with
    | true => simp [layout_cons_of_wide h, number, h, ih]
    | false => simp [layout_cons_of_narrow h, number, h, ih]

theorem entries_ofEntries (entries : List PoolEntry) :
    (ofEntries entries).entries = number 1 entries := by
  rw [← filterMap_zipIdx_layout]
  simp [Pool.entries, ofEntries]

theorem count_ofEntries (entries : List PoolEntry) :
    (ofEntries entries).count = 1 + entries.length + entries.countP PoolEntry.isWide := by
  simp [count, ofEntries, length_layout]
  omega

/-- The unusable slots of a layout are those behind the eight-byte entries. -/
theorem getElem?_layout_eq_none_iff {entries : List PoolEntry} {k : Nat} :
    (layout entries)[k]? = some none ↔
      ∃ j e, k = j + 1 ∧ (layout entries)[j]? = some (some e) ∧ e.isWide = true := by
  induction entries generalizing k with
  | nil => simp [layout]
  | cons e entries ih =>
    cases h : e.isWide with
    | true =>
      rw [layout_cons_of_wide h]
      rcases k with _ | _ | k
      · simp
      · simp [h]
      · rw [List.getElem?_cons_succ, List.getElem?_cons_succ, ih]
        cases k with
        | zero => simp
        | succ k => simp
    | false =>
      rw [layout_cons_of_narrow h]
      cases k with
      | zero => simp
      | succ k =>
        rw [List.getElem?_cons_succ, ih]
        cases k with
        | zero => simp [h]
        | succ k => simp

theorem getElem?_ofEntries_eq_none_iff {entries : List PoolEntry} {i : Nat} :
    (ofEntries entries).slots[i]? = some none ↔ i = 0 ∨ ∃ j e, i = j + 1 ∧
      (ofEntries entries).slots[j]? = some (some e) ∧ e.isWide = true := by
  simp only [ofEntries, List.getElem?_toArray]
  cases i with
  | zero => simp
  | succ k =>
    rw [List.getElem?_cons_succ, getElem?_layout_eq_none_iff]
    cases k with
    | zero => simp
    | succ k => simp

/-- The slots that are read hold entries whose records were read one after the other. -/
theorem passes_decodeSlots (index left : Nat) : (decodeSlots index left).Passes fun slots used =>
    ∃ entries records, slots = layout entries ∧ (layout entries).length = left ∧
      used = records.flatten ∧ List.Forall₂ PoolEntry.IsRecord (number index entries) records := by
  fun_induction decodeSlots index left with
  | case1 =>
    refine (passes_pure _).imp ?_
    rintro slots used ⟨rfl, rfl⟩
    exact ⟨[], [], rfl, rfl, rfl, .nil⟩
  | case2 index left ihWide ih =>
    have hentry : (PoolEntry.decode index).Passes fun e used => PoolEntry.IsRecord (index, e) used := by
      refine (PoolEntry.passes_decode index).imp ?_
      rintro e used ⟨text, htext, rfl⟩
      exact PoolEntry.reads_decode htext index
    refine (hentry.bind (Q := fun e slots second => ∃ entries records,
      slots = layout (e :: entries) ∧ (layout (e :: entries)).length = left + 1 ∧
        second = records.flatten ∧ List.Forall₂ PoolEntry.IsRecord
          (number (index + if e.isWide then 2 else 1) entries) records) fun e => ?_).imp ?_
    · cases hwide : e.isWide with
      | true =>
        cases left with
        | zero => exact passes_fail _ _
        | succ left =>
          refine (ihWide.map _).imp ?_
          rintro slots used ⟨others, rfl, entries, records, rfl, hlength, rfl, hrecords⟩
          exact ⟨entries, records, (layout_cons_of_wide hwide entries).symm,
            by rw [layout_cons_of_wide hwide]; simp [hlength], rfl, hrecords⟩
      | false =>
        refine (ih.map _).imp ?_
        rintro slots used ⟨others, rfl, entries, records, rfl, hlength, rfl, hrecords⟩
        exact ⟨entries, records, (layout_cons_of_narrow hwide entries).symm,
          by rw [layout_cons_of_narrow hwide]; simp [hlength], rfl, hrecords⟩
    · rintro slots used ⟨e, record, _, rfl, hrecord, entries, records, rfl, hlength, rfl, hrecords⟩
      exact ⟨e :: entries, record :: records, rfl, hlength, rfl, .cons hrecord hrecords⟩

theorem passes_decode : decode.Passes fun pool used => ∃ entries records,
    pool = ofEntries entries ∧ pool.count ≤ 65535 ∧
      used = Binary.toBigEndian 2 pool.count ++ records.flatten ∧
      List.Forall₂ PoolEntry.IsRecord (number 1 entries) records := by
  refine (passes_uint16.bind (Q := fun n pool second => ∃ entries records,
    pool = ofEntries entries ∧ n.toNat = pool.count ∧ second = records.flatten ∧
      List.Forall₂ PoolEntry.IsRecord (number 1 entries) records) fun n => ?_).imp ?_
  · dsimp only
    split
    · exact passes_fail_bind _ _ _
    · next hn =>
      refine ((passes_decodeSlots 1 (n.toNat - 1)).map _).imp ?_
      rintro pool used ⟨slots, rfl, entries, records, rfl, hlength, rfl, hrecords⟩
      refine ⟨entries, records, rfl, ?_, rfl, hrecords⟩
      simp only [count, List.size_toArray, List.length_cons, hlength]
      omega
  · rintro pool used ⟨n, _, _, rfl, rfl, entries, records, rfl, hn, rfl, hrecords⟩
    have hlt := n.toNat_lt
    exact ⟨entries, records, rfl, by omega, by rw [Binary.word16, hn], hrecords⟩

end Pool

/-! ## The start of a class file -/

namespace PoolHeader

/-- The magic word and the version. -/
def front (version : ClassVersion) : List UInt8 :=
  [0xCA, 0xFE, 0xBA, 0xBE] ++ (Binary.word16 version.minor ++ Binary.word16 version.major)

@[simp]
theorem length_front (version : ClassVersion) : (front version).length = 8 := by
  simp [front, Binary.word16]

theorem front_append (version : ClassVersion) (rest : List UInt8) : front version ++ rest =
    Binary.word32 classFileMagic ++ (Binary.word16 version.minor ++
      (Binary.word16 version.major ++ rest)) := by
  have hmagic : Binary.word32 classFileMagic = [0xCA, 0xFE, 0xBA, 0xBE] := by decide
  rw [front, hmagic, List.append_assoc, List.append_assoc]

/-- The start of a class file with given entries, whose texts are in modified UTF-8. -/
def written (version : ClassVersion) (entries : List PoolEntry) : List UInt8 :=
  front version ++ (Binary.toBigEndian 2 (1 + entries.length + entries.countP PoolEntry.isWide) ++
    entries.flatMap (·.encodeWith Text.modifiedEncode))

theorem decode_written {version : ClassVersion} {entries : List PoolEntry}
    (hversion : 45 ≤ version.major.toNat ∧ version.major.toNat ≤ 69)
    (htexts : ∀ text, .utf8 text ∈ entries → (Text.modifiedEncode text.toList).length ≤ 65535)
    (hslots : 1 + entries.length + entries.countP PoolEntry.isWide ≤ 65535) (tail : List UInt8) :
    decode (written version entries ++ tail) =
      .ok ⟨version, .ofEntries entries, (written version entries).length⟩ := by
  have hentries : ∀ e ∈ entries, e.Writable Text.modifiedEncode := by
    intro e he
    cases e with
    | utf8 text => exact ⟨htexts text he, Text.modifiedDecode?_modifiedEncode text.toList⟩
    | _ => trivial
  have hlayout : 1 + entries.length + entries.countP PoolEntry.isWide =
      1 + (Pool.layout entries).length := by rw [Pool.length_layout, Nat.add_assoc]
  have hread := readsTo_decoder version.minor hversion hentries (hlayout ▸ hslots)
  rw [← hlayout, ← front_append, ← written] at hread
  obtain ⟨header, hrun, rfl⟩ := hread 0 0 tail
  have hfour : 4 ≤ (written version entries ++ tail).length := by
    simp only [written, List.length_append, length_front]
    omega
  rw [decode_eq_run' hfour]
  have hvalue := run'_ofBytes hrun
  rwa [Nat.zero_add] at hvalue

theorem passes_decoder : decoder.Passes fun header used => ∃ entries records,
    header.pool = .ofEntries entries ∧ header.pool.count ≤ 65535 ∧
      used = front header.version ++ (Binary.toBigEndian 2 header.pool.count ++ records.flatten) ∧
      List.Forall₂ PoolEntry.IsRecord (Pool.number 1 entries) records := by
  -- what the steps behind the version and those behind the magic word read
  let behindVersion (major minor : UInt16) (header : PoolHeader) (used : List UInt8) : Prop :=
    header.version = ⟨major, minor⟩ ∧ ∃ entries records,
      header.pool = .ofEntries entries ∧ header.pool.count ≤ 65535 ∧
        used = Binary.toBigEndian 2 header.pool.count ++ records.flatten ∧
        List.Forall₂ PoolEntry.IsRecord (Pool.number 1 entries) records
  let behindMagic (magic : UInt32) (header : PoolHeader) (used : List UInt8) : Prop :=
    magic = classFileMagic ∧ ∃ minor major others, used = Binary.word16 minor ++
      (Binary.word16 major ++ others) ∧ behindVersion major minor header others
  refine (passes_uint32.bind (Q := behindMagic) fun magic => ?_).imp ?_
  · split
    · exact passes_fail_bind _ _ _
    · next hmagic =>
      refine (passes_uint16.bind fun minor => passes_uint16.bind
        (Q := fun major => behindVersion major minor) fun major => ?_).imp ?_
      · dsimp only
        split
        · exact passes_fail_bind _ _ _
        · refine (Pool.passes_decode.bind fun pool => passes_position.map
            (PoolHeader.mk ⟨major, minor⟩ pool)).imp ?_
          rintro header used ⟨pool, _, _, rfl, hpool, offset, rfl, rfl⟩
          rw [List.append_nil]
          exact ⟨rfl, hpool⟩
      · rintro header used ⟨minor, _, _, rfl, rfl, major, _, others, rfl, rfl, hothers⟩
        exact ⟨not_not.1 hmagic, minor, major, others, rfl, hothers⟩
  · rintro header used ⟨magic, _, _, rfl, rfl, rfl, minor, major, _, rfl, hversion, entries, records,
      hpool, hcount, rfl, hrecords⟩
    exact ⟨entries, records, hpool, hcount, by rw [front_append, hversion], hrecords⟩

/-- What a file that is accepted starts with. -/
theorem exists_of_decode {bytes : List UInt8} {header : PoolHeader}
    (h : decode bytes = .ok header) : ∃ entries records rest, header.pool = .ofEntries entries ∧
      header.pool.count ≤ 65535 ∧ header.sectionsOffset = 10 + records.flatten.length ∧
      bytes = front header.version ++ (Binary.toBigEndian 2 header.pool.count ++
        (records.flatten ++ rest)) ∧
      List.Forall₂ PoolEntry.IsRecord (Pool.number 1 entries) records := by
  have hfour : 4 ≤ bytes.length := by
    by_contra hlt
    obtain ⟨fault, hfault⟩ := exists_decode_eq_error (show bytes.length < 4 by omega)
    rw [h] at hfault
    cases hfault
  rw [decode_eq_run' hfour] at h
  obtain ⟨⟨header, r⟩, hrun, rfl⟩ := exists_of_map_eq_ok h
  obtain ⟨used, hbytes, hbase, hconsumed, entries, records, hpool, hcount, hused, hrecords⟩ :=
    passes_decoder _ _ _ hrun
  refine ⟨entries, records, r.rest, hpool, hcount, ?_, ?_, hrecords⟩
  · simp only [sectionsOffset_of_decoder hrun, Reader.position, hbase, hconsumed, Reader.ofBytes,
      hused, List.length_append, length_front, Binary.length_toBigEndian]
    omega
  · simpa [hused, Reader.ofBytes] using hbytes

/-- A pool that was written is read back, with its entries at the indices that the double slots give,
whatever follows it. Conversely, an accepted file starts with a pool of the declared size whose
unusable slots are the first one and those behind eight-byte entries, and the bytes of the pool are
records of the entries in the order of their indices. -/
theorem decode_exact :
    (∀ (version : ClassVersion) (entries : List PoolEntry) (tail : List UInt8),
      45 ≤ version.major.toNat ∧ version.major.toNat ≤ 69 →
      (∀ text, .utf8 text ∈ entries → (Text.modifiedEncode text.toList).length ≤ 65535) →
      1 + entries.length + entries.countP PoolEntry.isWide ≤ 65535 →
      ∃ header, decode (written version entries ++ tail) = .ok header ∧ header.version = version ∧
        header.pool.count = 1 + entries.length + entries.countP PoolEntry.isWide ∧
        header.pool.entries = Pool.number 1 entries ∧
        (∀ index e, header.pool.get index = .ok e ↔ (index.toNat, e) ∈ Pool.number 1 entries) ∧
        header.sectionsOffset = (written version entries).length) ∧
    ∀ (bytes : List UInt8) (header : PoolHeader), decode bytes = .ok header →
      header.pool.count = Binary.bigEndian ((bytes.drop 8).take 2) ∧
      (∀ i, header.pool.slots[i]? = some none ↔ i = 0 ∨
        ∃ j e, i = j + 1 ∧ header.pool.slots[j]? = some (some e) ∧ e.isWide = true) ∧
      header.pool.size + (header.pool.entries.map (·.2)).countP PoolEntry.isWide + 1 =
        header.pool.count ∧
      header.sectionsOffset ≤ bytes.length ∧
      ∃ records : List (List UInt8), (bytes.take header.sectionsOffset).drop 10 = records.flatten ∧
        List.Forall₂ PoolEntry.IsRecord header.pool.entries records := by
  constructor
  · intro version entries tail hversion htexts hslots
    have hentries := Pool.entries_ofEntries entries
    refine ⟨_, decode_written hversion htexts hslots tail, rfl, Pool.count_ofEntries entries,
      hentries, ?_, rfl⟩
    intro index e
    rw [Pool.get_eq_ok_iff, hentries]
  · intro bytes header h
    obtain ⟨entries, records, rest, hpool, hcount, hoffset, hbytes, hrecords⟩ := exists_of_decode h
    have hentries : header.pool.entries = Pool.number 1 entries := by
      rw [hpool, Pool.entries_ofEntries]
    refine ⟨?_, ?_, ?_, ?_, records, ?_, hentries ▸ hrecords⟩
    · rw [hbytes, List.drop_left' (length_front _), List.take_left' (Binary.length_toBigEndian 2 _),
        Binary.bigEndian_toBigEndian]
      omega
    · intro i
      rw [hpool]
      exact Pool.getElem?_ofEntries_eq_none_iff
    · have hsize : header.pool.size = entries.length := by
        rw [Pool.size, hentries, ← List.length_map (·.2), Pool.map_snd_number]
      rw [hsize, hentries, Pool.map_snd_number, hpool, Pool.count_ofEntries]
      omega
    · rw [hbytes, hoffset]
      simp only [List.length_append, length_front, Binary.length_toBigEndian]
      omega
    · have hhead : (front header.version ++ Binary.toBigEndian 2 header.pool.count).length = 10 := by
        simp
      rw [hbytes, hoffset, ← List.append_assoc, ← hhead, List.take_length_add_append,
        List.take_left, List.drop_left]

/-- Eight-byte entries before and behind a text with NUL and a supplementary character. -/
theorem decode_exact_wide_entries :
    let entries : List PoolEntry := [.long 7, .utf8 "a\x00😀", .double 0x3FF8000000000000, .string 3]
    ∃ header, decode (written ⟨52, 0⟩ entries ++ [0, 33]) = .ok header ∧
      header.pool.entries =
        [(1, .long 7), (3, .utf8 "a\x00😀"), (4, .double 0x3FF8000000000000), (6, .string 3)] ∧
      header.pool.slots[5]? = some none := by
  intro entries
  have htexts : ∀ text, .utf8 text ∈ entries →
      (Text.modifiedEncode text.toList).length ≤ 65535 := by
    intro text htext
    simp only [entries, List.mem_cons, List.not_mem_nil, PoolEntry.utf8.injEq, reduceCtorEq, false_or,
      or_false] at htext
    subst htext
    decide
  obtain ⟨header, hdecode, -, -, hentries, -⟩ :=
    decode_exact.1 ⟨52, 0⟩ entries [0, 33] (by decide) htexts (by decide)
  refine ⟨header, hdecode, hentries, ?_⟩
  have hdouble : (4, PoolEntry.double 0x3FF8000000000000) ∈ header.pool.entries := by
    rw [hentries]
    decide
  rw [(decode_exact.2 _ header hdecode).2.1]
  exact .inr ⟨4, _, rfl, Pool.mem_entries.1 hdouble, rfl⟩

end PoolHeader

end ClassAtlas
