import ClassAtlas.ClassFile.Decode
import ClassAtlas.Proofs.Binary.Locality

/-!
# Truncated class files

The decoder of class files looks at the bytes of the format and no further. A file that lost some of
them is reported as one that ended too early, with the offset at which it ends; bytes behind them
make no difference.
-/

namespace ClassAtlas

open Decoder

/-! ## The constant pool -/

theorem PoolEntry.local_body (tag : UInt8) (index offset : Nat) : (body tag index offset).Local := by
  have hpair {α : Type} (f : UInt16 → UInt16 → α) :
      (do return f (← uint16) (← uint16) : Decoder α).Local :=
    local_uint16.bind fun _ => local_uint16.map _
  unfold body
  split
  · refine local_uint16.bind fun n => (local_take _).bind fun bytes => ?_
    split
    · exact local_pure _
    · exact local_fail _
  · exact local_int32.map _
  · exact local_uint32.map _
  · exact local_int64.map _
  · exact local_uint64.map _
  · exact local_uint16.map _
  · exact local_uint16.map _
  · exact hpair _
  · exact hpair _
  · exact hpair _
  · exact hpair _
  · exact local_uint8.bind fun _ => local_uint16.map _
  · exact local_uint16.map _
  · exact hpair _
  · exact hpair _
  · exact local_uint16.map _
  · exact local_uint16.map _
  · exact local_fail _

theorem PoolEntry.local_decode (index : Nat) : (decode index).Local :=
  local_position.bind fun _ => local_uint8.bind fun _ => local_body _ _ _

theorem Pool.local_decodeSlots (index left : Nat) : (decodeSlots index left).Local := by
  fun_induction decodeSlots index left with
  | case1 => exact local_pure _
  | case2 index left ihWide ih =>
    refine (PoolEntry.local_decode index).bind fun entry => ?_
    split
    · cases left with
      | zero => exact local_fail _
      | succ left => exact ihWide.bind fun _ => local_pure _
    · exact ih.bind fun _ => local_pure _

theorem Pool.local_decode : Pool.decode.Local := by
  refine local_uint16.bind fun n => local_ite (local_fail_bind _ _) ?_
  exact (local_decodeSlots _ _).bind fun _ => local_pure _

theorem PoolHeader.local_decoder : PoolHeader.decoder.Local := by
  refine local_uint32.bind fun magic => local_ite (local_fail_bind _ _) ?_
  refine local_uint16.bind fun minor => local_uint16.bind fun major => ?_
  refine local_ite (local_fail_bind _ _) ?_
  exact Pool.local_decode.bind fun _ => local_position.bind fun _ => local_pure _

/-! ## Annotations -/

theorem ElementValue.local_elements {value : Decoder ElementValue} (h : value.Local) :
    (elements value).Local :=
  local_counted (local_uint16.bind fun _ => h.bind fun _ => local_pure _)

theorem ElementValue.local_body {inner : Decoder ElementValue} (h : inner.Local) (tag : UInt8)
    (offset : Nat) : (body inner tag offset).Local := by
  refine local_ite (local_uint16.map _) ?_
  split
  · exact local_uint16.bind fun _ => local_uint16.map _
  · exact local_uint16.map _
  · exact local_uint16.bind fun _ => (local_elements h).map _
  · exact (local_counted h).map _
  · exact local_fail _

/-- By induction on the levels of nesting that are left. -/
theorem ElementValue.local_decode (levels : Nat) : (decode levels).Local := by
  induction levels with
  | zero => exact local_position.bind fun _ => local_fail _
  | succ levels ih =>
    exact local_position.bind fun _ => local_uint8.bind fun _ => local_body ih _ _

theorem AnnotationInfo.local_decode : AnnotationInfo.decode.Local :=
  local_uint16.bind fun _ =>
    (ElementValue.local_elements (ElementValue.local_decode _)).bind fun _ => local_pure _

theorem AnnotationTarget.local_body (kind : UInt8) (offset : Nat) : (body kind offset).Local := by
  refine local_ite (local_uint8.map _) ?_
  refine local_ite (local_uint16.map _) ?_
  refine local_ite (local_uint8.bind fun _ => local_uint8.map _) ?_
  refine local_ite (local_pure _) ?_
  refine local_ite (local_uint8.map _) ?_
  refine local_ite (local_uint16.map _) ?_
  refine local_ite (local_uint16.bind fun _ => (local_skip _).bind fun _ => local_pure _) ?_
  refine local_ite (local_uint16.map _) ?_
  refine local_ite (local_uint16.map _) ?_
  exact local_ite (local_uint16.bind fun _ => local_uint8.map _) (local_fail _)

theorem TypeAnnotationInfo.local_decode : TypeAnnotationInfo.decode.Local :=
  local_position.bind fun _ => local_uint8.bind fun _ =>
    (AnnotationTarget.local_body _ _).bind fun _ => local_uint8.bind fun _ =>
      (local_skip _).bind fun _ => AnnotationInfo.local_decode.bind fun _ => local_pure _

/-! ## Members -/

/-- The content of an attribute is read from its own part, which has all its bytes. -/
theorem local_attributeWith {α : Type} (pool : Pool) (content? : String → Option (Decoder α))
    (other : String → UInt32 → α) : (attributeWith pool content? other).Local := by
  refine local_uint16.bind fun _ => (local_ofExcept _).bind fun name => local_uint32.bind
    fun length => (local_part _).bind fun body => ?_
  split
  · exact local_pure _
  · exact (local_within _ _).bind fun _ => local_ite (local_fail_bind _ _) (local_pure _)

theorem Member.local_decode (pool : Pool) (place : Place) : (Member.decode pool place).Local :=
  local_uint16.bind fun _ => local_uint16.bind fun _ => (local_ofExcept _).bind fun _ =>
    local_uint16.bind fun _ => (local_ofExcept _).bind fun _ =>
      (local_counted (local_attributeWith _ _ _)).bind fun _ => local_pure _

namespace ClassFile

theorem local_classRef (pool : Pool) : (classRef pool).Local :=
  local_uint16.bind fun _ => local_ofExcept _

theorem local_superclassRef (pool : Pool) : (superclassRef pool).Local :=
  local_uint16.bind fun _ => local_ite (local_pure _) ((local_ofExcept _).map _)

theorem local_decoder (pool : Pool) : (decoder pool).Local :=
  local_uint16.bind fun _ => (local_classRef pool).bind fun _ =>
    (local_superclassRef pool).bind fun _ => (local_counted (local_classRef pool)).bind fun _ =>
      (local_counted (Member.local_decode pool .onField)).bind fun _ =>
        (local_counted (Member.local_decode pool .onMethod)).bind fun _ =>
          (local_counted (local_attributeWith _ _ _)).bind fun _ => local_pure _

end ClassFile

/-! ## Whole files -/

namespace PoolHeader

variable {bytes : List UInt8} {header : PoolHeader} {r : Reader}

theorem decode_eq_run' (h : 4 ≤ bytes.length) :
    decode bytes = decoder.run' (.ofBytes bytes 0) := by
  rw [decode, if_neg]
  rw [List.length_take]
  omega

theorem exists_decode_eq_error (h : bytes.length < 4) :
    ∃ fault, decode bytes = .error (.format fault) := by
  refine ⟨.missingMagic, if_pos ?_⟩
  rw [List.length_take]
  omega

theorem four_le_length_of_decoder (h : decoder (.ofBytes bytes 0) = .ok (header, r)) :
    4 ≤ bytes.length := by
  obtain ⟨magic, _, hmagic, -⟩ := stateBind_eq_ok_iff.1 h
  obtain ⟨n, _, hnumber, -⟩ := stateBind_eq_ok_iff.1 hmagic
  obtain ⟨taken, _, htake, -⟩ := stateBind_eq_ok_iff.1 hnumber
  change Decoder.take 4 _ = _ at htake
  rw [take_apply] at htake
  split at htake
  · next hle => exact hle
  · cases htake

/-- The part after the pool starts where the header ends. -/
theorem sectionsOffset_of_decoder (h : decoder (.ofBytes bytes 0) = .ok (header, r)) :
    header.sectionsOffset = r.position := by
  obtain ⟨magic, _, -, h⟩ := stateBind_eq_ok_iff.1 h
  split at h
  · cases h
  obtain ⟨minor, _, -, h⟩ := stateBind_eq_ok_iff.1 h
  obtain ⟨major, _, -, h⟩ := stateBind_eq_ok_iff.1 h
  split at h
  · cases h
  obtain ⟨pool, s, -, h⟩ := stateBind_eq_ok_iff.1 h
  cases h
  rfl

/-- A header is decoded to itself whatever follows it. -/
theorem decode_append {first : List UInt8} (h : decoder.Settles 0 0 first header)
    (second : List UInt8) :
    decode (first ++ second) = .ok header ∧ header.sectionsOffset = first.length := by
  have hdecoder := h.extend []
  have hfour := four_le_length_of_decoder hdecoder
  have hoffset := sectionsOffset_of_decoder hdecoder
  rw [List.append_nil] at hfour
  simp only [Reader.position, Nat.zero_add] at hoffset
  refine ⟨?_, hoffset⟩
  rw [decode_eq_run' (by rw [List.length_append]; omega), h.run' second]

theorem exists_settles_of_decode (h : decode bytes = .ok header) :
    ∃ first second, bytes = first ++ second ∧ decoder.Settles 0 0 first header := by
  rcases Nat.lt_or_ge bytes.length 4 with hshort | hfour
  · obtain ⟨fault, hfault⟩ := exists_decode_eq_error hshort
    rw [h] at hfault
    cases hfault
  · rw [decode_eq_run' hfour] at h
    exact local_decoder.exists_settles h

end PoolHeader

namespace CompiledUnit

/-- Behind the header, a file is decoded from where the header ended. -/
theorem decode_append {first : List UInt8} {header : PoolHeader}
    (h : PoolHeader.decoder.Settles 0 0 first header) (second : List UInt8) :
    decode (first ++ second) = (⟨header.version, header.pool, ·⟩) <$>
      (ClassFile.decoder header.pool).run' (.ofBytes second first.length) := by
  obtain ⟨hheader, hoffset⟩ := PoolHeader.decode_append h second
  rw [decode, bind_eq_of_ok hheader, ClassFile.decodeAt, hoffset, if_neg (by simp),
    List.drop_left]
  rfl

/-- A file that is accepted has a length that matters: whatever follows the first `n` bytes is
ignored, and a file that is cut before them is reported as cut where it ends. Below four bytes not
even the magic word is there. -/
theorem decode_truncated {bytes : List UInt8} {u : CompiledUnit} (h : decode bytes = .ok u) :
    ∃ n ≤ bytes.length, (∀ rest, decode (bytes.take n ++ rest) = .ok u) ∧
      (∀ k, 4 ≤ k → k < n → RunsOut (decode (bytes.take k)) k) ∧
      ∀ k < 4, ∃ fault, decode (bytes.take k) = .error (.format fault) := by
  obtain ⟨header, hheader, hfile⟩ := exists_of_bind_eq_ok h
  have hfour : 4 ≤ bytes.length := by
    refine Nat.le_of_not_lt fun hlt => ?_
    obtain ⟨fault, hfault⟩ := PoolHeader.exists_decode_eq_error hlt
    rw [hheader] at hfault
    cases hfault
  rw [PoolHeader.decode_eq_run' hfour] at hheader
  obtain ⟨first, others, rfl, hfirst⟩ := PoolHeader.local_decoder.exists_settles hheader
  rw [decode_append hfirst] at h
  obtain ⟨file, hrun, rfl⟩ := exists_of_map_eq_ok h
  obtain ⟨second, rest, rfl, hsecond⟩ := (ClassFile.local_decoder _).exists_settles hrun
  have hn : (first ++ (second ++ rest)).take (first.length + second.length) = first ++ second := by
    rw [← List.append_assoc, ← List.length_append, List.take_left]
  refine ⟨first.length + second.length, by simp, fun rest' => ?_, fun k hk hkn => ?_, fun k hk => ?_⟩
  · rw [hn, List.append_assoc, decode_append hfirst, hsecond.run']
    rfl
  · rcases Nat.lt_or_ge k first.length with hlt | hge
    · -- the cut is inside the header
      rw [List.take_append_of_le_length (Nat.le_of_lt hlt), decode, PoolHeader.decode_eq_run']
      · have hcut := (hfirst.run'_take hlt).bind fun header => do
          let file ← ClassFile.decodeAt header.pool (first.take k) header.sectionsOffset
          return (⟨header.version, header.pool, file⟩ : CompiledUnit)
        rwa [Nat.zero_add] at hcut
      · rw [List.length_take]
        omega
    · -- the cut is behind the header
      obtain ⟨j, rfl⟩ := Nat.exists_eq_add_of_le hge
      rw [List.take_length_add_append, decode_append hfirst,
        List.take_append_of_le_length (by omega)]
      exact (hsecond.run'_take (by omega)).map _
  · have hshort : ((first ++ (second ++ rest)).take k).length < 4 := by
      rw [List.length_take]
      omega
    obtain ⟨fault, hfault⟩ := PoolHeader.exists_decode_eq_error hshort
    exact ⟨fault, by rw [decode, hfault]; rfl⟩

/-- A class without superclass or members, and one byte too many. -/
def bareClass : List UInt8 :=
  [0xCA, 0xFE, 0xBA, 0xBE, 0, 0, 0, 45, 0, 3, 1, 0, 1, 65, 7, 0, 1, 0, 0, 0, 2, 0, 0, 0, 0, 0, 0, 0, 0,
    0, 0, 7]

theorem decode_truncated_bareClass : ∃ u, decode bareClass = .ok u ∧
    ∃ n ≤ bareClass.length, (∀ rest, decode (bareClass.take n ++ rest) = .ok u) ∧
      (∀ k, 4 ≤ k → k < n → RunsOut (decode (bareClass.take k)) k) ∧
      ∀ k < 4, ∃ fault, decode (bareClass.take k) = .error (.format fault) := by
  obtain ⟨u, hu⟩ := exists_of_isOk (x := decode bareClass) (by decide +kernel)
  exact ⟨u, hu, decode_truncated hu⟩

end CompiledUnit

end ClassAtlas
