import ClassAtlas.Proofs.Extraction.Operands
import ClassAtlas.Proofs.Extraction.UnitMeaning

/-!
# Touched entries

The entries that a body of code touches are collected in a map, in which the first use of an index
decides its owner. The owner is the same for every opcode that accepts the entry, so the map only
depends on which indices are touched.

## Main statements

* `Pool.operandClass?_eq` says that the opcode of an instruction does not show in its owner.
* `Extract.touched_eq_ok_iff` says when the entries of a body can be collected, and what they are.
* `Code.SameUse.touched_eq` says that their order and number does not matter.
-/

namespace ClassAtlas

open Name

/-! ## Owners -/

namespace Pool

variable {pool : Pool} {i : UInt16}

theorem memberOwner?_of_ok {ref : MemberRef} (h : pool.memberRef i = .ok ref) :
    pool.memberOwner? i = some ref.owner := by
  simp [memberOwner?, h, Except.toOption]

theorem ownerAt?_of_className {name : String} (h : pool.className i = .ok name) :
    pool.ownerAt? i = some name := by
  obtain ⟨k, hk, _⟩ := get_of_className h
  simp [ownerAt?, hk, h, Except.toOption]

theorem ownerAt?_of_memberRef {ref : MemberRef} (h : pool.memberRef i = .ok ref) :
    pool.ownerAt? i = some ref.owner := by
  obtain ⟨o, nt, hget, _⟩ := get_of_memberRef h
  cases hkind : ref.kind <;> rw [hkind] at hget <;>
    simp [ownerAt?, hget, memberEntry, memberOwner?_of_ok h]

theorem ownerAt?_of_memberOwner {accepted : List MemberKind} {wanted : Wanted} {owner : String}
    (h : pool.memberOwner i accepted wanted = .ok owner) : pool.ownerAt? i = some owner := by
  obtain ⟨ref, href, h⟩ := exists_of_bind_eq_ok h
  split at h
  · cases h
    exact ownerAt?_of_memberRef href
  · obtain ⟨e, _, h⟩ := exists_of_bind_eq_ok h
    cases h

theorem ownerAt?_of_loadedClass? {e : PoolEntry} (he : pool.get i = .ok e) {v : Option String}
    (h : pool.loadedClass? i e = .ok v) : pool.ownerAt? i = v := by
  cases e with
  | classEntry k =>
    obtain ⟨name, hname, rfl⟩ := exists_of_map_eq_ok h
    exact ownerAt?_of_className hname
  | methodHandle kind member =>
    obtain ⟨ref, href, rfl⟩ := exists_of_map_eq_ok h
    simp [ownerAt?, he, memberOwner?_of_ok href]
  | integer | float | long | double | string | methodType | dynamic =>
    cases h
    simp [ownerAt?, he]
  | utf8 | fieldRef | methodRef | interfaceMethodRef | nameAndType | invokeDynamic | module
    | package => cases h

/-- The owner of an operand depends on its index only; the opcode decides whether there is one. -/
theorem operandClass?_eq {ref : InstructionRef} {v : Option String}
    (h : pool.operandClass? ref = .ok v) : v = pool.ownerAt? ref.index := by
  obtain ⟨e, he, h⟩ := exists_of_bind_eq_ok h
  split at h
  case h_1 | h_2 | h_3 => exact (ownerAt?_of_loadedClass? he h).symm
  case h_4 | h_5 | h_6 | h_7 | h_8 | h_9 | h_10 | h_11 =>
    obtain ⟨owner, howner, h⟩ := exists_of_bind_eq_ok h
    cases h
    exact (ownerAt?_of_memberOwner howner).symm
  case h_12 =>
    split at h
    · cases h
      simp [ownerAt?, he]
    · cases h
  case h_13 =>
    obtain ⟨name, hname, h⟩ := exists_of_bind_eq_ok h
    cases h
    exact (ownerAt?_of_className hname).symm

end Pool

/-! ## The touched entries of a body -/

/-- The map of the owners of some indices. -/
def Pool.ownersAt (pool : Pool) (indices : List UInt16) : SortedMap UInt16 (Option String) :=
  (indices.map fun i => (i, pool.ownerAt? i)).foldl (fun m e => m.insertNew e.1 e.2)
    SortedMap.empty

namespace Pool

variable {pool : Pool} {indices indices' : List UInt16}

theorem mem_toList_ownersAt {i : UInt16} {v : Option String} :
    (i, v) ∈ (pool.ownersAt indices).toList ↔ i ∈ indices ∧ v = pool.ownerAt? i := by
  rw [ownersAt, mem_toList_foldl_insertNew]
  · grind
  · grind

theorem ownersAt_congr (h : ∀ i, i ∈ indices ↔ i ∈ indices') :
    pool.ownersAt indices = pool.ownersAt indices' := by
  refine SortedMap.ext_get? fun i => Option.ext fun v => ?_
  rw [← SortedMap.mem_toList, ← SortedMap.mem_toList, mem_toList_ownersAt, mem_toList_ownersAt, h]

/-- The owners stand in the order of the distinct indices. -/
theorem values_ownersAt : (pool.ownersAt indices).values =
    (pool.ownersAt indices).keys.map pool.ownerAt? := by
  rw [SortedMap.values, SortedMap.keys, List.map_map]
  exact List.map_congr_left fun e he => (mem_toList_ownersAt.1 he).2

theorem perm_keys_ownersAt : (pool.ownersAt indices).keys.Perm indices.dedup := by
  refine (List.perm_ext_iff_of_nodup (SortedMap.nodup_keys _) (List.nodup_dedup _)).2 fun i => ?_
  rw [List.mem_dedup, SortedMap.keys, List.mem_map]
  constructor
  · rintro ⟨e, he, rfl⟩
    exact (mem_toList_ownersAt.1 he).1
  · intro hi
    exact ⟨_, mem_toList_ownersAt.2 ⟨hi, rfl⟩, rfl⟩

/-- A class is found once for each distinct index that leads to it. -/
theorem count_owners (target : String) :
    (((pool.ownersAt indices).values.filterMap id).filterMap elementClass?).count target =
      indices.dedup.countP fun i => pool.classAt? i = some target := by
  have hclasses : ((pool.ownersAt indices).values.filterMap id).filterMap elementClass? =
      (pool.ownersAt indices).keys.filterMap pool.classAt? := by
    rw [values_ownersAt, List.filterMap_map, List.filterMap_filterMap]
    rfl
  rw [hclasses, List.count_filterMap, perm_keys_ownersAt.countP_eq]
  simp only [beq_eq_decide]

end Pool

namespace Extract

variable {pool : Pool} {c : Code}

theorem mapM_operands_eq_ok_iff {refs : List InstructionRef}
    {es : List (UInt16 × Option String)} :
    refs.mapM (fun ref => return (ref.index, ← pool.operandClass? ref)) = .ok es ↔
      (∀ ref ∈ refs, (pool.operandClass? ref).isOk = true) ∧
        es = refs.map fun ref => (ref.index, pool.ownerAt? ref.index) := by
  rw [mapM_eq_ok_iff (g := fun ref => (ref.index, pool.ownerAt? ref.index))]
  · simp only [isOk_bind_pure]
  · intro ref e he
    obtain ⟨v, hv, he⟩ := exists_of_bind_eq_ok he
    cases he
    rw [Pool.operandClass?_eq hv]

theorem mapM_caught_eq_ok_iff {l : List UInt16} {es : List (UInt16 × Option String)} :
    l.mapM (fun i => return (i, some (← pool.className i))) = .ok es ↔
      (∀ i ∈ l, (pool.className i).isOk = true) ∧ es = l.map fun i => (i, pool.ownerAt? i) := by
  rw [mapM_eq_ok_iff (g := fun i => (i, pool.ownerAt? i))]
  · simp only [isOk_bind_pure]
  · intro i e he
    obtain ⟨name, hname, he⟩ := exists_of_bind_eq_ok he
    cases he
    rw [Pool.ownerAt?_of_className hname]

/-- The touched entries can be collected if each instruction finds an entry that it accepts and each
handler a class; they are the distinct indices, each with the owner that it leads to. -/
theorem touched_eq_ok_iff {m : SortedMap UInt16 (Option String)} :
    touched pool c = .ok m ↔ ∃ refs, scanCode c.bytes c.offset = .ok refs ∧
      (∀ ref ∈ refs, (pool.operandClass? ref).isOk = true) ∧
      (∀ i ∈ c.caught, (pool.className i).isOk = true) ∧ m = pool.ownersAt c.touchedIndices := by
  have hentries {refs : List InstructionRef} (hrefs : scanCode c.bytes c.offset = .ok refs) :
      (refs.map (fun ref => (ref.index, pool.ownerAt? ref.index)) ++
        c.caught.map fun i => (i, pool.ownerAt? i)).foldl (fun m e => m.insertNew e.1 e.2)
          SortedMap.empty = pool.ownersAt c.touchedIndices := by
    simp [Pool.ownersAt, Code.touchedIndices, hrefs, Except.toOption, Function.comp_def]
  constructor
  · intro h
    obtain ⟨refs, hrefs, h⟩ := exists_of_bind_eq_ok h
    obtain ⟨operands, hoperands, h⟩ := exists_of_bind_eq_ok h
    obtain ⟨handlers, hhandlers, h⟩ := exists_of_bind_eq_ok h
    obtain ⟨hrefsOk, rfl⟩ := mapM_operands_eq_ok_iff.1 hoperands
    obtain ⟨hcaughtOk, rfl⟩ := mapM_caught_eq_ok_iff.1 hhandlers
    cases h
    exact ⟨refs, hrefs, hrefsOk, hcaughtOk, hentries hrefs⟩
  · rintro ⟨refs, hrefs, hrefsOk, hcaughtOk, rfl⟩
    rw [← hentries hrefs]
    have hoperands := mapM_operands_eq_ok_iff.2 ⟨hrefsOk, rfl⟩
    have hhandlers := mapM_caught_eq_ok_iff.2 ⟨hcaughtOk, rfl⟩
    exact (bind_eq_of_ok hrefs _).trans ((bind_eq_of_ok hoperands _).trans
      (bind_eq_of_ok hhandlers _))

end Extract

/-! ## Order and number do not matter -/

theorem mem_uses_iff {opcode : UInt8} {index : UInt16} {insns : List (Nat × Instruction)} :
    (opcode, index) ∈ (insns.filterMap Instruction.reference?).map InstructionRef.use ↔
      ∃ extra, .reference opcode index extra ∈ insns.map Prod.snd := by
  simp only [List.mem_map, List.mem_filterMap]
  constructor
  · rintro ⟨ref, ⟨⟨pc, insn⟩, hmem, href⟩, huse⟩
    cases insn with
    | reference opcode' index' extra =>
      cases href
      cases huse
      exact ⟨extra, _, hmem, rfl⟩
    | _ => cases href
  · rintro ⟨extra, ⟨pc, insn⟩, hmem, rfl⟩
    exact ⟨⟨pc, opcode, index⟩, ⟨_, hmem, rfl⟩, rfl⟩

/-- Bodies with the same instructions, each in any place and any number of times, and handlers of
the same classes have the same use. -/
theorem Code.sameUse_of_instructions {c c' : Code} {insns insns' : List (Nat × Instruction)}
    (h : Instruction.decodeAll c.bytes c.offset = .ok insns)
    (h' : Instruction.decodeAll c'.bytes c'.offset = .ok insns')
    (hinsns : ∀ insn, insn ∈ insns.map Prod.snd ↔ insn ∈ insns'.map Prod.snd)
    (hhandlers : ∀ i, i ∈ c.handlers.map Handler.catchType ↔ i ∈ c'.handlers.map Handler.catchType)
    (hdetails : c.details = c'.details) : c.SameUse c' where
  instructions := by
    refine ⟨_, _, by rw [scanCode, h]; rfl, by rw [scanCode, h']; rfl, ?_⟩
    rintro ⟨opcode, index⟩
    rw [mem_uses_iff, mem_uses_iff]
    exact exists_congr fun extra => hinsns _
  handlers := hhandlers
  details := hdetails

namespace Code.SameUse

variable {c c' : Code}

theorem mem_caught (h : c.SameUse c') (i : UInt16) : i ∈ c.caught ↔ i ∈ c'.caught := by
  simp only [Code.caught, List.mem_filter, h.handlers i]

theorem mem_touchedIndices (h : c.SameUse c') (i : UInt16) :
    i ∈ c.touchedIndices ↔ i ∈ c'.touchedIndices := by
  obtain ⟨refs, refs', hrefs, hrefs', huse⟩ := h.instructions
  have hindex (l : List InstructionRef) :
      l.map InstructionRef.index = (l.map InstructionRef.use).map Prod.snd := by
    simp [InstructionRef.use]
  simp only [Code.touchedIndices, hrefs, hrefs', Except.toOption, Option.getD_some, hindex,
    List.mem_append, List.mem_map (f := Prod.snd), huse, h.mem_caught i]

/-- Bodies of the same use touch the same entries. -/
theorem touched_eq (h : c.SameUse c') {pool : Pool} {m : SortedMap UInt16 (Option String)}
    (hm : Extract.touched pool c = .ok m) : Extract.touched pool c' = .ok m := by
  obtain ⟨refs, refs', hrefs, hrefs', huse⟩ := h.instructions
  obtain ⟨_, hscan, hrefsOk, hcaughtOk, rfl⟩ := Extract.touched_eq_ok_iff.1 hm
  cases hrefs.symm.trans hscan
  refine Extract.touched_eq_ok_iff.2 ⟨refs', hrefs', fun ref' href' => ?_, fun i hi => ?_,
    Pool.ownersAt_congr h.mem_touchedIndices⟩
  · -- an instruction with this opcode and index stands in the other body as well
    obtain ⟨ref, href, heq⟩ := List.mem_map.1 ((huse ref'.use).2 (List.mem_map_of_mem href'))
    have hsame : pool.operandClass? ref' = pool.operandClass? ref := by
      rw [InstructionRef.use, InstructionRef.use, Prod.mk.injEq] at heq
      rw [Pool.operandClass?, Pool.operandClass?, heq.1, heq.2]
    rw [hsame]
    exact hrefsOk ref href
  · exact hcaughtOk i ((h.mem_caught i).2 hi)

end Code.SameUse

end ClassAtlas
