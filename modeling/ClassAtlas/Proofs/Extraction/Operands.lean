import Mathlib.Tactic.Choose
import ClassAtlas.Proofs.Assembler.RoundTrip
import ClassAtlas.Proofs.Extraction.Meaning
import ClassAtlas.Proofs.Outcome

/-!
# Distinct operands

Extraction counts the pool entries that a body of code touches, by index. In a pool that has each
entry once, two indices are the same exactly if the operands at them are, so what is counted is the
distinct operands of the body.

## Main definitions

* `Operand.At` says that an operand stands at an index of a pool.
* `Listed` relates operands to the touched indices with their classes.
-/

namespace ClassAtlas

namespace Pool

variable {pool : Pool} {i : UInt16}

theorem get_of_utf8 {text : String} (h : pool.utf8 i = .ok text) :
    pool.get i = .ok (.utf8 text) := by
  obtain ⟨e, hget, h⟩ := exists_of_bind_eq_ok h
  cases e with
  | utf8 t =>
    cases h
    exact hget
  | _ => cases h

theorem get_of_className {name : String} (h : pool.className i = .ok name) :
    ∃ k, pool.get i = .ok (.classEntry k) ∧ pool.get k = .ok (.utf8 name) := by
  obtain ⟨e, hget, h⟩ := exists_of_bind_eq_ok h
  cases e with
  | classEntry k => exact ⟨k, hget, get_of_utf8 h⟩
  | _ => cases h

theorem get_of_nameAndType {p : String × String} (h : pool.nameAndType i = .ok p) :
    ∃ n d, pool.get i = .ok (.nameAndType n d) ∧ pool.get n = .ok (.utf8 p.1) ∧
      pool.get d = .ok (.utf8 p.2) := by
  obtain ⟨e, hget, h⟩ := exists_of_bind_eq_ok h
  cases e with
  | nameAndType n d =>
    obtain ⟨name, hname, h⟩ := exists_of_bind_eq_ok h
    obtain ⟨descriptor, hdescriptor, h⟩ := exists_of_bind_eq_ok h
    cases h
    exact ⟨n, d, hget, get_of_utf8 hname, get_of_utf8 hdescriptor⟩
  | _ => cases h

/-- The entry of a reference to a member. -/
def memberEntry : MemberKind → UInt16 → UInt16 → PoolEntry
  | .field => .fieldRef
  | .method => .methodRef
  | .interfaceMethod => .interfaceMethodRef

theorem resolveMember_eq {kind : MemberKind} {o nt : UInt16} {ref : MemberRef}
    (h : pool.resolveMember kind o nt = .ok ref) : ref.kind = kind ∧
      pool.className o = .ok ref.owner ∧ pool.nameAndType nt = .ok (ref.name, ref.descriptor) := by
  obtain ⟨owner, howner, h⟩ := exists_of_bind_eq_ok h
  obtain ⟨p, hp, h⟩ := exists_of_bind_eq_ok h
  cases h
  exact ⟨rfl, howner, hp⟩

theorem get_of_memberRef {ref : MemberRef} (h : pool.memberRef i = .ok ref) :
    ∃ o nt, pool.get i = .ok (memberEntry ref.kind o nt) ∧ pool.className o = .ok ref.owner ∧
      pool.nameAndType nt = .ok (ref.name, ref.descriptor) := by
  obtain ⟨e, hget, h⟩ := exists_of_bind_eq_ok h
  cases e with
  | fieldRef o nt | methodRef o nt | interfaceMethodRef o nt =>
    obtain ⟨hkind, hnames⟩ := resolveMember_eq h
    exact ⟨o, nt, by rw [hkind]; exact hget, hnames⟩
  | _ => cases h

theorem memberOwner_eq {ref : MemberRef} (h : pool.memberRef i = .ok ref)
    {accepted : List MemberKind} (hkind : accepted.contains ref.kind = true) {wanted : Wanted} :
    pool.memberOwner i accepted wanted = .ok ref.owner := by
  rw [memberOwner, h]
  show (if _ then _ else _) = _
  rw [if_pos hkind]
  rfl

namespace Distinct

variable (hpool : pool.Distinct) {j : UInt16}

include hpool

theorem className_unique {name : String} (hi : pool.className i = .ok name)
    (hj : pool.className j = .ok name) : i = j := by
  obtain ⟨k, hi, hk⟩ := get_of_className hi
  obtain ⟨k', hj, hk'⟩ := get_of_className hj
  cases hpool.unique hk hk'
  exact hpool.unique hi hj

theorem nameAndType_unique {p : String × String} (hi : pool.nameAndType i = .ok p)
    (hj : pool.nameAndType j = .ok p) : i = j := by
  obtain ⟨n, d, hi, hn, hd⟩ := get_of_nameAndType hi
  obtain ⟨n', d', hj, hn', hd'⟩ := get_of_nameAndType hj
  cases hpool.unique hn hn'
  cases hpool.unique hd hd'
  exact hpool.unique hi hj

theorem memberRef_unique {ref : MemberRef} (hi : pool.memberRef i = .ok ref)
    (hj : pool.memberRef j = .ok ref) : i = j := by
  obtain ⟨o, nt, hi, ho, hnt⟩ := get_of_memberRef hi
  obtain ⟨o', nt', hj, ho', hnt'⟩ := get_of_memberRef hj
  cases hpool.className_unique ho ho'
  cases hpool.nameAndType_unique hnt hnt'
  exact hpool.unique hi hj

end Distinct

end Pool

namespace Operand

variable {pool : Pool} {i j : UInt16} {o o' : Operand}

/-- The operand stands at an index. -/
def At (pool : Pool) (i : UInt16) : Operand → Prop
  | classRef name => pool.className i = .ok name
  | member ref => pool.memberRef i = .ok ref

/-- At an index stands one operand only. -/
theorem At.operand_unique (h : o.At pool i) (h' : o'.At pool i) : o = o' := by
  have hshape {name : String} {ref : MemberRef} (hclass : pool.className i = .ok name) :
      pool.memberRef i ≠ .ok ref := by
    intro hmember
    obtain ⟨k, hk, _⟩ := Pool.get_of_className hclass
    obtain ⟨o, nt, hget, _⟩ := Pool.get_of_memberRef hmember
    rw [hk] at hget
    cases hkind : ref.kind <;> rw [hkind] at hget <;> cases hget
  cases o with
  | classRef name =>
    cases o' with
    | classRef name' => exact congrArg classRef (Except.ok.inj (h.symm.trans h'))
    | member ref => exact absurd h' (hshape h)
  | member ref =>
    cases o' with
    | classRef name' => exact absurd h (hshape h')
    | member ref' => exact congrArg member (Except.ok.inj (h.symm.trans h'))

/-- An operand stands at one index only. -/
theorem At.index_unique (hpool : pool.Distinct) (h : o.At pool i) (h' : o.At pool j) : i = j := by
  cases o with
  | classRef name => exact hpool.className_unique h h'
  | member ref => exact hpool.memberRef_unique h h'

/-- Strings and numbers are no operands. -/
theorem not_at_of_get {e : PoolEntry} (hget : pool.get i = .ok e)
    (he : (∃ k, e = .string k) ∨ ∃ n, e = .long n) (o : Operand) : ¬ o.At pool i := by
  intro h
  cases o with
  | classRef name =>
    obtain ⟨k, hk, _⟩ := Pool.get_of_className h
    rw [hget] at hk
    rcases he with ⟨_, rfl⟩ | ⟨_, rfl⟩ <;> cases hk
  | member ref =>
    obtain ⟨o, nt, hmember, _⟩ := Pool.get_of_memberRef h
    rw [hget] at hmember
    rcases he with ⟨_, rfl⟩ | ⟨_, rfl⟩ <;> cases hkind : ref.kind <;> rw [hkind] at hmember <;>
      cases hmember

end Operand

/-! ## Touched indices -/

/-- The index belongs to the operand and comes with its class; without an operand it leads to no
class. -/
def Touches (pool : Pool) (o? : Option Operand) (e : UInt16 × Option String) : Prop :=
  match o? with
  | some o => o.At pool e.1 ∧ e.2 = some o.owner
  | none => (∀ o : Operand, ¬ o.At pool e.1) ∧ e.2 = none

theorem Touches.class_unique {pool : Pool} {o? o?' : Option Operand} {i : UInt16}
    {v v' : Option String} (h : Touches pool o? (i, v)) (h' : Touches pool o?' (i, v')) :
    v = v' := by
  cases o? with
  | none =>
    cases o?' with
    | none => exact h.2.trans h'.2.symm
    | some o' => exact absurd h'.1 (h.1 o')
  | some o =>
    cases o?' with
    | none => exact absurd h.1 (h'.1 o)
    | some o' =>
      cases h.1.operand_unique h'.1
      exact h.2.trans h'.2.symm

/-- The touched indices are those of the operands, and some that lead to no class. -/
structure Listed (pool : Pool) (operands : List Operand) (touched : List (UInt16 × Option String)) :
    Prop where
  sound : ∀ e ∈ touched, ∃ o?, Touches pool o? e ∧ ∀ o ∈ o?, o ∈ operands
  complete : ∀ o ∈ operands, ∃ e ∈ touched, Touches pool (some o) e

namespace Listed

variable {pool : Pool} {l l' : List Operand} {es es' : List (UInt16 × Option String)}

theorem nil : Listed pool [] [] where
  sound e he := by cases he
  complete o ho := by cases ho

theorem singleton {o? : Option Operand} {e : UInt16 × Option String} (h : Touches pool o? e) :
    Listed pool o?.toList [e] where
  sound e' he := by
    cases List.mem_singleton.1 he
    exact ⟨o?, h, fun o ho => Option.mem_toList.2 ho⟩
  complete o ho := by
    cases Option.mem_toList.1 ho
    exact ⟨e, List.mem_singleton.2 rfl, h⟩

theorem append (h : Listed pool l es) (h' : Listed pool l' es') :
    Listed pool (l ++ l') (es ++ es') where
  sound e he := by
    rcases List.mem_append.1 he with he | he
    · obtain ⟨o?, ho, hmem⟩ := h.sound e he
      exact ⟨o?, ho, fun o h => List.mem_append_left l' (hmem o h)⟩
    · obtain ⟨o?, ho, hmem⟩ := h'.sound e he
      exact ⟨o?, ho, fun o h => List.mem_append_right l (hmem o h)⟩
  complete o ho := by
    rcases List.mem_append.1 ho with ho | ho
    · obtain ⟨e, he, ht⟩ := h.complete o ho
      exact ⟨e, List.mem_append_left es' he, ht⟩
    · obtain ⟨e, he, ht⟩ := h'.complete o ho
      exact ⟨e, List.mem_append_right es he, ht⟩

theorem mem_iff (h : Listed pool l es) (hpool : pool.Distinct) {i : UInt16} {owner : String} :
    (i, some owner) ∈ es ↔ ∃ o ∈ l, o.At pool i ∧ o.owner = owner := by
  constructor
  · intro he
    obtain ⟨o?, ht, hmem⟩ := h.sound _ he
    cases o? with
    | none => cases ht.2
    | some o => exact ⟨o, hmem o rfl, ht.1, (Option.some_inj.1 ht.2).symm⟩
  · rintro ⟨o, ho, hi, rfl⟩
    obtain ⟨⟨j, v⟩, he, hj, rfl⟩ := h.complete o ho
    cases hi.index_unique hpool hj
    exact he

/-- The class of a touched index depends on the index only. -/
theorem functional (h : Listed pool l es) (i : UInt16) (v v' : Option String) (hv : (i, v) ∈ es)
    (hv' : (i, v') ∈ es) : v = v' := by
  obtain ⟨o?, ho, _⟩ := h.sound _ hv
  obtain ⟨o?', ho', _⟩ := h.sound _ hv'
  exact ho.class_unique ho'

end Listed

/-- A map into which entries are put that agree on their keys has just these entries. -/
theorem mem_toList_foldl_insertNew {es : List (UInt16 × Option String)}
    (hes : ∀ i v v', (i, v) ∈ es → (i, v') ∈ es → v = v') {i : UInt16} {v : Option String} :
    (i, v) ∈ (es.foldl (fun m e => m.insertNew e.1 e.2)
      (SortedMap.empty : SortedMap UInt16 (Option String))).toList ↔ (i, v) ∈ es := by
  have hfirst (l : List (UInt16 × Option String)) (old : Option (Option String)) :
      l.foldl (fun v e => some (v.getD e.2)) old = old.or (l.head?.map (·.2)) := by
    induction l generalizing old with
    | nil => simp
    | cons e l ih => cases old <;> simp [ih]
  rw [SortedMap.mem_toList]
  have hget := SortedMap.get?_foldl_alter (fun e : UInt16 × Option String => e.1)
    (fun e old => old.getD e.2) es SortedMap.empty i
  simp only [SortedMap.insertNew, hget, hfirst, SortedMap.get?_empty, Option.none_or]
  constructor
  · intro hhead
    obtain ⟨⟨j, v'⟩, hmem, rfl⟩ := Option.map_eq_some_iff.1 hhead
    have hfound := List.mem_filter.1 (List.mem_of_mem_head? hmem)
    have hkey : j = i := by simpa using hfound.2
    exact hkey ▸ hfound.1
  · intro he
    have hmem : (i, v) ∈ es.filter (·.1 = i) := List.mem_filter.2 ⟨he, by simp⟩
    cases hhead : (es.filter (·.1 = i)).head? with
    | none =>
      rw [List.head?_eq_none_iff.1 hhead] at hmem
      cases hmem
    | some e =>
      obtain ⟨j, v'⟩ := e
      have hfound := List.mem_filter.1 (List.mem_of_mem_head? hhead)
      have hkey : j = i := by simpa using hfound.2
      subst hkey
      rw [Option.map_some, hes j v v' he hfound.1]

/-- The classes of the touched indices are those of the distinct operands. -/
theorem Listed.perm_owners {pool : Pool} {l : List Operand} {es : List (UInt16 × Option String)}
    (h : Listed pool l es) (hpool : pool.Distinct) :
    ((es.foldl (fun m e => m.insertNew e.1 e.2)
      (SortedMap.empty : SortedMap UInt16 (Option String))).values.filterMap id).Perm
      (l.dedup.map Operand.owner) := by
  have hmem {i v} := mem_toList_foldl_insertNew h.functional (i := i) (v := v)
  generalize es.foldl (fun m e => m.insertNew e.1 e.2) (SortedMap.empty : SortedMap _ _) = m
    at hmem ⊢
  have hindex : ∀ o ∈ l, ∃ i, o.At pool i := by
    intro o ho
    obtain ⟨e, _, he⟩ := h.complete o ho
    exact ⟨e.1, he.1⟩
  choose! place hplace using hindex
  -- both sides are compared together with the indices, which tell equal classes apart
  have hperm : (m.toList.filterMap fun e => e.2.map fun owner => (e.1, owner)).Perm
      (l.dedup.map fun o => (place o, o.owner)) := by
    rw [List.perm_ext_iff_of_nodup]
    · rintro ⟨i, owner⟩
      constructor
      · intro hin
        obtain ⟨⟨j, v⟩, hj, hv⟩ := List.mem_filterMap.1 hin
        obtain ⟨owner', rfl, heq⟩ := Option.map_eq_some_iff.1 hv
        cases heq
        obtain ⟨o, ho, hat, rfl⟩ := (h.mem_iff hpool).1 (hmem.1 hj)
        cases hat.index_unique hpool (hplace o ho)
        exact List.mem_map.2 ⟨o, List.mem_dedup.2 ho, rfl⟩
      · intro hin
        obtain ⟨o, ho, heq⟩ := List.mem_map.1 hin
        cases heq
        have ho := List.mem_dedup.1 ho
        have hentry := hmem.2 ((h.mem_iff hpool).2 ⟨o, ho, hplace o ho, rfl⟩)
        exact List.mem_filterMap.2 ⟨_, hentry, rfl⟩
    · refine List.Nodup.filterMap ?_ (List.Nodup.of_map _ m.nodup_keys)
      rintro ⟨i, v⟩ ⟨j, w⟩ ⟨k, owner⟩ hv hw
      obtain ⟨_, rfl, heq⟩ := Option.map_eq_some_iff.1 hv
      cases heq
      obtain ⟨_, rfl, heq⟩ := Option.map_eq_some_iff.1 hw
      cases heq
      rfl
    · refine List.Nodup.map_on ?_ (List.nodup_dedup l)
      intro o ho o' ho' heq
      have hsame : place o = place o' := congrArg (·.1) heq
      have hat := hplace o (List.mem_dedup.1 ho)
      rw [hsame] at hat
      exact hat.operand_unique (hplace o' (List.mem_dedup.1 ho'))
  have howners := hperm.map Prod.snd
  rw [List.map_map, List.map_filterMap] at howners
  rw [SortedMap.values, List.filterMap_map]
  refine List.Perm.trans (List.Perm.of_eq ?_) howners
  refine List.filterMap_congr fun e _ => ?_
  rw [Option.map_map]
  exact Option.map_id'.symm

/-! ## Bodies of code -/

namespace InsnSpec

theorem ReadAs.touches {pool : Pool} {s : InsnSpec} {insn : Instruction} (h : s.ReadAs pool insn)
    (pc : Nat) : (Instruction.reference? (pc, insn) = none ∧ s.operand? = none) ∨
      ∃ ref v, Instruction.reference? (pc, insn) = some ref ∧ pool.operandClass? ref = .ok v ∧
        Touches pool s.operand? (ref.index, v) := by
  cases insn with
  | plain opcode operands =>
    cases s with
    | returnVoid => exact .inl ⟨rfl, rfl⟩
    | _ => exact h.elim
  | reference opcode index extra =>
    refine .inr ⟨⟨pc, opcode, index⟩, ?_⟩
    cases s with
    | raw bytes => exact h.elim
    | returnVoid => exact h.elim
    | onClass op name =>
      obtain ⟨rfl, hname⟩ := h
      obtain ⟨k, hk, _⟩ := Pool.get_of_className hname
      refine ⟨some name, rfl, ?_, hname, rfl⟩
      cases op <;> simp [Pool.operandClass?, hk, ClassOp.opcode, hname, bind, Except.bind, pure,
        Except.pure]
    | multiNewArray name dims =>
      obtain ⟨rfl, hname⟩ := h
      obtain ⟨k, hk, _⟩ := Pool.get_of_className hname
      refine ⟨some name, rfl, ?_, hname, rfl⟩
      simp [Pool.operandClass?, hk, hname, bind, Except.bind, pure, Except.pure]
    | onMember op owner name descriptor =>
      obtain ⟨rfl, hmember⟩ := h
      obtain ⟨o, nt, hget, _⟩ := Pool.get_of_memberRef hmember
      refine ⟨some owner, rfl, ?_, hmember, rfl⟩
      have howner {accepted : List MemberKind} {wanted : Wanted}
          (hkind : accepted.contains op.kind = true) :
          pool.memberOwner index accepted wanted = .ok owner := Pool.memberOwner_eq hmember hkind
      cases op <;> simp [Pool.operandClass?, hget, MemberOp.opcode, howner, MemberOp.kind, bind,
        Except.bind, pure, Except.pure]
    | loadClass name =>
      obtain ⟨hopcode, hname⟩ := h
      obtain ⟨k, hk, _⟩ := Pool.get_of_className hname
      refine ⟨some name, rfl, ?_, hname, rfl⟩
      rcases hopcode with rfl | rfl <;>
        simp [Pool.operandClass?, Pool.loadedClass?, hk, hname, bind, Except.bind]
    | loadString text =>
      obtain ⟨hopcode, k, hk⟩ := h
      refine ⟨none, rfl, ?_, Operand.not_at_of_get hk (.inl ⟨k, rfl⟩), rfl⟩
      rcases hopcode with rfl | rfl <;>
        simp [Pool.operandClass?, Pool.loadedClass?, hk, bind, Except.bind]
    | loadLong value =>
      obtain ⟨rfl, hvalue⟩ := h
      refine ⟨none, rfl, ?_, Operand.not_at_of_get hvalue (.inr ⟨value, rfl⟩), rfl⟩
      simp [Pool.operandClass?, Pool.loadedClass?, hvalue, bind, Except.bind]
  | _ => cases s <;> exact h.elim

end InsnSpec

namespace Listed

variable {pool : Pool}

theorem instructions {specs : List InsnSpec} {insns : List (Nat × Instruction)}
    (h : List.Forall₂ (fun s p => s.ReadAs pool p.2) specs insns) :
    ∃ es, (insns.filterMap Instruction.reference?).mapM
        (fun ref => return (ref.index, ← pool.operandClass? ref)) = .ok es ∧
      Listed pool (specs.filterMap InsnSpec.operand?) es := by
  induction h with
  | nil => exact ⟨[], rfl, nil⟩
  | @cons s p specs insns hread _ ih =>
    obtain ⟨es, hes, hlisted⟩ := ih
    rcases hread.touches p.1 with ⟨hnone, hoperand⟩ | ⟨ref, v, hsome, hv, htouches⟩
    · rw [List.filterMap_cons_none hnone, List.filterMap_cons_none hoperand]
      exact ⟨es, hes, hlisted⟩
    · refine ⟨(ref.index, v) :: es, ?_, ?_⟩
      · rw [List.filterMap_cons_some hsome, List.mapM_cons, hv, hes]
        rfl
      · have hfirst := (singleton htouches).append hlisted
        cases hoperand : s.operand? with
        | none =>
          rw [hoperand] at hfirst
          rwa [List.filterMap_cons_none hoperand]
        | some o =>
          rw [hoperand] at hfirst
          rwa [List.filterMap_cons_some hoperand]

theorem handlers (hpool : pool.Distinct) {names : List String} {l : List Handler}
    (h : List.Forall₂ (fun name handler => pool.className handler.catchType = .ok name) names l) :
    ∃ es, ((l.map Handler.catchType).filter (· ≠ 0)).mapM
        (fun index => return (index, some (← pool.className index))) = .ok es ∧
      Listed pool (names.map .classRef) es := by
  induction h with
  | nil => exact ⟨[], rfl, nil⟩
  | @cons name handler names l hname _ ih =>
    obtain ⟨es, hes, hlisted⟩ := ih
    have hzero := hpool.ne_zero hname
    have htouches : Touches pool (some (.classRef name)) (handler.catchType, some name) :=
      ⟨hname, rfl⟩
    refine ⟨(handler.catchType, some name) :: es, ?_, (singleton htouches).append hlisted⟩
    rw [List.map_cons, List.filter_cons_of_pos (by simpa using hzero), List.mapM_cons, hname, hes]
    rfl

end Listed

/-- The classes that a body of code touches are those of its distinct operands. -/
theorem CodeSpec.ReadAs.touched {pool : Pool} {c : CodeSpec} {body : Code} (h : c.ReadAs pool body)
    (hpool : pool.Distinct) : ∃ m, Extract.touched pool body = .ok m ∧
      (m.values.filterMap id).Perm (c.operands.dedup.map Operand.owner) := by
  obtain ⟨insns, hdecode, hinsns⟩ := h.instructions body.offset
  obtain ⟨es, hes, hlisted⟩ := Listed.instructions hinsns
  obtain ⟨es', hes', hlisted'⟩ := Listed.handlers hpool h.handlers
  refine ⟨_, ?_, (hlisted.append hlisted').perm_owners hpool⟩
  have hscan : scanCode body.bytes body.offset =
      .ok (insns.filterMap Instruction.reference?) := by
    rw [scanCode, hdecode]
    rfl
  exact (bind_eq_of_ok hscan _).trans ((bind_eq_of_ok hes _).trans (bind_eq_of_ok hes' _))

end ClassAtlas
