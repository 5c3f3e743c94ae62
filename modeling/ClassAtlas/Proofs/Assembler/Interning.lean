import Mathlib.Data.List.Forall2
import ClassAtlas.Assembler.PoolWriter
import ClassAtlas.Proofs.Pool.RoundTrip
import ClassAtlas.Proofs.Text.Utf8

/-!
# Interned entries

A computation that collects pool entries only adds new ones. `Assemble.Emits x Q` says what holds of
the result of such a computation under every pool that has the entries collected by the end of it;
it goes along with the monad, so that each part of an assembler is described by itself.

The pool of a writer has all its entries, each at one index only.

## Main definitions

* `PoolWriter.Grows` relates a writer to a later one.
* `Assemble.Emits` describes the result of a computation.
* `PoolWriter.pool` is the pool that a writer writes.
-/

namespace ClassAtlas

namespace PoolWriter

/-- The second writer has the entries of the first one, and new ones that differ from all others. -/
inductive Grows (w : PoolWriter) : PoolWriter → Prop where
  | refl : Grows w w
  | push {w' : PoolWriter} (e : PoolEntry) (h : Grows w w') (hnew : w'.find? e = none) :
    Grows w (w'.push e)

theorem Grows.trans {w w' w'' : PoolWriter} (h : w.Grows w') (h' : w'.Grows w'') : w.Grows w'' := by
  induction h' with
  | refl => exact h
  | push e _ hnew ih => exact .push e ih hnew

theorem Grows.subset {w w' : PoolWriter} (h : w.Grows w') : w.entries ⊆ w'.entries := by
  induction h with
  | refl => exact List.Subset.refl _
  | push e _ _ ih => exact List.Subset.trans ih (List.subset_cons_self _ _)

/-- The pool has all the entries of the writer. -/
def CoveredBy (w : PoolWriter) (pool : Pool) : Prop :=
  ∀ e index, (e, index) ∈ w.entries → pool.get index = .ok e

theorem CoveredBy.of_grows {w w' : PoolWriter} {pool : Pool} (h : w'.CoveredBy pool)
    (hw : w.Grows w') : w.CoveredBy pool := fun e index he => h e index (hw.subset he)

end PoolWriter

namespace Assemble

variable {α β : Type}

/-- What the computation gives has the property under every pool with the entries collected. -/
def Emits (x : Assemble α) (Q : Pool → α → Prop) : Prop :=
  ∀ w : PoolWriter, w.Grows (x.run w).2 ∧
    ∀ pool, (x.run w).2.CoveredBy pool → Q pool (x.run w).1

theorem emits_pure {a : α} {Q : Pool → α → Prop} (h : ∀ pool, Q pool a) :
    (pure a : Assemble α).Emits Q := fun _ => ⟨.refl, fun pool _ => h pool⟩

theorem Emits.bind {x : Assemble α} {f : α → Assemble β} {P : Pool → α → Prop}
    {Q : Pool → β → Prop} (hx : x.Emits P)
    (hf : ∀ a, (f a).Emits fun pool b => P pool a → Q pool b) : (x >>= f).Emits Q := by
  intro w
  obtain ⟨hgrows, hP⟩ := hx w
  obtain ⟨hgrows', hQ⟩ := hf (x.run w).1 (x.run w).2
  refine ⟨hgrows.trans hgrows', fun pool hpool => hQ pool hpool (hP pool ?_)⟩
  exact hpool.of_grows hgrows'

theorem Emits.imp {x : Assemble α} {P Q : Pool → α → Prop} (hx : x.Emits P)
    (h : ∀ pool a, P pool a → Q pool a) : x.Emits Q :=
  fun w => ⟨(hx w).1, fun pool hpool => h pool _ ((hx w).2 pool hpool)⟩

theorem Emits.bind_pure {x : Assemble α} {f : α → β} {P : Pool → α → Prop} {Q : Pool → β → Prop}
    (hx : x.Emits P) (hf : ∀ pool a, P pool a → Q pool (f a)) :
    (x >>= fun a => pure (f a)).Emits Q :=
  hx.bind fun a => emits_pure fun pool ha => hf pool a ha

theorem Emits.mapM {part : α → Assemble β} {Q : Pool → α → β → Prop} {parts : List α}
    (h : ∀ a ∈ parts, (part a).Emits fun pool b => Q pool a b) :
    (parts.mapM part).Emits fun pool bs => List.Forall₂ (Q pool) parts bs := by
  induction parts with
  | nil => exact emits_pure fun _ => .nil
  | cons a parts ih =>
    rw [List.mapM_cons]
    refine (h a List.mem_cons_self).bind fun b => ?_
    refine (ih fun a' ha' => h a' (List.mem_cons_of_mem a ha')).bind fun bs => ?_
    exact emits_pure fun pool hbs hb => .cons hb hbs

/-! ## Entries -/

theorem emits_intern (e : PoolEntry) :
    (intern e).Emits fun pool index => pool.get index = .ok e := by
  intro w
  cases hfind : w.find? e with
  | some index =>
    have hrun : (intern e).run w = (index, w) := by simp [intern, StateT.run, hfind]
    rw [hrun]
    refine ⟨.refl, fun pool hpool => hpool e index ?_⟩
    obtain ⟨⟨e', index'⟩, hentry, rfl⟩ := Option.map_eq_some_iff.1 hfind
    obtain rfl : e' = e := by simpa using List.find?_some hentry
    exact List.mem_of_find?_eq_some hentry
  | none =>
    have hrun : (intern e).run w = (w.next, w.push e) := by simp [intern, StateT.run, hfind]
    rw [hrun]
    exact ⟨.push e .refl hfind, fun pool hpool => hpool e w.next List.mem_cons_self⟩

theorem emits_utf8 (text : String) :
    (utf8 text).Emits fun pool i => pool.get i = .ok (.utf8 text) :=
  emits_intern _

theorem emits_classEntry (name : String) :
    (classEntry name).Emits fun pool index => ∃ i, pool.get index = .ok (.classEntry i) ∧
      pool.get i = .ok (.utf8 name) := by
  refine (emits_utf8 name).bind fun i => ?_
  exact (emits_intern _).imp fun pool index hindex hi => ⟨i, hindex, hi⟩

theorem emits_string (text : String) :
    (string text).Emits fun pool index => ∃ i, pool.get index = .ok (.string i) ∧
      pool.get i = .ok (.utf8 text) := by
  refine (emits_utf8 text).bind fun i => ?_
  exact (emits_intern _).imp fun pool index hindex hi => ⟨i, hindex, hi⟩

theorem emits_member (ref : UInt16 → UInt16 → PoolEntry) (owner name descriptor : String) :
    (member ref owner name descriptor).Emits fun pool index => ∃ o n d nt i,
      pool.get index = .ok (ref o nt) ∧ pool.get o = .ok (.classEntry i) ∧
      pool.get i = .ok (.utf8 owner) ∧ pool.get nt = .ok (.nameAndType n d) ∧
      pool.get n = .ok (.utf8 name) ∧ pool.get d = .ok (.utf8 descriptor) := by
  refine (emits_classEntry owner).bind fun o => ?_
  refine (emits_utf8 name).bind fun n => ?_
  refine (emits_utf8 descriptor).bind fun d => ?_
  refine (emits_intern (.nameAndType n d)).bind fun nt => ?_
  refine (emits_intern (ref o nt)).imp fun pool index hindex hnt hd hn ho => ?_
  obtain ⟨i, ho, hi⟩ := ho
  exact ⟨o, n, d, nt, i, hindex, ho, hi, hnt, hn, hd⟩

end Assemble

namespace PoolWriter

/-- The entries in the order of their indices. -/
def ordered (w : PoolWriter) : List PoolEntry := w.entries.reverse.map (·.1)

/-- The pool that the writer writes. -/
def pool (w : PoolWriter) : Pool := .ofEntries w.ordered

/-- How many slots the pool has, with the unusable first one. -/
def slotCount (w : PoolWriter) : Nat := 1 + (Pool.layout w.ordered).length

/-- The invariant of a writer: its entries are different, and each has the index after the slots of
those before it. -/
structure Laid (w : PoolWriter) : Prop where
  nodup : w.ordered.Nodup
  next_eq : w.next = UInt16.ofNat w.slotCount
  index_eq : ∀ before e index after, w.entries.reverse = before ++ (e, index) :: after →
    index = UInt16.ofNat (1 + (Pool.layout (before.map (·.1))).length)

theorem laid_empty : empty.Laid where
  nodup := .nil
  next_eq := rfl
  index_eq before e index after h := by simp [empty] at h

theorem slotCount_push (w : PoolWriter) (e : PoolEntry) :
    (w.push e).slotCount = w.slotCount + if e.isWide then 2 else 1 := by
  have hordered : (w.push e).ordered = w.ordered ++ [e] := by simp [ordered, push]
  rw [slotCount, slotCount, hordered, Pool.layout_append, List.length_append]
  cases hwide : e.isWide <;> simp [Pool.layout, hwide] <;> omega

theorem Laid.push {w : PoolWriter} (h : w.Laid) {e : PoolEntry} (hnew : w.find? e = none) :
    (w.push e).Laid where
  nodup := by
    have hordered : (w.push e).ordered = w.ordered ++ [e] := by simp [ordered, PoolWriter.push]
    rw [hordered, List.nodup_append]
    refine ⟨h.nodup, by simp, ?_⟩
    rintro a ha b hb rfl
    obtain rfl : a = e := by simpa using hb
    simp only [ordered, List.map_reverse, List.mem_reverse, List.mem_map] at ha
    obtain ⟨⟨a', index⟩, hmem, rfl⟩ := ha
    simp only [find?, Option.map_eq_none_iff, List.find?_eq_none] at hnew
    exact hnew _ hmem (by simp)
  next_eq := by
    have hnext : (w.push e).next = w.next + if e.isWide then 2 else 1 := rfl
    rw [hnext, h.next_eq, slotCount_push, UInt16.ofNat_add]
    split <;> rfl
  index_eq before e' index after heq := by
    have hrev : (w.push e).entries.reverse = w.entries.reverse ++ [(e, w.next)] := by
      simp [PoolWriter.push]
    rw [hrev] at heq
    rcases List.eq_nil_or_concat after with rfl | ⟨after, last, rfl⟩
    · -- The last entry has the next free index.
      obtain ⟨hbefore, hlast⟩ := List.append_inj' heq rfl
      obtain ⟨rfl, rfl⟩ : e = e' ∧ w.next = index := by simpa using hlast
      rw [h.next_eq, ← hbefore, slotCount, ordered]
    · rw [List.concat_eq_append, ← List.cons_append, ← List.append_assoc] at heq
      exact h.index_eq before e' index after (List.append_inj' heq rfl).1

theorem Laid.of_grows {w w' : PoolWriter} (h : w.Laid) (hw : w.Grows w') : w'.Laid := by
  induction hw with
  | refl => exact h
  | push e _ hnew ih => exact ih.push hnew

/-- The pool of a writer has all its entries. -/
theorem Laid.coveredBy_pool {w : PoolWriter} (h : w.Laid) (hlen : w.slotCount ≤ 65535) :
    w.CoveredBy w.pool := by
  intro e index he
  obtain ⟨before, after, hsplit⟩ := List.append_of_mem (List.mem_reverse.2 he)
  have hindex := h.index_eq before e index after hsplit
  have hordered : w.ordered = before.map (·.1) ++ e :: after.map (·.1) := by
    simp [ordered, hsplit]
  have hle : 1 + (Pool.layout (before.map (·.1))).length ≤ w.slotCount := by
    rw [slotCount, hordered, Pool.layout_append, List.length_append]
    omega
  rw [pool, hordered]
  refine Pool.get_ofEntries ?_
  rw [hindex, UInt16.toNat_ofNat']
  omega

/-- In the pool of a writer an entry has one index only. -/
theorem Laid.index_unique {w : PoolWriter} (h : w.Laid) {e : PoolEntry} {i j : UInt16}
    (hi : w.pool.get i = .ok e) (hj : w.pool.get j = .ok e) : i = j := by
  obtain ⟨before, after, heq, hi⟩ := Pool.exists_of_get_ofEntries hi
  obtain ⟨before', after', heq', hj⟩ := Pool.exists_of_get_ofEntries hj
  -- The place of an entry that occurs once can be told from the entry.
  have hplace {before after : List PoolEntry} (heq : w.ordered = before ++ e :: after) :
      w.ordered.idxOf e = before.length := by
    have hnodup := h.nodup
    rw [heq] at hnodup ⊢
    have hout : e ∉ before := fun hin =>
      (List.nodup_append.1 hnodup).2.2 e hin e List.mem_cons_self rfl
    rw [List.idxOf_append_of_notMem hout, List.idxOf_cons_self, Nat.add_zero]
  have hsame : before = before' := by
    have hlen : before.length = before'.length := by rw [← hplace heq, ← hplace heq']
    exact (List.append_inj (heq.symm.trans heq') hlen).1
  refine UInt16.toNat_inj.1 ?_
  rw [hi, hj, hsame]

end PoolWriter

end ClassAtlas
