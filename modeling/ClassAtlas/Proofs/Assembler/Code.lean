import ClassAtlas.ClassFile.Decode
import ClassAtlas.Proofs.Assembler.Annotations
import ClassAtlas.Proofs.Bytecode.Encoding

/-!
# Bodies of code are read back

Each instruction that the assembler writes is read as one instruction with the same operand, however
it is loaded. The instructions of a body stand one after the other, so a scan of the body finds them
all.

## Main definitions

* `InsnSpec.WrittenAs` and `CodeSpec.DecodedAs` relate descriptions to the bytes that are written.
* `InsnSpec.ReadAs` and `CodeSpec.ReadAs` relate descriptions to the instructions that are read.
* `AttributeReads` says what the body of an attribute is read as.
-/

namespace ClassAtlas

open Decoder

/-! ## Attributes -/

variable {β γ : Type}

/-- What an attribute, given by its name and its body, is read as. -/
def AttributeReads (content? : String → Option (Decoder β)) (other : String → UInt32 → β)
    (a : String × List UInt8) (P : β → Prop) : Prop :=
  match content? a.1 with
  | none => P (other a.1 (UInt32.ofNat a.2.length))
  | some content => content.Reads a.2 P

theorem reads_attributeWith {pool : Pool} {content? : String → Option (Decoder β)}
    {other : String → UInt32 → β} {i : UInt16} {a : String × List UInt8} {P : β → Prop}
    (hname : pool.utf8 i = .ok a.1) (hlen : a.2.length < 2 ^ 32)
    (h : AttributeReads content? other a P) :
    (attributeWith pool content? other).Reads
      (Binary.word16 i ++ Binary.toBigEndian 4 a.2.length ++ a.2) P := by
  rw [List.append_assoc]
  refine (reads_uint16 i).bind fun j hj => ?_
  rw [hj]
  refine (reads_ofExcept hname).bind_nil fun name hname => ?_
  refine (reads_uint32_ofNat a.2.length).bind fun length hlength => ?_
  have hnat : length.toNat = a.2.length := by
    rw [hlength, UInt32.toNat_ofNat']
    omega
  rw [hnat, hname, hlength]
  refine (reads_part a.2).bind_end fun part hpart => ?_
  obtain ⟨base, rfl⟩ := hpart
  rw [AttributeReads] at h
  cases hcontent : content? a.1 with
  | none =>
    rw [hcontent] at h
    exact reads_pure h
  | some content =>
    rw [hcontent] at h
    refine (reads_within h base).bind_nil fun p hp => ?_
    obtain ⟨value, left⟩ := p
    dsimp only at hp ⊢
    rw [hp.2]
    exact reads_pure hp.1

/-- The bytes are the written form of attributes: for each the index of its name, the length of its
body and the body. -/
def WrittenAttributes (pool : Pool) (attrs : List (String × List UInt8)) (bytes : List UInt8) :
    Prop :=
  ∃ chunks, bytes = Assemble.length16 attrs ++ chunks.flatten ∧
    List.Forall₂ (fun (a : String × List UInt8) chunk => ∃ i, pool.utf8 i = .ok a.1 ∧
      chunk = Binary.word16 i ++ Binary.toBigEndian 4 a.2.length ++ a.2) attrs chunks

theorem Assemble.emits_attributes (attrs : List (String × List UInt8)) :
    (attributes attrs).Emits fun pool bytes => WrittenAttributes pool attrs bytes := by
  refine emits_chunks fun a _ => ?_
  refine (emits_textIndex a.1).bind_pure fun pool bytes hbytes => ?_
  obtain ⟨i, rfl, hi⟩ := hbytes
  exact ⟨i, hi, rfl⟩

namespace WrittenAttributes

variable {pool : Pool} {attrs : List (String × List UInt8)} {bytes : List UInt8}

/-- Written attributes are read in order. -/
theorem reads (h : WrittenAttributes pool attrs bytes)
    {content? : String → Option (Decoder β)} {other : String → UInt32 → β} {T : γ → β → Prop}
    {specs : List γ} (hlen : attrs.length ≤ 65535) (hshort : ∀ a ∈ attrs, a.2.length < 2 ^ 32)
    (hspecs : List.Forall₂ (fun s a => AttributeReads content? other a (T s)) specs attrs) :
    (Decoder.counted (attributeWith pool content? other)).Reads bytes (List.Forall₂ T specs) := by
  obtain ⟨chunks, rfl, hchunks⟩ := h
  refine reads_counted hlen ?_
  rw [← hspecs.length_eq]
  refine reads_replicate ?_
  clear hlen
  induction hspecs generalizing chunks with
  | nil =>
    cases hchunks
    exact .nil
  | cons hfirst _ ih =>
    obtain ⟨_, _⟩ | ⟨⟨i, hi, rfl⟩, hrest⟩ := hchunks
    refine .cons (reads_attributeWith hi (hshort _ List.mem_cons_self) hfirst) ?_
    exact ih (fun a ha => hshort a (List.mem_cons_of_mem _ ha)) _ hrest

/-- The bodies are part of the written form. -/
theorem length_le (h : WrittenAttributes pool attrs bytes) {a : String × List UInt8}
    (ha : a ∈ attrs) : a.2.length ≤ bytes.length := by
  obtain ⟨chunks, rfl, hchunks⟩ := h
  have hle : ∀ a ∈ attrs, a.2.length ≤ chunks.flatten.length := by
    clear ha
    induction hchunks with
    | nil => simp
    | cons hfirst _ ih =>
      obtain ⟨i, _, rfl⟩ := hfirst
      intro a ha
      rw [List.flatten_cons, List.length_append, List.length_append]
      rcases List.mem_cons.1 ha with rfl | ha
      · omega
      · have := ih a ha
        omega
  have := hle a ha
  rw [List.length_append]
  omega

end WrittenAttributes

/-! ## Instructions -/

/-- What an instruction with a member operand refers to. -/
def MemberOp.kind : MemberOp → MemberKind
  | getStatic | putStatic | getField | putField => .field
  | invokeVirtual | invokeSpecial | invokeStatic => .method
  | invokeInterface => .interfaceMethod

/-- The instruction is written as these bytes, and their pool index leads to its operand. -/
def InsnSpec.WrittenAs (pool : Pool) (bytes : List UInt8) : InsnSpec → Prop
  | .raw verbatim => bytes = verbatim
  | .onClass op name =>
    ∃ i, bytes = Assemble.indexed op.opcode i ∧ pool.className i = .ok name
  | .multiNewArray name dims =>
    ∃ i, bytes = Assemble.indexed 0xc5 i ++ [dims] ∧ pool.className i = .ok name
  | .onMember op owner name descriptor =>
    ∃ i, bytes = Assemble.indexed op.opcode i ++ Assemble.memberExtra op ∧
      pool.memberRef i = .ok ⟨op.kind, owner, name, descriptor⟩
  | .loadClass name => ∃ i, bytes = Assemble.load i ∧ pool.className i = .ok name
  | .loadString text =>
    ∃ i k, bytes = Assemble.load i ∧ pool.get i = .ok (.string k) ∧ pool.utf8 k = .ok text
  | .loadLong value => ∃ i, bytes = Assemble.indexed 0x14 i ∧ pool.get i = .ok (.long value)
  | .returnVoid => bytes = [0xb1]

/-- The instruction is read as one with the same operand. -/
def InsnSpec.ReadAs (pool : Pool) : InsnSpec → Instruction → Prop
  | .onClass op name, .reference opcode index _ =>
    opcode = op.opcode ∧ pool.className index = .ok name
  | .multiNewArray name _, .reference opcode index _ =>
    opcode = 0xc5 ∧ pool.className index = .ok name
  | .onMember op owner name descriptor, .reference opcode index _ =>
    opcode = op.opcode ∧ pool.memberRef index = .ok ⟨op.kind, owner, name, descriptor⟩
  | .loadClass name, .reference opcode index _ =>
    (opcode = 0x12 ∨ opcode = 0x13) ∧ pool.className index = .ok name
  | .loadString _, .reference opcode index _ =>
    (opcode = 0x12 ∨ opcode = 0x13) ∧ ∃ i, pool.get index = .ok (.string i)
  | .loadLong value, .reference opcode index _ =>
    opcode = 0x14 ∧ pool.get index = .ok (.long value)
  | .returnVoid, .plain opcode _ => opcode = 0xb1
  | _, _ => False

def InsnSpec.isRaw : InsnSpec → Bool
  | .raw _ => true
  | _ => false

namespace Instruction

theorem reads_plain (opcode : UInt8) (operands : List UInt8)
    (h : OpcodeForm.of? opcode = some (.plain operands.length)) :
    decode.Reads (opcode :: operands) (· = .plain opcode operands) :=
  reads_of_afterOpcode fun _ => reads_afterOpcode_plain h

theorem reads_reference (opcode : UInt8) {index : UInt16} {width : Nat} (extra : List UInt8)
    (h : OpcodeForm.of? opcode = some (.reference width extra.length))
    (hindex : index.toNat < 256 ^ width) :
    decode.Reads (opcode :: (Binary.toBigEndian width index.toNat ++ extra))
      (· = .reference opcode index extra) :=
  reads_of_afterOpcode fun _ => reads_afterOpcode_reference h hindex

/-- An index of two bytes. -/
theorem reads_indexed (opcode : UInt8) (index : UInt16) (extra : List UInt8)
    (h : OpcodeForm.of? opcode = some (.reference 2 extra.length)) :
    decode.Reads (Assemble.indexed opcode index ++ extra) (· = .reference opcode index extra) :=
  reads_reference opcode extra h index.toNat_lt

theorem reads_indexed_end (opcode : UInt8) (index : UInt16)
    (h : OpcodeForm.of? opcode = some (.reference 2 0)) :
    decode.Reads (Assemble.indexed opcode index) (· = .reference opcode index []) := by
  have hread := reads_indexed opcode index [] h
  rwa [List.append_nil] at hread

/-- A constant is loaded with an index of one or two bytes. -/
theorem reads_load (index : UInt16) :
    decode.Reads (Assemble.load index) fun i => ∃ opcode, (opcode = 0x12 ∨ opcode = 0x13) ∧
      i = .reference opcode index [] := by
  unfold Assemble.load
  split
  · next hle =>
    have hbyte : [index.toUInt8] = Binary.toBigEndian 1 index.toNat ++ [] := by
      simp [Binary.toBigEndian]
    rw [hbyte]
    exact (reads_reference 0x12 [] rfl (by omega)).imp fun i hi => ⟨0x12, .inl rfl, hi⟩
  · exact (reads_indexed_end 0x13 index rfl).imp fun i hi => ⟨0x13, .inr rfl, hi⟩

theorem load_ne_nil (index : UInt16) : Assemble.load index ≠ [] := by
  unfold Assemble.load Assemble.indexed
  split <;> simp

/-- Instructions that stand one after the other up to the end of the code are all read. -/
theorem decodeUpTo_eq {R : γ → Instruction → Prop} {specs : List γ} {chunks : List (List UInt8)}
    (h : List.Forall₂ (fun s bytes => bytes ≠ [] ∧ decode.Reads bytes (R s)) specs chunks)
    {n : Nat} (hn : specs.length ≤ n) (base consumed : Nat) :
    ∃ l r, decodeUpTo n ⟨base, consumed, chunks.flatten⟩ = .ok (l, r) ∧
      List.Forall₂ (fun s p => R s p.2) specs l := by
  induction h generalizing n consumed with
  | nil =>
    cases n with
    | zero => exact ⟨[], _, rfl, .nil⟩
    | succ n => exact ⟨[], _, rfl, .nil⟩
  | @cons s bytes specs chunks hfirst _ ih =>
    cases n with
    | zero => simp at hn
    | succ n =>
      obtain ⟨hne, hread⟩ := hfirst
      obtain ⟨i, hi, hR⟩ := hread base consumed chunks.flatten
      obtain ⟨l, r, hl, hrest⟩ := ih (by simpa using hn : specs.length ≤ n)
        (consumed + bytes.length)
      refine ⟨(consumed, i) :: l, r, ?_, .cons hR hrest⟩
      have hstart : (⟨base, consumed, bytes ++ chunks.flatten⟩ : Reader).isEmpty = false := by
        simp [Reader.isEmpty, hne]
      rw [List.flatten_cons, decodeUpTo]
      show (if Reader.isEmpty ⟨base, consumed, bytes ++ chunks.flatten⟩ = true then pure [] else do
          let first ← decode
          let others ← decodeUpTo n
          return (consumed, first) :: others : Decoder (List (Nat × Instruction)))
        ⟨base, consumed, bytes ++ chunks.flatten⟩ = _
      rw [if_neg (by simp [hstart])]
      show (decode _ >>= fun p => decodeUpTo n p.2 >>= fun q => _) = _
      rw [hi]
      show (decodeUpTo n _ >>= fun q => _) = _
      rw [hl]
      rfl

end Instruction

theorem Pool.memberRef_eq {pool : Pool} (op : MemberOp) {index o nt i n d : UInt16}
    {owner name descriptor : String}
    (hindex : pool.get index = .ok (Assemble.memberEntry op o nt))
    (ho : pool.get o = .ok (.classEntry i)) (hi : pool.get i = .ok (.utf8 owner))
    (hnt : pool.get nt = .ok (.nameAndType n d)) (hn : pool.get n = .ok (.utf8 name))
    (hd : pool.get d = .ok (.utf8 descriptor)) :
    pool.memberRef index = .ok ⟨op.kind, owner, name, descriptor⟩ := by
  have hclass := Pool.className_eq ho hi
  have hname : pool.nameAndType nt = .ok (name, descriptor) := by
    rw [Pool.nameAndType, hnt]
    simp only [bind, Except.bind, Pool.utf8_eq hn, Pool.utf8_eq hd]
    rfl
  have hresolve (kind : MemberKind) :
      pool.resolveMember kind o nt = .ok ⟨kind, owner, name, descriptor⟩ := by
    rw [Pool.resolveMember, hclass]
    simp only [bind, Except.bind, hname]
    rfl
  rw [Pool.memberRef, hindex]
  cases op <;> exact hresolve _

namespace Assemble

theorem emits_instruction (s : InsnSpec) :
    (instruction s).Emits fun pool bytes => s.WrittenAs pool bytes := by
  cases s with
  | raw bytes => exact emits_pure fun pool => rfl
  | onClass op name =>
    refine (emits_classEntry name).bind_pure fun pool index hindex => ?_
    obtain ⟨i, hindex, hi⟩ := hindex
    exact ⟨index, rfl, Pool.className_eq hindex hi⟩
  | multiNewArray name dims =>
    refine (emits_classEntry name).bind_pure fun pool index hindex => ?_
    obtain ⟨i, hindex, hi⟩ := hindex
    exact ⟨index, rfl, Pool.className_eq hindex hi⟩
  | onMember op owner name descriptor =>
    refine (emits_member (memberEntry op) owner name descriptor).bind_pure
      fun pool index hindex => ?_
    obtain ⟨o, n, d, nt, i, hindex, ho, hi, hnt, hn, hd⟩ := hindex
    exact ⟨index, rfl, Pool.memberRef_eq op hindex ho hi hnt hn hd⟩
  | loadClass name =>
    refine (emits_classEntry name).bind_pure fun pool index hindex => ?_
    obtain ⟨i, hindex, hi⟩ := hindex
    exact ⟨index, rfl, Pool.className_eq hindex hi⟩
  | loadString text =>
    refine (emits_string text).bind_pure fun pool index hindex => ?_
    obtain ⟨i, hindex, hi⟩ := hindex
    exact ⟨index, i, rfl, hindex, Pool.utf8_eq hi⟩
  | loadLong value => exact (emits_intern _).bind_pure fun pool index hindex => ⟨index, rfl, hindex⟩
  | returnVoid => exact emits_pure fun pool => rfl

end Assemble

/-- What an instruction is written as is read as one instruction, unless it was written as it is. -/
theorem InsnSpec.WrittenAs.reads {pool : Pool} {bytes : List UInt8} {s : InsnSpec}
    (h : s.WrittenAs pool bytes) (hraw : s.isRaw = false) :
    bytes ≠ [] ∧ Instruction.decode.Reads bytes (s.ReadAs pool) := by
  cases s with
  | raw verbatim => cases hraw
  | onClass op name =>
    obtain ⟨index, rfl, hindex⟩ := h
    have hform : OpcodeForm.of? op.opcode = some (.reference 2 0) := by cases op <;> rfl
    refine ⟨by simp [Assemble.indexed], ?_⟩
    refine (Instruction.reads_indexed_end op.opcode index hform).imp fun insn hinsn => ?_
    rw [hinsn]
    exact ⟨rfl, hindex⟩
  | multiNewArray name dims =>
    obtain ⟨index, rfl, hindex⟩ := h
    refine ⟨by simp [Assemble.indexed], ?_⟩
    refine (Instruction.reads_indexed 0xc5 index [dims] rfl).imp fun insn hinsn => ?_
    rw [hinsn]
    exact ⟨rfl, hindex⟩
  | onMember op owner name descriptor =>
    obtain ⟨index, rfl, hindex⟩ := h
    have hform : OpcodeForm.of? op.opcode =
        some (.reference 2 (Assemble.memberExtra op).length) := by cases op <;> rfl
    refine ⟨by simp [Assemble.indexed], ?_⟩
    refine (Instruction.reads_indexed op.opcode index _ hform).imp fun insn hinsn => ?_
    rw [hinsn]
    exact ⟨rfl, hindex⟩
  | loadClass name =>
    obtain ⟨index, rfl, hindex⟩ := h
    refine ⟨Instruction.load_ne_nil index, (Instruction.reads_load index).imp fun insn hinsn => ?_⟩
    obtain ⟨opcode, hop, rfl⟩ := hinsn
    exact ⟨hop, hindex⟩
  | loadString text =>
    obtain ⟨index, k, rfl, hindex, -⟩ := h
    refine ⟨Instruction.load_ne_nil index, (Instruction.reads_load index).imp fun insn hinsn => ?_⟩
    obtain ⟨opcode, hop, rfl⟩ := hinsn
    exact ⟨hop, k, hindex⟩
  | loadLong value =>
    obtain ⟨index, rfl, hindex⟩ := h
    refine ⟨by simp [Assemble.indexed], ?_⟩
    refine (Instruction.reads_indexed_end 0x14 index rfl).imp fun insn hinsn => ?_
    rw [hinsn]
    exact ⟨rfl, hindex⟩
  | returnVoid =>
    obtain rfl := h
    refine ⟨by simp, (Instruction.reads_plain 0xb1 [] rfl).imp fun insn hinsn => ?_⟩
    rw [hinsn]
    rfl

/-! ## Bodies of code -/

/-- The body has a written form; its size apart. -/
def CodeSpec.fits (c : CodeSpec) : Bool :=
  c.instructions.all (!·.isRaw) && c.catchTypes.length ≤ 65535 &&
    AnnotationSpec.allFit c.typeAnnotations

/-- The body is read as one with the same instructions, handlers and annotations. -/
structure CodeSpec.ReadAs (pool : Pool) (c : CodeSpec) (body : Code) : Prop where
  instructions : ∀ base, ∃ l, Instruction.decodeAll body.bytes base = .ok l ∧
    List.Forall₂ (fun s p => s.ReadAs pool p.2) c.instructions l
  handlers : List.Forall₂ (fun name h => pool.className h.catchType = .ok name) c.catchTypes
    body.handlers
  details : List.Forall₂ (fun l detail => ∃ infos, detail = .typeAnnotations true infos ∧
    List.Forall₂ (fun a t => a.ReadAs pool t.info) l infos)
    ([c.typeAnnotations].filter (!·.isEmpty)) body.details

/-- The body can be written, whatever stands in its instructions; its size apart. -/
def CodeSpec.encodable (c : CodeSpec) : Bool :=
  c.catchTypes.length ≤ 65535 && AnnotationSpec.allFit c.typeAnnotations

theorem CodeSpec.fits_iff {c : CodeSpec} :
    c.fits = true ↔ c.encodable = true ∧ ∀ s ∈ c.instructions, s.isRaw = false := by
  simp only [fits, encodable, Bool.and_eq_true, List.all_eq_true, Bool.not_eq_true',
    decide_eq_true_eq]
  constructor
  · rintro ⟨⟨hraw, hcatch⟩, htypes⟩
    exact ⟨⟨hcatch, htypes⟩, hraw⟩
  · rintro ⟨⟨hcatch, htypes⟩, hraw⟩
    exact ⟨⟨hraw, hcatch⟩, htypes⟩

/-- The body is decoded as it was written: its bytes are those of its instructions, every handler
covers all of them, and every annotation is that of a type argument. -/
structure CodeSpec.DecodedAs (pool : Pool) (c : CodeSpec) (body : Code) : Prop where
  maxStack : body.maxStack = 4
  maxLocals : body.maxLocals = 4
  bytes : ∃ chunks, body.bytes = chunks.flatten ∧
    List.Forall₂ (fun s chunk => s.WrittenAs pool chunk) c.instructions chunks
  handlers : List.Forall₂ (fun name h => h.startPc = 0 ∧
    h.endPc = UInt16.ofNat body.bytes.length ∧ h.handlerPc = 0 ∧
    pool.className h.catchType = .ok name) c.catchTypes body.handlers
  details : List.Forall₂ (fun l detail => ∃ infos, detail = .typeAnnotations true infos ∧
    List.Forall₂ (AnnotationSpec.DecodedAs pool 0x47 (.typeArgument 0 0)) l infos)
    ([c.typeAnnotations].filter (!·.isEmpty)) body.details

/-- An instruction has at least one byte. -/
theorem length_le_length_flatten {P : γ → List UInt8 → Prop} {specs : List γ}
    {chunks : List (List UInt8)}
    (h : List.Forall₂ (fun s bytes => bytes ≠ [] ∧ P s bytes) specs chunks) :
    specs.length ≤ chunks.flatten.length := by
  induction h with
  | nil => simp
  | cons hfirst _ ih =>
    have hpos := List.length_pos_iff.2 hfirst.1
    simp only [List.length_cons, List.flatten_cons, List.length_append]
    omega

/-- A body without raw bytes is read instruction by instruction. -/
theorem CodeSpec.DecodedAs.readAs {pool : Pool} {c : CodeSpec} {body : Code}
    (h : c.DecodedAs pool body) (hraw : ∀ s ∈ c.instructions, s.isRaw = false) :
    c.ReadAs pool body where
  instructions base := by
    obtain ⟨chunks, hbytes, hchunks⟩ := h.bytes
    have hreads := ((List.forall₂_and_left _ _).2 ⟨hraw, hchunks⟩).imp
      fun s chunk hs => hs.2.reads hs.1
    obtain ⟨l, r, hl, hspecs⟩ :=
      Instruction.decodeUpTo_eq hreads (length_le_length_flatten hreads) base 0
    rw [hbytes]
    exact ⟨l, run'_ofBytes hl, hspecs⟩
  handlers := h.handlers.imp fun name handler hhandler => hhandler.2.2.2
  details := h.details.imp fun l detail hdetail => by
    obtain ⟨infos, rfl, hinfos⟩ := hdetail
    exact ⟨infos, rfl, hinfos.imp fun a t ht => ht.info⟩

namespace Assemble

theorem emits_bytecode (specs : List InsnSpec) :
    (concat instruction specs).Emits fun pool bytes => ∃ chunks, bytes = chunks.flatten ∧
      List.Forall₂ (fun s chunk => s.WrittenAs pool chunk) specs chunks :=
  emits_concat fun s _ => emits_instruction s

/-- One handler of the whole body. -/
theorem emits_handler (bytecode : List UInt8) (name : String) :
    (do return Binary.word16 0 ++ length16 bytecode ++ Binary.word16 0 ++ (← classIndex name) :
      Assemble (List UInt8)).Emits fun pool bytes => Handler.decode.Reads bytes fun h =>
        h.startPc = 0 ∧ h.endPc = UInt16.ofNat bytecode.length ∧ h.handlerPc = 0 ∧
          pool.className h.catchType = .ok name := by
  refine (emits_classIndex name).bind_pure fun pool bytes hbytes => ?_
  obtain ⟨i, rfl, hi⟩ := hbytes
  rw [List.append_assoc, List.append_assoc]
  refine (reads_uint16 0).bind fun _ hstart => ?_
  refine (reads_uint16_ofNat bytecode.length).bind fun _ hend => ?_
  refine (reads_uint16 0).bind fun _ hhandler => (reads_uint16 i).bind_pure fun j hj => ?_
  exact ⟨hstart, hend, hhandler, by rw [hj, hi]⟩

/-- An attribute that is written unless its list is empty. -/
theorem emits_unlessEmpty {α : Type} {name : String} {l : List α}
    {body : List α → Assemble (List UInt8)} {S : Pool → List α → String × List UInt8 → Prop}
    (h : l ≠ [] → (body l).Emits fun pool bytes => S pool l (name, bytes)) :
    (unlessEmpty name l body).Emits fun pool attrs =>
      List.Forall₂ (S pool) ([l].filter (!·.isEmpty)) attrs := by
  unfold unlessEmpty
  split
  · next hempty => exact emits_pure fun pool => by simp [hempty]
  · next hempty =>
    have hspecs : [l].filter (!·.isEmpty) = [l] := by simp [hempty]
    rw [hspecs]
    have hne : l ≠ [] := by simpa using hempty
    exact (h hne).bind_pure fun pool bytes hbytes => .cons hbytes .nil

theorem emits_marks {l : List AnnotationSpec} (hfits : AnnotationSpec.allFit l = true) :
    (unlessEmpty "RuntimeVisibleTypeAnnotations" l (typeAnnotations [0x47, 0, 0, 0, 0])).Emits
      fun pool marks => List.Forall₂ (fun l a =>
        AttributeReads CodeDetail.content? .other a fun detail =>
          ∃ infos, detail = .typeAnnotations true infos ∧
            List.Forall₂ (AnnotationSpec.DecodedAs pool 0x47 (.typeArgument 0 0)) l infos)
        ([l].filter (!·.isEmpty)) marks := by
  refine emits_unlessEmpty fun _ => ?_
  refine (emits_typeAnnotations targetReads_typeArgument hfits).imp fun pool body hbody => ?_
  exact hbody.map fun infos hinfos => ⟨infos, rfl, hinfos⟩

theorem emits_code {c : CodeSpec} (hfits : c.encodable = true) :
    (code c).Emits fun pool bytes => bytes.length < 2 ^ 32 →
      (Code.decode pool).Reads bytes (c.DecodedAs pool) := by
  simp only [CodeSpec.encodable, Bool.and_eq_true, decide_eq_true_eq] at hfits
  obtain ⟨hcatch, htypes⟩ := hfits
  refine (emits_bytecode c.instructions).bind fun bytecode => ?_
  refine (emits_counted hcatch fun name _ => emits_handler bytecode name).bind fun handlers => ?_
  refine (emits_marks htypes).bind fun marks => ?_
  refine (emits_attributes marks).bind_pure
    fun pool attrs hattrs hmarks hhandlers hbytecode hlen => ?_
  simp only [List.length_append] at hlen
  have hshort : ∀ a ∈ marks, a.2.length < 2 ^ 32 := fun a ha => by
    have := hattrs.length_le ha
    omega
  have hcount : marks.length ≤ 65535 := by
    have hle := List.length_filter_le (fun l : List AnnotationSpec => !l.isEmpty)
      [c.typeAnnotations]
    rw [← hmarks.length_eq]
    exact Nat.le_trans hle (by simp)
  simp only [List.append_assoc]
  refine (reads_uint16 4).bind fun maxStack hstack => ?_
  refine (reads_uint16 4).bind fun maxLocals hlocals => ?_
  refine (reads_uint32_ofNat bytecode.length).bind fun length hlength => ?_
  have hnat : length.toNat = bytecode.length := by
    rw [hlength, UInt32.toNat_ofNat']
    omega
  refine reads_position.bind_nil fun offset _ => ?_
  rw [hnat]
  refine (reads_take bytecode).bind fun taken htaken => ?_
  subst htaken
  refine hhandlers.bind fun hs hhs => ?_
  refine (hattrs.reads hcount hshort hmarks).bind_pure fun details hdetails => ?_
  exact ⟨hstack, hlocals, hbytecode, hhs, hdetails⟩

end Assemble

end ClassAtlas
