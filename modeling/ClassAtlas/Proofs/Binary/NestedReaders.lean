import ClassAtlas.Binary.Session
import ClassAtlas.Proofs.Binary.Offsets
import ClassAtlas.Proofs.Binary.Skipped

/-!
# Nested readers

A session reads a buffer through readers that stand inside one another. Every reader is for a span
of the buffer: the outermost one for all of it, any other for bytes that the reader around it passed
over when it was opened. What a reader has read and what it has left always add up to its span, so a
read that succeeds gives bytes of the buffer that lie inside the span. A read looks for the bytes it
asks for before it moves on, and so one that asks for more than is left changes nothing.

## Main definitions

* `Read.width` is the number of bytes that a read asks for, `Read.valueOf` what it makes of them.
* `Reading.TakesAs` says that a read moves on by the bytes it asks for, or not at all.
* `Reader.IsFor` says that a reader is for a span of the buffer.
* `Session.Nested` says so of all readers of a session, with the spans inside one another.
* `Session.openSpans` follows the spans of the open readers through a run.

## Main statements

* `Session.step_eq` says what one read does, and `Session.nested_step` what it keeps.
* `Session.reads_faithful` is about whole runs.
-/

namespace ClassAtlas

variable {α β : Type}

/-! ## Single reads -/

namespace Read

/-- The number of bytes that a read asks for. -/
def width : Read → Nat
  | uint8 => 1
  | uint16 => 2
  | uint32 | int32 | float32 => 4
  | int64 | float64 => 8
  | bytes n | skip n | enter n => n
  | leave => 0

/-- What a read makes of the bytes that it asked for. Numbers have their first byte on top, and
signed ones are in two's complement. -/
def valueOf : Read → List UInt8 → ReadValue
  | uint8, used | uint16, used | uint32, used => .unsigned (Binary.bigEndian used)
  | int32, used => .int32 (Int32.ofNat (Binary.bigEndian used))
  | int64, used => .int64 (Int64.ofNat (Binary.bigEndian used))
  | float32, used => .float32 (UInt32.ofNat (Binary.bigEndian used))
  | float64, used => .float64 (UInt64.ofNat (Binary.bigEndian used))
  | bytes _, used => .bytes used
  | skip _, _ | enter _, _ | leave, _ => .nothing

end Read

namespace Reading

variable {x : Reading α} {a : α} {e : DecodeError} {r s : Reader} {n : Nat} {f : List UInt8 → α}

theorem on_bind_of_ok {k : α → Reading β} (h : x.on r = (.ok a, s)) :
    (x >>= k).on r = (k a).on s := by
  rw [on] at h
  rw [on, ExceptT.run_bind, StateT.run_bind, h]
  rfl

/-- After a read that fails there are no more reads. -/
theorem on_bind_of_error {k : α → Reading β} (h : x.on r = (.error e, s)) :
    (x >>= k).on r = (.error e, s) := by
  rw [on] at h
  rw [on, ExceptT.run_bind, StateT.run_bind, h]
  rfl

theorem on_ensure (n : Nat) (r : Reader) : (Bytes.ensure n : Reading Unit).on r =
    if n ≤ r.remaining then (.ok (), r)
    else (.error (.unexpectedEnd r.position n r.remaining), r) := by
  show (if n ≤ r.remaining then pure () else throw _ : Reading Unit).on r = _
  split <;> rfl

/-- The read asks for `n` bytes at once and makes its value of them. If they are not there it leaves
the reader where it was. -/
def TakesAs (x : Reading α) (n : Nat) (f : List UInt8 → α) : Prop :=
  ∀ r : Reader, x.on r =
    if n ≤ r.remaining then (.ok (f (r.rest.take n)), r.skip n)
    else (.error (.unexpectedEnd r.position n r.remaining), r)

theorem takesAs_take (n : Nat) : (Bytes.take n : Reading (List UInt8)).TakesAs n id := by
  intro r
  have hensure := on_ensure n r
  by_cases hn : n ≤ r.remaining
  · rw [if_pos hn] at hensure ⊢
    exact on_bind_of_ok hensure
  · rw [if_neg hn] at hensure ⊢
    exact on_bind_of_error hensure

/-- A decoder reads in the same way, and forgets the reader behind an error. -/
theorem take_apply_eq_on (n : Nat) (r : Reader) : Decoder.take n r =
    match (Bytes.take n : Reading (List UInt8)).on r with
    | (.ok bytes, s) => .ok (bytes, s)
    | (.error e, _) => .error e := by
  rw [Decoder.take_apply, takesAs_take n r]
  split <;> rfl

/-- The value is used further. Only what this makes of `n` bytes matters. -/
theorem TakesAs.map (h : x.TakesAs n f) (g : α → β) {k : List UInt8 → β}
    (hk : ∀ used, used.length = n → g (f used) = k used) :
    (do return g (← x) : Reading β).TakesAs n k := by
  intro r
  have hx := h r
  by_cases hn : n ≤ r.remaining
  · have hlength : (r.rest.take n).length = n := List.length_take_of_le hn
    rw [if_pos hn] at hx ⊢
    rw [← hk _ hlength]
    exact on_bind_of_ok hx
  · rw [if_neg hn] at hx ⊢
    exact on_bind_of_error hx

theorem takesAs_number (width : Nat) :
    (Bytes.number width : Reading Nat).TakesAs width Binary.bigEndian :=
  (takesAs_take width).map _ fun _ _ => rfl

theorem takesAs_uint32 : (Bytes.uint32 : Reading UInt32).TakesAs 4 fun used =>
    UInt32.ofNat (Binary.bigEndian used) :=
  (takesAs_number 4).map _ fun _ _ => rfl

theorem takesAs_uint64 : (Bytes.uint64 : Reading UInt64).TakesAs 8 fun used =>
    UInt64.ofNat (Binary.bigEndian used) :=
  (takesAs_number 8).map _ fun _ _ => rfl

/-- An inner reader stands where the bytes it is for stood. -/
theorem on_part (n : Nat) (r : Reader) : (Bytes.part n : Reading Reader).on r =
    if n ≤ r.remaining then (.ok (.ofBytes (r.rest.take n) r.position), r.skip n)
    else (.error (.unexpectedEnd r.position n r.remaining), r) := by
  have hplace := (takesAs_take n).map (Reader.ofBytes · r.position) fun _ _ => rfl
  exact hplace r

end Reading

/-! ## Steps -/

namespace Session

/-- The session after a read that succeeds. -/
def after (s : Session) : Read → Session
  | .enter n => ⟨.ofBytes (s.current.rest.take n) s.current.position, s.current.skip n :: s.outer⟩
  | .leave =>
    match s.outer with
    | parent :: others => ⟨parent, others⟩
    | [] => s
  | read => { s with current := s.current.skip read.width }

/-- A read on the innermost reader, by what it takes. -/
theorem step_of_takesAs {s : Session} {read : Read}
    (h : read.reading.TakesAs read.width read.valueOf)
    (hstep : s.step read = ((read.reading.on s.current).1,
      { s with current := (read.reading.on s.current).2 }))
    (hafter : s.after read = { s with current := s.current.skip read.width }) :
    s.step read =
      if read.width ≤ s.current.remaining then
        (.ok (read.valueOf (s.current.rest.take read.width)), s.after read)
      else (.error (.unexpectedEnd s.current.position read.width s.current.remaining), s) := by
  rw [hstep, h s.current, hafter]
  by_cases hle : read.width ≤ s.current.remaining
  · rw [if_pos hle, if_pos hle]
  · rw [if_neg hle, if_neg hle]

/-- A read succeeds if the innermost reader has as many bytes left as it asks for. Otherwise it
reports where they are missing and changes nothing. -/
theorem step_eq (s : Session) (read : Read) :
    s.step read =
      if read.width ≤ s.current.remaining then
        (.ok (read.valueOf (s.current.rest.take read.width)), s.after read)
      else (.error (.unexpectedEnd s.current.position read.width s.current.remaining), s) := by
  open Reading in
  cases read with
  | uint8 =>
    have hbyte : (Bytes.uint8 : Reading UInt8).TakesAs 1 fun used =>
        UInt8.ofNat (Binary.bigEndian used) := (takesAs_number 1).map _ fun _ _ => rfl
    refine step_of_takesAs (hbyte.map _ fun used hlength => ?_) rfl rfl
    have hlt := hlength ▸ Binary.bigEndian_lt used
    exact congrArg ReadValue.unsigned (UInt8.toNat_ofNat_of_lt hlt)
  | uint16 =>
    have hword : (Bytes.uint16 : Reading UInt16).TakesAs 2 fun used =>
        UInt16.ofNat (Binary.bigEndian used) := (takesAs_number 2).map _ fun _ _ => rfl
    refine step_of_takesAs (hword.map _ fun used hlength => ?_) rfl rfl
    have hlt := hlength ▸ Binary.bigEndian_lt used
    exact congrArg ReadValue.unsigned (UInt16.toNat_ofNat_of_lt hlt)
  | uint32 =>
    refine step_of_takesAs (takesAs_uint32.map _ fun used hlength => ?_) rfl rfl
    have hlt := hlength ▸ Binary.bigEndian_lt used
    exact congrArg ReadValue.unsigned (UInt32.toNat_ofNat_of_lt hlt)
  | int32 =>
    have hword : (Bytes.int32 : Reading Int32).TakesAs 4 fun used =>
        Int32.ofNat (Binary.bigEndian used) := takesAs_uint32.map _ fun _ _ => rfl
    exact step_of_takesAs (hword.map _ fun _ _ => rfl) rfl rfl
  | int64 =>
    have hword : (Bytes.int64 : Reading Int64).TakesAs 8 fun used =>
        Int64.ofNat (Binary.bigEndian used) := takesAs_uint64.map _ fun _ _ => rfl
    exact step_of_takesAs (hword.map _ fun _ _ => rfl) rfl rfl
  | float32 => exact step_of_takesAs (takesAs_uint32.map _ fun _ _ => rfl) rfl rfl
  | float64 => exact step_of_takesAs (takesAs_uint64.map _ fun _ _ => rfl) rfl rfl
  | bytes n => exact step_of_takesAs ((takesAs_take n).map _ fun _ _ => rfl) rfl rfl
  | skip n =>
    have hskip : (Bytes.skip n : Reading Unit).TakesAs n fun _ => () :=
      (takesAs_take n).map _ fun _ _ => rfl
    have hnothing : (Read.skip n).reading.TakesAs n (Read.skip n).valueOf :=
      hskip.map (fun _ => ReadValue.nothing) fun _ _ => rfl
    exact step_of_takesAs hnothing rfl rfl
  | enter n =>
    rw [step, on_part]
    by_cases hn : n ≤ s.current.remaining
    · rw [if_pos hn, Read.width, if_pos hn]
      rfl
    · rw [if_neg hn, Read.width, if_neg hn]
  | leave =>
    rw [Read.width, if_pos (Nat.zero_le _), step, after]
    cases s.outer <;> rfl

end Session

/-! ## Spans of readers -/

/-- The reader is for a span of the buffer, which begins at the offset `base`: what it has read and
what is left are the span, and what is left are the bytes of the buffer from its position on. -/
structure Reader.IsFor (raw : List UInt8) (base : Nat) (r : Reader) (span : Span) : Prop where
  base_eq : r.base = span.start
  length_eq : r.consumed + r.remaining = span.length
  base_le : base ≤ span.start
  standAt : StandAt raw (r.position - base) r.rest

namespace Reader.IsFor

variable {raw : List UInt8} {base n : Nat} {r : Reader} {span : Span}

theorem ofBytes (raw : List UInt8) (base : Nat) :
    (Reader.ofBytes raw base).IsFor raw base ⟨base, raw.length⟩ where
  base_eq := rfl
  length_eq := Nat.zero_add _
  base_le := Nat.le_refl base
  standAt := by
    have hstart : (Reader.ofBytes raw base).position - base = 0 := Nat.sub_self base
    rw [hstart]
    exact StandAt.drop_self (Nat.zero_le _)

theorem base_le_position (h : r.IsFor raw base span) : base ≤ r.position := by
  have := h.base_eq
  have := h.base_le
  rw [Reader.position]
  omega

theorem skip (h : r.IsFor raw base span) (hn : n ≤ r.remaining) :
    (r.skip n).IsFor raw base span where
  base_eq := h.base_eq
  length_eq := by
    have hlength := h.length_eq
    simp only [Reader.skip, Reader.remaining, List.length_drop] at hlength hn ⊢
    omega
  base_le := h.base_le
  standAt := by
    have hle := h.base_le_position
    have hstart : (r.skip n).position - base = r.position - base + n := by
      simp only [Reader.skip, Reader.position] at hle ⊢
      omega
    rw [hstart]
    exact h.standAt.drop hn

/-- A reader that is cut from another one is for the bytes that the other one passes over. -/
theorem cut (h : r.IsFor raw base span) (hn : n ≤ r.remaining) :
    (Reader.ofBytes (r.rest.take n) r.position).IsFor raw base ⟨r.position, n⟩ where
  base_eq := rfl
  length_eq := by
    rw [Reader.ofBytes, Reader.remaining, List.length_take_of_le hn, Nat.zero_add]
  base_le := h.base_le_position
  standAt := h.standAt.take n

/-- The next bytes of the reader stand in the buffer, and inside its span. -/
theorem take_rest_eq (h : r.IsFor raw base span) (hn : n ≤ r.remaining) :
    r.rest.take n = (raw.drop (r.position - base)).take n := by
  have hslice := (h.standAt.take n).slice_eq
  rw [List.length_take_of_le hn] at hslice
  exact hslice.symm

theorem within (h : r.IsFor raw base span) (hn : n ≤ r.remaining) :
    Span.Within ⟨r.position, n⟩ span.start (span.start + span.length) := by
  have hbase := h.base_eq
  have hlength := h.length_eq
  simp only [Span.Within, Reader.position]
  omega

end Reader.IsFor

/-! ## Runs -/

namespace Session

variable {raw : List UInt8} {base : Nat}

/-- The open readers, the innermost first. -/
def readers (s : Session) : List Reader := s.current :: s.outer

/-- Each reader is for one of the spans. The outermost one is for the whole buffer, and the span of
any other is the last part that the reader around it has passed over. -/
inductive Nested (raw : List UInt8) (base : Nat) : List Reader → List Span → Prop
  | outermost {r : Reader} (h : r.IsFor raw base ⟨base, raw.length⟩) :
      Nested raw base [r] [⟨base, raw.length⟩]
  | inner {r parent : Reader} {readers : List Reader} {span around : Span} {spans : List Span}
      (h : r.IsFor raw base span) (hstart : around.start ≤ span.start)
      (hend : span.start + span.length = parent.position)
      (houter : Nested raw base (parent :: readers) (around :: spans)) :
      Nested raw base (r :: parent :: readers) (span :: around :: spans)

/-- The spans of the open readers after one more read: a reader that is opened is for the bytes that
are passed over, and the outermost one is never left. -/
def spansAfter (s : Session) (spans : List Span) (read : Read) : List Span :=
  match read, (s.step read).1, spans with
  | .enter n, .ok _, spans => ⟨s.current.position, n⟩ :: spans
  | .leave, .ok _, _ :: around :: spans => around :: spans
  | _, _, spans => spans

/-- The session after some reads, one after the other, of which any may fail. -/
def run (s : Session) : List Read → Session
  | [] => s
  | read :: reads => (s.step read).2.run reads

/-- The spans of the readers that are open after some reads. -/
def openSpans (s : Session) (spans : List Span) : List Read → List Span
  | [] => spans
  | read :: reads => (s.step read).2.openSpans (s.spansAfter spans read) reads

theorem nested_start (raw : List UInt8) (base : Nat) :
    Nested raw base (start raw base).readers [⟨base, raw.length⟩] :=
  .outermost (.ofBytes raw base)

namespace Nested

variable {r : Reader} {readers : List Reader} {spans : List Span} {n : Nat}

theorem exists_isFor (h : Nested raw base (r :: readers) spans) :
    ∃ span others, spans = span :: others ∧ r.IsFor raw base span := by
  cases h with
  | outermost h => exact ⟨_, _, rfl, h⟩
  | inner h => exact ⟨_, _, rfl, h⟩

/-- The innermost reader moves on. -/
theorem skip (h : Nested raw base (r :: readers) spans) (hn : n ≤ r.remaining) :
    Nested raw base (r.skip n :: readers) spans := by
  cases h with
  | outermost h => exact .outermost (h.skip hn)
  | inner h hstart hend houter => exact .inner (h.skip hn) hstart hend houter

/-- A reader is opened inside the innermost one. -/
theorem enter (h : Nested raw base (r :: readers) spans) (hn : n ≤ r.remaining) :
    Nested raw base (.ofBytes (r.rest.take n) r.position :: r.skip n :: readers)
      (⟨r.position, n⟩ :: spans) := by
  obtain ⟨span, others, rfl, hr⟩ := h.exists_isFor
  exact .inner (hr.cut hn) (hr.within hn).1 (Nat.add_assoc ..) (h.skip hn)

end Nested

theorem nested_after {s : Session} {spans : List Span} {read : Read}
    (h : Nested raw base s.readers spans) (hle : read.width ≤ s.current.remaining) :
    Nested raw base (s.after read).readers (s.spansAfter spans read) := by
  cases read with
  | enter n =>
    have hstep : (s.step (.enter n)).1 = .ok .nothing := by rw [step_eq, if_pos hle]; rfl
    unfold spansAfter
    rw [hstep]
    exact h.enter hle
  | leave =>
    obtain ⟨current, outer⟩ := s
    cases h with
    | outermost h => exact .outermost h
    | inner h hstart hend houter => exact houter
  | uint8 | uint16 | uint32 | int32 | int64 | float32 | float64 | bytes n | skip n =>
    exact h.skip hle

/-- One read keeps the readers inside one another, whether it succeeds or fails. -/
theorem nested_step {s : Session} {spans : List Span} (h : Nested raw base s.readers spans)
    (read : Read) : Nested raw base (s.step read).2.readers (s.spansAfter spans read) := by
  by_cases hle : read.width ≤ s.current.remaining
  · rw [step_eq, if_pos hle]
    exact nested_after h hle
  · have hstep : s.step read = (.error _, s) := (step_eq s read).trans (if_neg hle)
    have hspans : s.spansAfter spans read = spans := by
      unfold spansAfter
      rw [hstep]
      cases read <;> rfl
    rw [hspans, hstep]
    exact h

theorem nested_run {s : Session} {spans : List Span} (h : Nested raw base s.readers spans)
    (reads : List Read) : Nested raw base (s.run reads).readers (s.openSpans spans reads) := by
  induction reads generalizing s spans with
  | nil => exact h
  | cons read reads ih => exact ih (nested_step h read)

/-- After any reads, failed ones among them, every open reader is for its span of the buffer, and
inside what the reader around it has passed over. The next read gives the bytes of the buffer at the
position of the innermost reader, inside its span, if as many are left. Otherwise it reports where
they are missing, and every reader stays as it was. -/
theorem reads_faithful (raw : List UInt8) (base : Nat) (reads : List Read) :
    let s := (start raw base).run reads
    let spans := (start raw base).openSpans [⟨base, raw.length⟩] reads
    Nested raw base s.readers spans ∧ ∀ read : Read,
      s.step read =
        (if read.width ≤ s.current.remaining then
          (.ok (read.valueOf ((raw.drop (s.current.position - base)).take read.width)),
            s.after read)
        else (.error (.unexpectedEnd s.current.position read.width s.current.remaining), s)) ∧
      (read.width ≤ s.current.remaining → ∃ span ∈ spans.head?,
        Span.Within ⟨s.current.position, read.width⟩ span.start (span.start + span.length)) := by
  intro s spans
  have hnested : Nested raw base s.readers spans := nested_run (nested_start raw base) reads
  obtain ⟨span, others, hspans, hcurrent⟩ := hnested.exists_isFor
  refine ⟨hnested, fun read => ⟨?_, fun hle => ⟨span, ?_, hcurrent.within hle⟩⟩⟩
  · rw [step_eq]
    by_cases hle : read.width ≤ s.current.remaining
    · rw [if_pos hle, if_pos hle, hcurrent.take_rest_eq hle]
    · rw [if_neg hle, if_neg hle]
  · rw [hspans]
    rfl

-- The offset of what is missing in a part is one in the whole, and the reader around the part
-- stands behind it.
example :
    let s := (start (List.replicate 10 0) 0).run [.skip 4, .enter 3, .skip 2]
    s.step .uint16 = (.error (.unexpectedEnd 6 2 1), s) ∧ s.outer.map Reader.position = [7] :=
  ⟨rfl, rfl⟩

end Session

end ClassAtlas
