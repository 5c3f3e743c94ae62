import ClassAtlas.Proofs.Binary.Inversion
import ClassAtlas.Proofs.Binary.Locality

/-!
# Bytes that a decoder does not look at

A decoder that settles on the bytes it passes over may still ignore some of them, such as parts that
are passed over by their length alone. `Decoder.SettlesOutside` says that a decoder gives the same
value whatever stands in some spans of its bytes.

## Main definitions

* `Span` is a range of bytes by absolute offset.
* `SameOutside` relates byte sequences that differ inside spans only.
* `Decoder.SettlesOutside` extends `Decoder.Settles` to all sequences that are related so.
-/

namespace ClassAtlas

/-- A range of bytes. -/
structure Span where
  /-- The absolute offset of the first byte. -/
  start : Nat
  length : Nat

namespace Span

def Covers (s : Span) (offset : Nat) : Prop := s.start ≤ offset ∧ offset < s.start + s.length

/-- The span lies between two offsets. -/
def Within (s : Span) (first last : Nat) : Prop := first ≤ s.start ∧ s.start + s.length ≤ last

end Span

/-- The second sequence is the first one with other bytes inside some spans. Both begin at the offset
`start`. -/
structure SameOutside (spans : List Span) (start : Nat) (l m : List UInt8) : Prop where
  length_eq : m.length = l.length
  getElem?_eq : ∀ i, (∀ s ∈ spans, ¬ s.Covers (start + i)) → m[i]? = l[i]?

/-- The bytes with others in the place of those from an offset on. -/
def overwrite (bytes : List UInt8) (start : Nat) (content : List UInt8) : List UInt8 :=
  bytes.take start ++ content ++ bytes.drop (start + content.length)

namespace SameOutside

variable {spans spans' : List Span} {start : Nat} {l m : List UInt8}

theorem refl (spans : List Span) (start : Nat) (l : List UInt8) : SameOutside spans start l l :=
  ⟨rfl, fun _ _ => rfl⟩

theorem eq_of_nil (h : SameOutside [] start l m) : m = l :=
  List.ext_getElem? fun i => h.getElem?_eq i fun _ hs => nomatch hs

/-- Other bytes are put into a span. -/
theorem overwrite {s : Span} (hs : s ∈ spans) (hlast : s.start + s.length ≤ l.length)
    {content : List UInt8} (hcontent : content.length = s.length) :
    SameOutside spans 0 l (overwrite l s.start content) where
  length_eq := by
    simp only [ClassAtlas.overwrite, List.length_append, List.length_take, List.length_drop]
    omega
  getElem?_eq i hi := by
    have houtside : ¬ s.Covers i := Nat.zero_add i ▸ hi s hs
    rw [Span.Covers] at houtside
    grind [ClassAtlas.overwrite]

/-- A span does not reach into a part that it lies before or behind, so the two parts of a sequence
are changed apart from each other. -/
theorem exists_append {first second : List UInt8}
    (h : SameOutside (spans ++ spans') start (first ++ second) m)
    (hfirst : ∀ s ∈ spans, s.Within start (start + first.length))
    (hsecond : ∀ s ∈ spans',
      s.Within (start + first.length) (start + first.length + second.length)) :
    ∃ first' second', m = first' ++ second' ∧ SameOutside spans start first first' ∧
      SameOutside spans' (start + first.length) second second' := by
  have hlength := h.length_eq
  rw [List.length_append] at hlength
  refine ⟨m.take first.length, m.drop first.length, (List.take_append_drop _ _).symm,
    ⟨?_, fun i hi => ?_⟩, ⟨?_, fun i hi => ?_⟩⟩
  · rw [List.length_take]
    omega
  · rw [List.getElem?_take]
    split
    · next hlt =>
      rw [h.getElem?_eq i, List.getElem?_append_left hlt]
      refine List.forall_mem_append.2 ⟨hi, fun s hs hcovers => ?_⟩
      have := (hsecond s hs).1
      have := hcovers.1
      omega
    · next hge => rw [List.getElem?_eq_none (Nat.not_lt.1 hge)]
  · rw [List.length_drop]
    omega
  · rw [List.getElem?_drop, h.getElem?_eq, List.getElem?_append_right (Nat.le_add_right _ _),
      Nat.add_sub_cancel_left]
    refine List.forall_mem_append.2 ⟨fun s hs hcovers => ?_, by rwa [← Nat.add_assoc]⟩
    have := (hfirst s hs).2
    have := hcovers.2
    omega

/-- What stands before and behind the spans is not changed. -/
theorem exists_middle {first middle last : List UInt8}
    (h : SameOutside spans start (first ++ (middle ++ last)) m)
    (hinside : ∀ s ∈ spans,
      s.Within (start + first.length) (start + first.length + middle.length)) :
    ∃ middle', m = first ++ (middle' ++ last) ∧
      SameOutside spans (start + first.length) middle middle' := by
  have hwide : ∀ s ∈ spans,
      s.Within (start + first.length) (start + first.length + (middle ++ last).length) := by
    intro s hs
    rw [List.length_append]
    exact ⟨(hinside s hs).1, by have := (hinside s hs).2; omega⟩
  have hbehind : SameOutside ([] ++ spans) start (first ++ (middle ++ last)) m := h
  obtain ⟨first', others, rfl, hfirst, hothers⟩ := hbehind.exists_append (by simp) hwide
  rw [← List.append_nil spans] at hothers
  obtain ⟨middle', last', rfl, hmiddle, hlast⟩ := hothers.exists_append hinside (by simp)
  rw [hfirst.eq_of_nil, hlast.eq_of_nil]
  exact ⟨middle', rfl, hmiddle⟩

end SameOutside

namespace Decoder

variable {α β : Type}

/-- What a local decoder does on bytes that it passes over, it does on them whatever follows. -/
theorem Local.settles {d : Decoder α} (hd : d.Local) {base consumed : Nat} {used : List UInt8}
    {a : α} (h : d ⟨base, consumed, used⟩ = .ok (a, ⟨base, consumed + used.length, []⟩)) :
    d.Settles base consumed used a := by
  obtain ⟨used', hused, hsettles⟩ := hd base consumed _ a _ h
  rwa [hused, List.append_nil]

theorem Local.exists_of_run {d : Decoder α} (hd : d.Local) {base consumed : Nat}
    {bytes : List UInt8} {a : α} {r : Reader} (h : d ⟨base, consumed, bytes⟩ = .ok (a, r)) :
    ∃ used rest, bytes = used ++ rest ∧ r = ⟨base, consumed + used.length, rest⟩ ∧
      d.Settles base consumed used a := by
  obtain ⟨used, rfl, hused⟩ := hd base consumed bytes a r h
  obtain ⟨_, _, rest⟩ := r
  rw [hused.extend] at h
  cases h
  exact ⟨used, rest, rfl, rfl, hused⟩

/-- The decoder settles on the bytes, whatever stands in the spans. -/
structure SettlesOutside (d : Decoder α) (base consumed : Nat) (used : List UInt8)
    (spans : List Span) (a : α) : Prop where
  inside : ∀ s ∈ spans, s.Within (base + consumed) (base + consumed + used.length)
  settles : ∀ used', SameOutside spans (base + consumed) used used' → d.Settles base consumed used' a

theorem Settles.outside_nil {d : Decoder α} {base consumed : Nat} {used : List UInt8} {a : α}
    (h : d.Settles base consumed used a) : d.SettlesOutside base consumed used [] a where
  inside _ hs := nomatch hs
  settles _ hsame := hsame.eq_of_nil ▸ h

/-- One decoder after the other, each with its own spans. -/
theorem SettlesOutside.bind {d : Decoder α} {f : α → Decoder β} {base consumed : Nat}
    {first second : List UInt8} {spans spans' : List Span} {a : α} {b : β}
    (hd : d.SettlesOutside base consumed first spans a)
    (hf : (f a).SettlesOutside base (consumed + first.length) second spans' b) :
    (d >>= f).SettlesOutside base consumed (first ++ second) (spans ++ spans') b := by
  have hsecond : ∀ s ∈ spans', s.Within (base + consumed + first.length)
      (base + consumed + first.length + second.length) := by
    simpa only [Nat.add_assoc] using hf.inside
  refine ⟨List.forall_mem_append.2 ⟨fun s hs => ?_, fun s hs => ?_⟩, fun used' hsame => ?_⟩
  · have h := hd.inside s hs
    rw [List.length_append]
    exact ⟨h.1, by have := h.2; omega⟩
  · have h := hsecond s hs
    rw [List.length_append, ← Nat.add_assoc]
    exact ⟨by have := h.1; omega, h.2⟩
  · obtain ⟨first', second', rfl, hfirst', hsecond'⟩ := hsame.exists_append hd.inside hsecond
    refine (hd.settles first' hfirst').bind ?_
    rw [hfirst'.length_eq]
    exact hf.settles second' (by rwa [← Nat.add_assoc])

theorem SettlesOutside.map {d : Decoder α} {base consumed : Nat} {used : List UInt8}
    {spans : List Span} {a : α} (h : d.SettlesOutside base consumed used spans a) (f : α → β) :
    (d >>= fun a => pure (f a)).SettlesOutside base consumed used spans (f a) where
  inside := h.inside
  settles used' hsame := by
    have hpure : (pure (f a) : Decoder β).Settles base (consumed + used'.length) [] (f a) :=
      (local_pure (f a)).settles rfl
    have hbind : (d >>= fun a => pure (f a)).Settles base consumed (used' ++ []) (f a) :=
      (h.settles used' hsame).bind hpure
    rwa [List.append_nil] at hbind

/-! ## Parts -/

theorem part_eq (used : List UInt8) (base consumed : Nat) :
    part used.length ⟨base, consumed, used⟩ =
      .ok (.ofBytes used (base + consumed), ⟨base, consumed + used.length, []⟩) := by
  refine stateBind_eq_ok_iff.2 ⟨base + consumed, ⟨base, consumed, used⟩, rfl,
    stateBind_eq_ok_iff.2 ⟨used, _, ?_, rfl⟩⟩
  change take used.length _ = _
  simp [take_apply, Reader.skip, Reader.remaining]

theorem exists_of_part_eq_ok {n base consumed : Nat} {bytes : List UInt8} {body r : Reader}
    (h : part n ⟨base, consumed, bytes⟩ = .ok (body, r)) :
    ∃ used rest, bytes = used ++ rest ∧ used.length = n ∧ body = .ofBytes used (base + consumed) ∧
      r = ⟨base, consumed + used.length, rest⟩ := by
  obtain ⟨start, _, hstart, h⟩ := stateBind_eq_ok_iff.1 h
  cases hstart
  obtain ⟨used, _, htake, h⟩ := stateBind_eq_ok_iff.1 h
  cases h
  obtain ⟨_, rest, hbytes, rfl, rfl, hlength⟩ := (passes_take n).exists_of_run htake
  exact ⟨used, rest, hbytes, hlength, rfl, rfl⟩

theorem within_eq_ok_iff {d : Decoder α} {inner left r r' : Reader} {a : α} :
    within inner d r = .ok ((a, left), r') ↔ d inner = .ok (a, left) ∧ r' = r := by
  rw [within]
  cases d inner with
  | error e => simp
  | ok p => simp [eq_comm]

/-- Nothing depends on the bytes of a part that is passed over. -/
theorem settlesOutside_part (used : List UInt8) (base consumed : Nat) (a : α) :
    (do let _ ← part used.length; return a : Decoder α).SettlesOutside base consumed used
      [⟨base + consumed, used.length⟩] a where
  inside := by simp [Span.Within]
  settles used' hsame := by
    have hpart := part_eq used' base consumed
    rw [← hsame.length_eq]
    refine Local.settles ?_ (stateBind_eq_ok_iff.2 ⟨_, _, hpart, rfl⟩)
    exact (local_part _).bind fun _ => local_pure a

/-- A part that is read to its end depends on its bytes as the inner decoder does. -/
theorem settlesOutside_within {d : Decoder α} {f : α × Reader → Decoder β} {base consumed : Nat}
    {used : List UInt8} {spans : List Span} {a : α} {b : β}
    (h : d.SettlesOutside (base + consumed) 0 used spans a) (hlocal : ∀ p, (f p).Local)
    (hf : ∀ r r' : Reader, r.isEmpty → f (a, r) r' = .ok (b, r')) :
    (do let body ← part used.length; f (← within body d)).SettlesOutside base consumed used
      spans b where
  inside := h.inside
  settles used' hsame := by
    have hpart := part_eq used' base consumed
    have hd := (h.settles used' hsame).extend []
    rw [List.append_nil, Nat.zero_add] at hd
    have hwithin (r : Reader) : within (.ofBytes used' (base + consumed)) d r =
        .ok ((a, ⟨base + consumed, used'.length, []⟩), r) := by
      rw [within, Reader.ofBytes, hd]
    rw [← hsame.length_eq]
    refine Local.settles ?_ (stateBind_eq_ok_iff.2 ⟨_, _, hpart, stateBind_eq_ok_iff.2
      ⟨_, _, hwithin _, hf _ _ rfl⟩⟩)
    exact (local_part _).bind fun _ => (local_within _ _).bind hlocal

end Decoder

end ClassAtlas
