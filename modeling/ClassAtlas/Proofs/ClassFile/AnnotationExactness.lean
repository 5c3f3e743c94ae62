import ClassAtlas.Proofs.Assembler.Annotations
import ClassAtlas.Proofs.Binary.Inversion
import ClassAtlas.Proofs.ClassFile.AnnotationSyntax

/-!
# Annotations are decoded exactly

The decoders of annotations read the written forms of annotations whose element values are not
nested too deep, and nothing else. On the written form of any other annotation they stop at an
element value that stands at the limit.

## Main definitions

* `Decoder.RejectsAt` says where a decoder finds that values are nested too deep.
* `Decoder.ExactBelow` says that a decoder is exact for values that are nested below a limit.

## Main statements

* `ElementValue.exactBelow_decode`: by induction on the limit.
* `annotations_exact`: element values, annotations and annotations of uses of types.
-/

namespace ClassAtlas

namespace Decoder

variable {α β : Type} {d : Decoder α} {limit : Nat}

/-- On bytes that start with these the decoder finds values nested too deep, `k` bytes behind the
start. -/
def RejectsAt (d : Decoder α) (bytes : List UInt8) (k : Nat) : Prop :=
  ∀ base consumed rest, d ⟨base, consumed, bytes ++ rest⟩ =
    .error (.format (.elementsTooDeep (base + consumed + k)))

theorem RejectsAt.append {bytes : List UInt8} {k : Nat} (h : d.RejectsAt bytes k)
    (more : List UInt8) : d.RejectsAt (bytes ++ more) k := by
  intro base consumed rest
  rw [List.append_assoc, h]

theorem RejectsAt.bind {bytes : List UInt8} {k : Nat} (h : d.RejectsAt bytes k)
    (f : α → Decoder β) : (d >>= f).RejectsAt bytes k := by
  intro base consumed rest
  change (d _ >>= fun p => f p.1 p.2) = _
  rw [h]
  rfl

/-- A first step that reads its bytes, and a second one that rejects what follows. -/
theorem Reads.bind_rejectsAt {f : α → Decoder β} {first second : List UInt8} {P : α → Prop} {k : Nat}
    (hd : d.Reads first P) (hf : ∀ a, P a → (f a).RejectsAt second k) :
    (d >>= f).RejectsAt (first ++ second) (first.length + k) := by
  intro base consumed rest
  obtain ⟨a, ha, hP⟩ := hd base consumed (second ++ rest)
  rw [List.append_assoc]
  change (d _ >>= fun p => f p.1 p.2) = _
  rw [ha]
  refine (hf a hP base (consumed + first.length) rest).trans ?_
  simp only [Nat.add_assoc]

/-- The decoder gives a value exactly on the written forms of values that hold no element values at
the limit or deeper. On the other written forms it stops at an element value at the limit. -/
structure ExactBelow (d : Decoder α) (limit : Nat) (Written : α → List UInt8 → Prop)
    (Holds : α → Nat → ElementValue → Prop) : Prop where
  reads : ∀ a bytes, Written a bytes → (∀ n w, Holds a n w → n < limit) → d.Reads bytes (· = a)
  passes : d.Passes fun a used => Written a used ∧ ∀ n w, Holds a n w → n < limit
  rejects : ∀ a bytes n w, Written a bytes → Holds a n w → limit ≤ n → ∃ before w' after,
    bytes = before ++ (w'.bytes ++ after) ∧ Holds a limit w' ∧ d.RejectsAt bytes before.length

theorem ExactBelow.congr {Written Written' : α → List UInt8 → Prop}
    {Holds : α → Nat → ElementValue → Prop} (h : d.ExactBelow limit Written Holds)
    (hwritten : ∀ a bytes, Written' a bytes ↔ Written a bytes) :
    d.ExactBelow limit Written' Holds := by
  have heq : Written' = Written := funext₂ fun a bytes => propext (hwritten a bytes)
  rwa [heq]

/-- Data and a value behind one another. The values inside are those of the second part. -/
theorem ExactBelow.behind {γ : Type} {front : Decoder γ} {Front : γ → List UInt8 → Prop}
    {f : γ → α → β} {second : β → α} {Written : α → List UInt8 → Prop}
    {Holds : α → Nat → ElementValue → Prop} (h : d.ExactBelow limit Written Holds)
    (hreads : ∀ c bytes, Front c bytes → front.Reads bytes (· = c)) (hpasses : front.Passes Front)
    (hsecond : ∀ c a, second (f c a) = a) :
    (front >>= fun c => d >>= fun a => pure (f c a)).ExactBelow limit
      (fun b bytes => ∃ c a first others, b = f c a ∧ Front c first ∧ Written a others ∧
        bytes = first ++ others)
      (fun b => Holds (second b)) where
  reads := by
    rintro _ _ ⟨c, a, first, others, rfl, hc, ha, rfl⟩ hbelow
    rw [hsecond] at hbelow
    refine (hreads c first hc).bind fun c' hc' => ?_
    exact (h.reads a others ha hbelow).bind_pure fun a' ha' => by rw [hc', ha']
  passes := by
    refine (hpasses.bind fun c => h.passes.map (f c)).imp ?_
    rintro b used ⟨c, first, others, rfl, hc, a, rfl, ha, hbelow⟩
    rw [hsecond]
    exact ⟨⟨c, a, first, others, rfl, hc, ha, rfl⟩, hbelow⟩
  rejects := by
    rintro _ _ n w ⟨c, a, first, others, rfl, hc, ha, rfl⟩ hw hn
    rw [hsecond] at hw ⊢
    obtain ⟨before, w', after, rfl, hw', hreject⟩ := h.rejects a others n w ha hw hn
    refine ⟨first ++ before, w', after, by rw [List.append_assoc], hw', ?_⟩
    rw [List.length_append]
    exact (hreads c first hc).bind_rejectsAt fun _ _ => hreject.bind _

/-- An index of two bytes in front. -/
theorem reads_of_eq_word16 (n : UInt16) (bytes : List UInt8) (h : bytes = Binary.word16 n) :
    uint16.Reads bytes (· = n) := h ▸ reads_uint16 n

/-! ## Lists -/

/-- Values one after the other behind their number. -/
def CountedAs (Written : α → List UInt8 → Prop) (l : List α) (bytes : List UInt8) : Prop :=
  l.length ≤ 65535 ∧ ∃ chunks, List.Forall₂ Written l chunks ∧
    bytes = Binary.toBigEndian 2 l.length ++ chunks.flatten

/-- One of the values of a list holds the element value. -/
def Among (Holds : α → Nat → ElementValue → Prop) (l : List α) (n : Nat) (w : ElementValue) : Prop :=
  ∃ a ∈ l, Holds a n w

theorem forall_among_iff {Holds : α → Nat → ElementValue → Prop} {l : List α}
    {P : Nat → ElementValue → Prop} :
    (∀ n w, Among Holds l n w → P n w) ↔ ∀ a ∈ l, ∀ n w, Holds a n w → P n w := by
  constructor
  · intro h a ha n w hw
    exact h n w ⟨a, ha, hw⟩
  · rintro h n w ⟨a, ha, hw⟩
    exact h a ha n w hw

theorem passes_replicate {R : α → List UInt8 → Prop} (h : d.Passes R) (n : Nat) :
    (replicate d n).Passes fun l used =>
      l.length = n ∧ ∃ chunks, List.Forall₂ R l chunks ∧ used = chunks.flatten := by
  induction n with
  | zero =>
    refine (passes_pure []).imp ?_
    rintro l used ⟨rfl, rfl⟩
    exact ⟨rfl, [], .nil, rfl⟩
  | succ n ih =>
    refine (h.bind fun a => ih.map (a :: ·)).imp ?_
    rintro l used ⟨a, first, _, rfl, ha, others, rfl, rfl, chunks, hchunks, rfl⟩
    exact ⟨rfl, first :: chunks, .cons ha hchunks, rfl⟩

theorem passes_counted {R : α → List UInt8 → Prop} (h : d.Passes R) :
    (counted d).Passes (CountedAs R) := by
  refine (passes_uint16.bind fun n => passes_replicate h n.toNat).imp ?_
  rintro l used ⟨n, _, _, rfl, rfl, hlength, chunks, hchunks, rfl⟩
  have hlt := n.toNat_lt
  exact ⟨by omega, chunks, hchunks, by rw [Binary.word16, hlength]⟩

variable {Written : α → List UInt8 → Prop} {Holds : α → Nat → ElementValue → Prop}

/-- The values before the first one that is nested too deep are read. -/
theorem ExactBelow.rejects_replicate (h : d.ExactBelow limit Written Holds) {l : List α}
    {chunks : List (List UInt8)} (hl : List.Forall₂ Written l chunks)
    (hdeep : ∃ a ∈ l, ∃ n w, Holds a n w ∧ limit ≤ n) : ∃ before w after,
      chunks.flatten = before ++ (w.bytes ++ after) ∧ Among Holds l limit w ∧
        (replicate d l.length).RejectsAt chunks.flatten before.length := by
  induction hl with
  | nil => simp at hdeep
  | @cons a chunk l chunks ha hl ih =>
    by_cases hfirst : ∃ n w, Holds a n w ∧ limit ≤ n
    · obtain ⟨n, w, hw, hn⟩ := hfirst
      obtain ⟨before, w', after, rfl, hw', hreject⟩ := h.rejects a chunk n w ha hw hn
      refine ⟨before, w', after ++ chunks.flatten, ?_, ⟨a, List.mem_cons_self, hw'⟩, ?_⟩
      · simp only [List.flatten_cons, List.append_assoc]
      · exact (hreject.append chunks.flatten).bind _
    · have hothers := ((List.exists_mem_cons_iff ..).1 hdeep).resolve_left hfirst
      obtain ⟨before, w, after, hchunks, ⟨b, hb, hw⟩, hreject⟩ := ih hothers
      have hread := h.reads a chunk ha fun n w hw => Nat.lt_of_not_le fun hn => hfirst ⟨n, w, hw, hn⟩
      refine ⟨chunk ++ before, w, after, ?_, ⟨b, List.mem_cons_of_mem a hb, hw⟩, ?_⟩
      · rw [List.flatten_cons, hchunks, List.append_assoc]
      · rw [List.flatten_cons, List.length_append]
        exact hread.bind_rejectsAt fun _ _ => hreject.bind _

/-- A list is decoded exactly if its values are. -/
theorem ExactBelow.counted (h : d.ExactBelow limit Written Holds) :
    (counted d).ExactBelow limit (CountedAs Written) (Among Holds) where
  reads := by
    rintro l _ ⟨hlength, chunks, hchunks, rfl⟩ hbelow
    have hall : ∀ a ∈ l, ∀ n w, Holds a n w → n < limit :=
      fun a ha n w hw => hbelow n w ⟨a, ha, hw⟩
    have hreads : List.Forall₂ (fun a chunk => d.Reads chunk (a = ·)) l chunks :=
      ((List.forall₂_and_left l chunks).2 ⟨hall, hchunks⟩).imp fun a chunk hchunk =>
        (h.reads a chunk hchunk.2 hchunk.1).imp fun _ => Eq.symm
    refine reads_counted hlength ((reads_replicate hreads).imp fun l' hl' => ?_)
    rw [List.forall₂_eq_eq_eq] at hl'
    exact hl'.symm
  passes := by
    refine (passes_counted h.passes).imp ?_
    rintro l used ⟨hlength, chunks, hchunks, rfl⟩
    obtain ⟨hall, hchunks⟩ := (List.forall₂_and_left l chunks).1 (hchunks.imp fun _ _ => And.symm)
    refine ⟨⟨hlength, chunks, hchunks, rfl⟩, ?_⟩
    rintro n w ⟨a, ha, hw⟩
    exact hall a ha n w hw
  rejects := by
    rintro l _ n w ⟨hlength, chunks, hchunks, rfl⟩ ⟨a, ha, hw⟩ hn
    obtain ⟨before, w', after, hflatten, hw', hreject⟩ :=
      h.rejects_replicate hchunks ⟨a, ha, n, w, hw, hn⟩
    refine ⟨Binary.toBigEndian 2 l.length ++ before, w', after, ?_, hw', ?_⟩
    · rw [hflatten, List.append_assoc]
    · rw [List.length_append]
      refine (reads_uint16_ofNat l.length).bind_rejectsAt fun m hm => ?_
      have hnat : m.toNat = l.length := by
        rw [hm, UInt16.toNat_ofNat']
        omega
      rw [hnat]
      exact hreject

/-- Lists of values that have one written form each. -/
theorem countedAs_iff {P : α → Prop} {f : α → List UInt8} {l : List α} {bytes : List UInt8} :
    CountedAs (fun a written => P a ∧ written = f a) l bytes ↔
      l.length ≤ 65535 ∧ (∀ a ∈ l, P a) ∧
        bytes = Binary.toBigEndian 2 l.length ++ (l.map f).flatten := by
  have hmap (chunks : List (List UInt8)) :
      List.Forall₂ (fun a written => written = f a) l chunks ↔ chunks = l.map f :=
    calc
      _ ↔ List.Forall₂ (fun a written => f a = written) l chunks := by simp only [eq_comm]
      _ ↔ List.Forall₂ (· = ·) (l.map f) chunks := List.forall₂_map_left_iff.symm
      _ ↔ l.map f = chunks := by rw [List.forall₂_eq_eq_eq]
      _ ↔ chunks = l.map f := eq_comm
  simp only [CountedAs, List.forall₂_and_left, hmap]
  constructor
  · rintro ⟨hlength, _, ⟨hall, rfl⟩, rfl⟩
    exact ⟨hlength, hall, rfl⟩
  · rintro ⟨hlength, hall, rfl⟩
    exact ⟨hlength, _, ⟨hall, rfl⟩, rfl⟩

end Decoder

/-! ## Element values -/

namespace ElementValue

open Decoder

variable {value : Decoder ElementValue} {limit : Nat}

/-- One element of an annotation, behind the index of its name. -/
def NamedWritten (e : UInt16 × ElementValue) (written : List UInt8) : Prop :=
  (∀ n w, e.2.Holds n w → w.Shaped) ∧ written = Binary.word16 e.1 ++ e.2.bytes

theorem exactBelow_namedElement (h : value.ExactBelow limit Written Holds) :
    (namedElement value).ExactBelow limit NamedWritten fun e => e.2.Holds := by
  refine (h.behind reads_of_eq_word16 passes_uint16 fun _ _ => rfl).congr fun e written => ?_
  constructor
  · rintro ⟨hshaped, rfl⟩
    exact ⟨e.1, e.2, _, _, rfl, rfl, ⟨hshaped, rfl⟩, rfl⟩
  · rintro ⟨name, v, _, _, rfl, rfl, ⟨hshaped, rfl⟩, rfl⟩
    exact ⟨hshaped, rfl⟩

theorem exactBelow_elements (h : value.ExactBelow limit Written Holds) :
    (elements value).ExactBelow limit (CountedAs NamedWritten) (Among fun e => e.2.Holds) :=
  (exactBelow_namedElement h).counted

theorem countedAs_namedWritten_iff {elements : List (UInt16 × ElementValue)} {written : List UInt8} :
    CountedAs NamedWritten elements written ↔ elements.length ≤ 65535 ∧
      (∀ e ∈ elements, ∀ n w, e.2.Holds n w → w.Shaped) ∧
        written = Binary.toBigEndian 2 elements.length ++ elementsBytes elements := by
  rw [elementsBytes_eq_flatten]
  exact countedAs_iff

theorem countedAs_written_iff {values : List ElementValue} {written : List UInt8} :
    CountedAs Written values written ↔ values.length ≤ 65535 ∧
      (∀ v ∈ values, ∀ n w, v.Holds n w → w.Shaped) ∧
        written = Binary.toBigEndian 2 values.length ++ valuesBytes values := by
  rw [valuesBytes_eq_flatten]
  exact countedAs_iff

theorem written_nested_iff {type : UInt16} {elements : List (UInt16 × ElementValue)}
    {written : List UInt8} : (nested type elements).Written written ↔ ∃ others,
      CountedAs NamedWritten elements others ∧
        written = '@'.toUInt8 :: (Binary.word16 type ++ others) := by
  rw [Written, forall_holds_iff, inner, List.forall_mem_map, Shaped, bytes]
  simp only [countedAs_namedWritten_iff]
  constructor
  · rintro ⟨⟨hlength, hshaped⟩, rfl⟩
    exact ⟨_, ⟨hlength, hshaped, rfl⟩, rfl⟩
  · rintro ⟨_, ⟨hlength, hshaped, rfl⟩, rfl⟩
    exact ⟨⟨hlength, hshaped⟩, rfl⟩

theorem written_array_iff {values : List ElementValue} {written : List UInt8} :
    (array values).Written written ↔ ∃ others, CountedAs Written values others ∧
      written = '['.toUInt8 :: others := by
  rw [Written, forall_holds_iff, inner, Shaped, bytes]
  simp only [countedAs_written_iff]
  constructor
  · rintro ⟨⟨hlength, hshaped⟩, rfl⟩
    exact ⟨_, ⟨hlength, hshaped, rfl⟩, rfl⟩
  · rintro ⟨_, ⟨hlength, hshaped, rfl⟩, rfl⟩
    exact ⟨⟨hlength, hshaped⟩, rfl⟩

theorem below_nested_iff {type : UInt16} {elements : List (UInt16 × ElementValue)} {levels : Nat} :
    (∀ n w, (nested type elements).Holds n w → n < levels + 1) ↔
      ∀ n w, Among (fun e => e.2.Holds) elements n w → n < levels := by
  rw [forall_holds_iff, forall_among_iff, inner, List.forall_mem_map]
  simp only [Nat.add_lt_add_iff_right, Nat.zero_lt_succ, true_and]

theorem below_array_iff {values : List ElementValue} {levels : Nat} :
    (∀ n w, (array values).Holds n w → n < levels + 1) ↔
      ∀ n w, Among Holds values n w → n < levels := by
  rw [forall_holds_iff, forall_among_iff, inner]
  simp only [Nat.add_lt_add_iff_right, Nat.zero_lt_succ, true_and]

/-- A value without values inside is nested below every limit but the least. -/
theorem below_of_inner_eq_nil {v : ElementValue} (h : v.inner = []) (levels : Nat) :
    ∀ n w, v.Holds n w → n < levels + 1 := by
  rw [forall_holds_iff, h]
  exact ⟨Nat.succ_pos levels, List.forall_mem_nil _⟩

/-- Such a value has a written form if it has the right shape. -/
theorem written_of_inner_eq_nil {v : ElementValue} (h : v.inner = []) (hshaped : v.Shaped) :
    v.Written v.bytes := by
  refine ⟨?_, rfl⟩
  rw [forall_holds_iff, h]
  exact ⟨hshaped, List.forall_mem_nil _⟩

theorem tag_eq_of_char {tag : UInt8} {c : Char} (h : Char.ofNat tag.toNat = c) :
    tag = UInt8.ofNat c.toNat := by
  have htag := tag.toNat_lt
  have hvalid : tag.toNat.isValidChar := Or.inl (by omega)
  have hchar : (Char.ofNat tag.toNat).toNat = tag.toNat := by
    rw [Char.ofNat, dif_pos hvalid]
    rfl
  rw [← h, hchar, UInt8.ofNat_toNat]

/-- What follows a tag, if the values inside are decoded exactly. -/
theorem passes_body {levels : Nat} (h : value.ExactBelow levels Written Holds) (tag : UInt8)
    (offset : Nat) : (body value tag offset).Passes fun v used =>
      v.Written (tag :: used) ∧ ∀ n w, v.Holds n w → n < levels + 1 := by
  rw [body]
  split
  · next htag =>
    refine (passes_uint16.map (const tag)).imp ?_
    rintro v used ⟨index, rfl, rfl⟩
    have hwritten : (const tag index).Written (const tag index).bytes :=
      written_of_inner_eq_nil rfl (List.contains_iff_mem.1 htag)
    rw [bytes] at hwritten
    exact ⟨hwritten, below_of_inner_eq_nil rfl levels⟩
  · split
    · next hchar =>
      obtain rfl := tag_eq_of_char hchar
      refine (passes_uint16.bind fun type => passes_uint16.map (enum type)).imp ?_
      rintro v used ⟨type, _, _, rfl, rfl, name, rfl, rfl⟩
      have hwritten : (enum type name).Written (enum type name).bytes :=
        written_of_inner_eq_nil rfl trivial
      rw [bytes] at hwritten
      exact ⟨hwritten, below_of_inner_eq_nil rfl levels⟩
    · next hchar =>
      obtain rfl := tag_eq_of_char hchar
      refine (passes_uint16.map classInfo).imp ?_
      rintro v used ⟨descriptor, rfl, rfl⟩
      have hwritten : (classInfo descriptor).Written (classInfo descriptor).bytes :=
        written_of_inner_eq_nil rfl trivial
      rw [bytes] at hwritten
      exact ⟨hwritten, below_of_inner_eq_nil rfl levels⟩
    · next hchar =>
      obtain rfl := tag_eq_of_char hchar
      refine (passes_uint16.bind fun type => (exactBelow_elements h).passes.map (nested type)).imp ?_
      rintro v used ⟨type, _, _, rfl, rfl, elements, rfl, hwritten, hbelow⟩
      exact ⟨written_nested_iff.2 ⟨_, hwritten, rfl⟩, below_nested_iff.2 hbelow⟩
    · next hchar =>
      obtain rfl := tag_eq_of_char hchar
      refine (h.counted.passes.map array).imp ?_
      rintro v used ⟨values, rfl, hwritten, hbelow⟩
      exact ⟨written_array_iff.2 ⟨_, hwritten, rfl⟩, below_array_iff.2 hbelow⟩
    · exact passes_fail _ _

/-- What was read of a value with the tag `tag`, by its shape. -/
theorem reads_body {levels : Nat} (h : value.ExactBelow levels Written Holds) {v : ElementValue}
    {tag : UInt8} {others : List UInt8} (hwritten : v.Written (tag :: others))
    (hbelow : ∀ n w, v.Holds n w → n < levels + 1) (offset : Nat) :
    (body value tag offset).Reads others (· = v) := by
  cases v with
  | const tag' index =>
    obtain ⟨hshaped, hbytes⟩ := hwritten
    rw [bytes] at hbytes
    cases hbytes
    have htag : tag ∈ constTags := hshaped 0 _ (.here _)
    rw [body, if_pos (List.contains_iff_mem.2 htag)]
    exact (reads_uint16 index).bind_pure fun i hi => by rw [hi]
  | enum type name =>
    obtain ⟨-, hbytes⟩ := hwritten
    rw [bytes] at hbytes
    cases hbytes
    exact (reads_uint16 type).bind fun i hi => (reads_uint16 name).bind_pure fun j hj => by
      rw [hi, hj]
  | classInfo descriptor =>
    obtain ⟨-, hbytes⟩ := hwritten
    rw [bytes] at hbytes
    cases hbytes
    exact (reads_uint16 descriptor).bind_pure fun i hi => by rw [hi]
  | nested type elements =>
    obtain ⟨written, helements, hbytes⟩ := written_nested_iff.1 hwritten
    cases hbytes
    have hread := (exactBelow_elements h).reads elements written helements
      (below_nested_iff.1 hbelow)
    exact (reads_uint16 type).bind fun i hi => hread.bind_pure fun l hl => by rw [hi, hl]
  | array values =>
    obtain ⟨_, hvalues, hbytes⟩ := written_array_iff.1 hwritten
    cases hbytes
    have hread := h.counted.reads values others hvalues (below_array_iff.1 hbelow)
    exact hread.bind_pure fun l hl => by rw [hl]

/-- Behind the tag, a value that is too deep is rejected where the values inside are. -/
theorem rejectsAt_body {levels : Nat} (h : value.ExactBelow levels Written Holds) {v : ElementValue}
    {tag : UInt8} {others : List UInt8} (hwritten : v.Written (tag :: others)) {n : Nat}
    {w : ElementValue} (hw : v.Holds n w) (hn : levels + 1 ≤ n) : ∃ before w' after,
      others = before ++ (w'.bytes ++ after) ∧ v.Holds (levels + 1) w' ∧
        ∀ offset, (body value tag offset).RejectsAt others before.length := by
  cases hw with
  | here => cases hn
  | @inside v c w n hc hw =>
    cases v with
    | const | enum | classInfo => cases hc
    | nested type elements =>
      obtain ⟨written, helements, hbytes⟩ := written_nested_iff.1 hwritten
      cases hbytes
      obtain ⟨e, he, rfl⟩ := List.mem_map.1 hc
      obtain ⟨before, w', after, hbytes, ⟨e', he', hw'⟩, hreject⟩ :=
        (exactBelow_elements h).rejects elements written n w helements ⟨e, he, hw⟩
          (Nat.le_of_succ_le_succ hn)
      refine ⟨Binary.word16 type ++ before, w', after, ?_, .inside (List.mem_map_of_mem he') hw',
        fun offset => ?_⟩
      · rw [hbytes, List.append_assoc]
      · rw [List.length_append]
        exact (reads_uint16 type).bind_rejectsAt fun _ _ => hreject.bind _
    | array values =>
      obtain ⟨_, hvalues, hbytes⟩ := written_array_iff.1 hwritten
      cases hbytes
      obtain ⟨before, w', after, hbytes, ⟨c', hc', hw'⟩, hreject⟩ :=
        h.counted.rejects values others n w hvalues ⟨c, hc, hw⟩ (Nat.le_of_succ_le_succ hn)
      exact ⟨before, w', after, hbytes, .inside hc' hw', fun offset => hreject.bind _⟩

/-- Every written form starts with a tag. -/
theorem Written.exists_cons {v : ElementValue} {written : List UInt8} (h : v.Written written) :
    ∃ tag others, written = tag :: others := by
  obtain ⟨-, rfl⟩ := h
  cases v <;> exact ⟨_, _, by rw [bytes]⟩

/-- With one more level, the values inside are decoded exactly with the levels that were left. -/
theorem exactBelow_decode (levels : Nat) : (decode levels).ExactBelow levels Written Holds := by
  induction levels with
  | zero =>
    refine ⟨fun v _ _ hbelow => ?_, ?_, fun v bytes n w hwritten _ _ => ?_⟩
    · exact absurd (hbelow 0 v (.here v)) (Nat.lt_irrefl 0)
    · refine (passes_position.bind fun _ => passes_fail _ fun _ _ => False).imp ?_
      rintro v used ⟨_, _, _, _, _, ⟨⟩⟩
    · exact ⟨[], v, [], by simpa using hwritten.2, .here v, fun _ _ _ => rfl⟩
  | succ levels ih =>
    refine ⟨fun v written hwritten hbelow => ?_, ?_, fun v written n w hwritten hw hn => ?_⟩
    · obtain ⟨tag, others, rfl⟩ := hwritten.exists_cons
      exact reads_decode (Nat.succ_pos levels) fun offset => reads_body ih hwritten hbelow offset
    · refine (passes_position.bind fun offset => passes_uint8.bind fun tag =>
        passes_body ih tag offset).imp ?_
      rintro v used ⟨offset, _, _, rfl, rfl, tag, _, _, rfl, rfl, hv⟩
      exact hv
    · obtain ⟨tag, others, rfl⟩ := hwritten.exists_cons
      obtain ⟨before, w', after, rfl, hw', hreject⟩ := rejectsAt_body ih hwritten hw hn
      refine ⟨tag :: before, w', after, rfl, hw', ?_⟩
      have hdecode : (decode (levels + 1)).RejectsAt ([] ++ ([tag] ++ _)) (0 + (1 + before.length)) :=
        reads_position.bind_rejectsAt fun offset _ => (reads_uint8 tag).bind_rejectsAt fun a ha =>
          ha ▸ hreject offset
      rwa [Nat.zero_add, Nat.add_comm 1] at hdecode

end ElementValue

/-! ## Annotations -/

open Decoder

namespace AnnotationInfo

theorem written_iff {a : AnnotationInfo} {written : List UInt8} : a.Written written ↔
    ∃ others, CountedAs ElementValue.NamedWritten a.elements others ∧
      written = Binary.word16 a.type ++ others := by
  have hshaped : (∀ n w, a.Holds n w → w.Shaped) ↔
      ∀ e ∈ a.elements, ∀ n w, e.2.Holds n w → w.Shaped := by
    change (∀ n w, Among (fun e => e.2.Holds) a.elements n w → w.Shaped) ↔ _
    exact forall_among_iff
  rw [Written, hshaped, bytes]
  simp only [ElementValue.countedAs_namedWritten_iff]
  constructor
  · rintro ⟨hlength, hall, rfl⟩
    exact ⟨_, ⟨hlength, hall, rfl⟩, rfl⟩
  · rintro ⟨_, ⟨hlength, hall, rfl⟩, rfl⟩
    exact ⟨hlength, hall, rfl⟩

theorem exactBelow_decode : decode.ExactBelow maxElementDepth Written Holds := by
  have helements :=
    ElementValue.exactBelow_elements (ElementValue.exactBelow_decode maxElementDepth)
  refine (helements.behind reads_of_eq_word16 passes_uint16 fun _ _ => rfl).congr fun a written => ?_
  rw [written_iff]
  constructor
  · rintro ⟨others, hothers, rfl⟩
    exact ⟨a.type, a.elements, _, others, rfl, rfl, hothers, rfl⟩
  · rintro ⟨type, elements, _, others, rfl, rfl, hothers, rfl⟩
    exact ⟨others, hothers, rfl⟩

end AnnotationInfo

/-! ## Annotations of uses of types -/

theorem length_flatMap_of_length_eq {γ : Type} {f : γ → List UInt8} {width : Nat}
    (h : ∀ c, (f c).length = width) (l : List γ) : (l.flatMap f).length = l.length * width := by
  induction l with
  | nil => simp
  | cons c l ih => rw [List.flatMap_cons, List.length_append, h, ih, List.length_cons, Nat.succ_mul,
      Nat.add_comm]

/-- Bytes are a list of items of a width if all bytes of that width are items. -/
theorem exists_flatMap_of_length_eq {γ : Type} {f : γ → List UInt8} {width : Nat}
    (h : ∀ bytes : List UInt8, bytes.length = width → ∃ c, bytes = f c) :
    (n : Nat) → (bytes : List UInt8) → bytes.length = n * width →
      ∃ l : List γ, l.length = n ∧ bytes = l.flatMap f
  | 0, bytes, hlength => ⟨[], rfl, by simpa using hlength⟩
  | n + 1, bytes, hlength => by
    rw [Nat.succ_mul] at hlength
    obtain ⟨c, hc⟩ := h (bytes.take width) (by rw [List.length_take]; omega)
    obtain ⟨l, hl, hrest⟩ := exists_flatMap_of_length_eq h n (bytes.drop width)
      (by rw [List.length_drop]; omega)
    refine ⟨c :: l, by rw [List.length_cons, hl], ?_⟩
    rw [List.flatMap_cons, ← hc, ← hrest, List.take_append_drop]

theorem exists_eq_word16 (bytes : List UInt8) (h : bytes.length = 2) :
    ∃ n, bytes = Binary.word16 n := by
  have hlt := Binary.bigEndian_lt bytes
  rw [h] at hlt
  refine ⟨UInt16.ofNat (Binary.bigEndian bytes), ?_⟩
  rw [Binary.word16, UInt16.toNat_ofNat_of_lt' hlt, ← h, Binary.toBigEndian_bigEndian]

namespace VariableRange

theorem length_bytes (r : VariableRange) : r.bytes.length = 6 := by
  simp [bytes, Binary.word16]

theorem exists_eq_bytes (l : List UInt8) (h : l.length = 6) : ∃ r : VariableRange, l = r.bytes := by
  obtain ⟨words, hwords, rfl⟩ := exists_flatMap_of_length_eq exists_eq_word16 3 l h
  obtain ⟨startPc, length, index, rfl⟩ := List.length_eq_three.1 hwords
  exact ⟨⟨startPc, length, index⟩, by simp [bytes]⟩

end VariableRange

namespace PathStep

theorem length_bytes (s : PathStep) : s.bytes.length = 2 := rfl

theorem exists_eq_bytes (l : List UInt8) (h : l.length = 2) : ∃ s : PathStep, l = s.bytes := by
  obtain ⟨kind, argument, rfl⟩ := List.length_eq_two.1 h
  exact ⟨⟨kind, argument⟩, rfl⟩

end PathStep

/-- The length of items of one width is all that is needed to pass over them. -/
theorem Decoder.reads_skip_flatMap {γ : Type} {f : γ → List UInt8} {width : Nat}
    (h : ∀ c, (f c).length = width) (l : List γ) :
    (skip (l.length * width)).Reads (l.flatMap f) fun _ => True := by
  rw [← length_flatMap_of_length_eq h]
  exact reads_skip _

theorem Decoder.passes_skip (n : Nat) : (skip n).Passes fun _ used => used.length = n := by
  refine ((passes_take n).map fun _ => ()).imp ?_
  rintro _ used ⟨bytes, -, -, hlength⟩
  exact hlength

namespace AnnotationTarget

theorem Written.reads_body {kind : UInt8} {target : AnnotationTarget} {written : List UInt8}
    (h : target.Written kind written) (offset : Nat) :
    (body kind offset).Reads written (· = target) := by
  cases h with
  | typeParameter h index =>
    rw [body, if_pos h]
    exact (reads_uint8 index).map fun i hi => by rw [hi]
  | supertype index => exact (reads_uint16 index).map fun i hi => by rw [hi]
  | typeParameterBound h parameter bound =>
    rcases h with rfl | rfl <;>
      exact (reads_uint8 parameter).bind fun i hi => (reads_uint8 bound).bind_pure fun j hj => by
        rw [hi, hj]
  | empty h =>
    have hbody : body kind offset = pure .empty := by grind [body]
    rw [hbody]
    exact reads_pure rfl
  | formalParameter index => exact (reads_uint8 index).map fun i hi => by rw [hi]
  | throws index => exact (reads_uint16 index).map fun i hi => by rw [hi]
  | @localVariable _ h entries table htable =>
    have hread := reads_skip_flatMap VariableRange.length_bytes table
    rw [htable] at hread
    rcases h with rfl | rfl <;>
      exact (reads_uint16 entries).bind fun i hi => by rw [hi]; exact hread.bind_pure fun _ _ => rfl
  | handler index => exact (reads_uint16 index).map fun i hi => by rw [hi]
  | offset h index =>
    have hbody : body kind offset = uint16 >>= fun i => pure (.offset i) := by
      rw [body, if_neg, if_neg, if_neg, if_neg, if_neg, if_neg, if_neg, if_neg, if_pos h]
      all_goals grind
    rw [hbody]
    exact (reads_uint16 index).bind_pure fun i hi => by rw [hi]
  | typeArgument h start index =>
    have hbody : body kind offset =
        uint16 >>= fun i => uint8 >>= fun j => pure (.typeArgument i j) := by
      rw [body, if_neg, if_neg, if_neg, if_neg, if_neg, if_neg, if_neg, if_neg, if_neg, if_pos h]
      all_goals grind
    rw [hbody]
    exact (reads_uint16 start).bind fun i hi => (reads_uint8 index).bind_pure fun j hj => by
      rw [hi, hj]

theorem passes_body (kind : UInt8) (offset : Nat) :
    (body kind offset).Passes fun target used => target.Written kind used := by
  refine passes_ite (fun h => ?_) fun _ => ?_
  · refine (passes_uint8.map typeParameter).imp ?_
    rintro target used ⟨index, rfl, rfl⟩
    exact .typeParameter h index
  refine passes_ite (fun h => ?_) fun _ => ?_
  · subst h
    refine (passes_uint16.map supertype).imp ?_
    rintro target used ⟨index, rfl, rfl⟩
    exact .supertype index
  refine passes_ite (fun h => ?_) fun _ => ?_
  · refine (passes_uint8.bind fun parameter => passes_uint8.map (typeParameterBound parameter)).imp ?_
    rintro target used ⟨parameter, _, _, rfl, rfl, bound, rfl, rfl⟩
    exact .typeParameterBound h parameter bound
  refine passes_ite (fun h => ?_) fun _ => ?_
  · refine (passes_pure empty).imp ?_
    rintro target used ⟨rfl, rfl⟩
    exact .empty h
  refine passes_ite (fun h => ?_) fun _ => ?_
  · subst h
    refine (passes_uint8.map formalParameter).imp ?_
    rintro target used ⟨index, rfl, rfl⟩
    exact .formalParameter index
  refine passes_ite (fun h => ?_) fun _ => ?_
  · subst h
    refine (passes_uint16.map throws).imp ?_
    rintro target used ⟨index, rfl, rfl⟩
    exact .throws index
  refine passes_ite (fun h => ?_) fun _ => ?_
  · refine (passes_uint16.bind fun entries => (passes_skip (entries.toNat * 6)).map fun _ =>
      localVariable entries).imp ?_
    rintro target used ⟨entries, _, table, rfl, rfl, _, rfl, hlength⟩
    obtain ⟨ranges, hranges, rfl⟩ :=
      exists_flatMap_of_length_eq VariableRange.exists_eq_bytes entries.toNat table hlength
    exact .localVariable h hranges
  refine passes_ite (fun h => ?_) fun _ => ?_
  · subst h
    refine (passes_uint16.map handler).imp ?_
    rintro target used ⟨index, rfl, rfl⟩
    exact .handler index
  refine passes_ite (fun h => ?_) fun _ => ?_
  · refine (passes_uint16.map AnnotationTarget.offset).imp ?_
    rintro target used ⟨index, rfl, rfl⟩
    exact .offset h index
  refine passes_ite (fun h => ?_) fun _ => passes_fail _ _
  refine (passes_uint16.bind fun offset => passes_uint8.map (typeArgument offset)).imp ?_
  rintro target used ⟨offset, _, _, rfl, rfl, index, rfl, rfl⟩
  exact .typeArgument h offset index

end AnnotationTarget

namespace TypeAnnotationInfo

/-- What stands in front of the annotation. -/
def header : Decoder (UInt8 × AnnotationTarget × UInt8) := do
  let offset ← position
  let kind ← uint8
  let target ← AnnotationTarget.body kind offset
  let pathLength ← uint8
  skip (pathLength.toNat * 2)
  return (kind, target, pathLength)

def HeaderWritten : UInt8 × AnnotationTarget × UInt8 → List UInt8 → Prop
  | (kind, target, pathLength), written => ∃ (first : List UInt8) (path : List PathStep),
    target.Written kind first ∧ path.length = pathLength.toNat ∧
    written = kind :: (first ++ (pathLength :: path.flatMap PathStep.bytes))

theorem reads_header (c : UInt8 × AnnotationTarget × UInt8) (written : List UInt8)
    (h : HeaderWritten c written) : header.Reads written (· = c) := by
  obtain ⟨kind, target, pathLength⟩ := c
  obtain ⟨first, path, htarget, hpath, rfl⟩ := h
  have hskip := reads_skip_flatMap PathStep.length_bytes path
  rw [hpath] at hskip
  refine reads_position.bind_nil fun offset _ => (reads_uint8 kind).bind fun i hi => ?_
  rw [hi]
  refine (htarget.reads_body offset).bind fun t ht => (reads_uint8 pathLength).bind fun j hj => ?_
  rw [hj, ht]
  exact hskip.bind_pure fun _ _ => rfl

theorem passes_header : header.Passes HeaderWritten := by
  refine (passes_position.bind fun offset => passes_uint8.bind fun kind =>
    (AnnotationTarget.passes_body kind offset).bind fun target => passes_uint8.bind fun length =>
      (passes_skip (length.toNat * 2)).map fun _ => (kind, target, length)).imp ?_
  rintro _ _ ⟨offset, _, _, rfl, rfl, kind, _, _, rfl, rfl, target, first, _, rfl, htarget,
    length, _, steps, rfl, rfl, _, rfl, hsteps⟩
  obtain ⟨path, hpath, rfl⟩ :=
    exists_flatMap_of_length_eq PathStep.exists_eq_bytes length.toNat steps hsteps
  exact ⟨first, path, htarget, hpath, rfl⟩

theorem decode_eq : decode = header >>= fun c => AnnotationInfo.decode >>= fun info =>
    pure ⟨c.1, c.2.1, c.2.2, info⟩ := by
  simp only [decode, header, bind_assoc, pure_bind]

theorem exactBelow_decode : decode.ExactBelow maxElementDepth Written Holds := by
  rw [decode_eq]
  refine (AnnotationInfo.exactBelow_decode.behind reads_header passes_header fun _ _ => rfl).congr
    fun t written => ?_
  constructor
  · rintro ⟨target, path, info, htarget, hpath, hinfo, rfl⟩
    exact ⟨(t.targetType, t.target, t.pathLength), t.info, _, info, rfl,
      ⟨target, path, htarget, hpath, rfl⟩, hinfo, by simp⟩
  · rintro ⟨c, info, _, others, rfl, ⟨target, path, htarget, hpath, rfl⟩, hinfo, rfl⟩
    exact ⟨target, path, others, htarget, hpath, hinfo, by simp⟩

end TypeAnnotationInfo

/-- Element values, annotations and annotations of uses of types are decoded from their written
forms, whatever follows, if all element values in them stand at a depth below 64, and from nothing
else. The written form of any other is rejected where an element value stands at depth 64. -/
theorem annotations_exact :
    (ElementValue.decode maxElementDepth).ExactBelow 64 ElementValue.Written ElementValue.Holds ∧
      AnnotationInfo.decode.ExactBelow 64 AnnotationInfo.Written AnnotationInfo.Holds ∧
      TypeAnnotationInfo.decode.ExactBelow 64 TypeAnnotationInfo.Written TypeAnnotationInfo.Holds :=
  ⟨ElementValue.exactBelow_decode 64, AnnotationInfo.exactBelow_decode,
    TypeAnnotationInfo.exactBelow_decode⟩

end ClassAtlas
