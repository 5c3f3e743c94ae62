import ClassAtlas.Descriptor.Cursor
import ClassAtlas.Proofs.Outcome

/-!
# What a reader of texts accepts

A reader of type texts passes over some characters, gives a value, and leaves the others unread. It
is described by a relation between the value, the characters it passed over and the unread ones:
the unread characters belong to the relation because a reader may look at them to know where to
stop.

## Main definitions

* `Scan.Accepts` says that a reader succeeds from a cursor exactly as a relation has it.
* `Scan.Repeats` is the relation of items one after the other.

## Main results

* `Scan.accepts_bind`: the relation of two readers one after the other.
* `Scan.accepts_repeatWhile`: a bound on the number of items does not show, as long as every item
  has a character.
* `Scan.run_eq_ok_iff` and `Scan.run_finish_eq_ok_iff`: the texts that are accepted as a whole.
-/

namespace ClassAtlas

theorem utf8Length_append (cs ds : List Char) :
    utf8Length (cs ++ ds) = utf8Length cs + utf8Length ds := sumOf_append _ cs ds

namespace Scan

variable {α β : Type} {c : Cursor}

/-- From the cursor `c` the reader gives `a`, passes over `used` and leaves `rest` unread exactly
if `R a used rest`. -/
def Accepts (s : Scan α) (c : Cursor) (R : α → List Char → List Char → Prop) : Prop :=
  ∀ a c', s c = .ok (a, c') ↔ ∃ used, c.rest = used ++ c'.rest ∧
    c'.position = c.position + utf8Length used ∧ R a used c'.rest

/-- Only the splits of the unread text matter. -/
theorem Accepts.congr {s : Scan α} {R Q : α → List Char → List Char → Prop} (h : s.Accepts c R)
    (hRQ : ∀ a used rest, c.rest = used ++ rest → (R a used rest ↔ Q a used rest)) :
    s.Accepts c Q := by
  intro a c'
  rw [h a c']
  constructor
  · rintro ⟨used, hrest, hposition, ha⟩
    exact ⟨used, hrest, hposition, (hRQ a used _ hrest).1 ha⟩
  · rintro ⟨used, hrest, hposition, ha⟩
    exact ⟨used, hrest, hposition, (hRQ a used _ hrest).2 ha⟩

/-! ## Steps -/

theorem accepts_pure (a : α) : (pure a : Scan α).Accepts c fun b used _ => b = a ∧ used = [] := by
  intro b c'
  constructor
  · rintro ⟨⟩
    exact ⟨[], by simp, by simp [utf8Length], rfl, rfl⟩
  · rintro ⟨used, hrest, hposition, rfl, rfl⟩
    obtain ⟨position, rest⟩ := c'
    simp only [List.nil_append, utf8Length, sumOf_nil, Nat.add_zero] at hrest hposition
    subst hrest hposition
    rfl

theorem accepts_failAt (position : Nat) (fault : Fault) {R : α → List Char → List Char → Prop}
    (h : ∀ a used rest, c.rest = used ++ rest → ¬ R a used rest) :
    (failAt position fault : Scan α).Accepts c R := by
  intro a c'
  constructor
  · rintro ⟨⟩
  · rintro ⟨used, hrest, -, ha⟩
    exact absurd ha (h a used _ hrest)

theorem accepts_fail (fault : Fault) {R : α → List Char → List Char → Prop}
    (h : ∀ a used rest, c.rest = used ++ rest → ¬ R a used rest) :
    (fail fault : Scan α).Accepts c R := accepts_failAt c.position fault h

/-- One reader after the other. -/
theorem accepts_bind {s : Scan α} {f : α → Scan β} {R : α → List Char → List Char → Prop}
    {Q : α → β → List Char → List Char → Prop} (hs : s.Accepts c R)
    (hf : ∀ a used d, c.rest = used ++ d.rest → R a used d.rest → (f a).Accepts d (Q a)) :
    (s >>= f).Accepts c fun b used rest =>
      ∃ a first second, used = first ++ second ∧ R a first (second ++ rest) ∧
        Q a b second rest := by
  intro b c'
  rw [stateBind_eq_ok_iff]
  constructor
  · rintro ⟨a, d, ha, hb⟩
    obtain ⟨first, hrest, hposition, ha⟩ := (hs a d).1 ha
    obtain ⟨second, hrest', hposition', hb⟩ := (hf a first d hrest ha b c').1 hb
    refine ⟨first ++ second, ?_, ?_, a, first, second, rfl, hrest' ▸ ha, hb⟩
    · rw [hrest, hrest', List.append_assoc]
    · rw [hposition', hposition, utf8Length_append, Nat.add_assoc]
  · rintro ⟨_, hrest, hposition, a, first, second, rfl, ha, hb⟩
    rw [List.append_assoc] at hrest
    rw [utf8Length_append, ← Nat.add_assoc] at hposition
    let d : Cursor := ⟨c.position + utf8Length first, second ++ c'.rest⟩
    exact ⟨a, d, (hs a d).2 ⟨first, hrest, rfl, ha⟩,
      (hf a first d hrest ha b c').2 ⟨second, rfl, hposition, hb⟩⟩

/-- A failure stays one, whatever was to follow. -/
theorem accepts_fail_bind (fault : Fault) (f : α → Scan β) {R : β → List Char → List Char → Prop}
    (h : ∀ b used rest, c.rest = used ++ rest → ¬ R b used rest) :
    (fail fault >>= f).Accepts c R := accepts_fail fault h

theorem accepts_failAt_bind (position : Nat) (fault : Fault) (f : α → Scan β)
    {R : β → List Char → List Char → Prop}
    (h : ∀ b used rest, c.rest = used ++ rest → ¬ R b used rest) :
    (failAt position fault >>= f).Accepts c R := accepts_failAt position fault h

/-- A value that is computed from the one that was read. -/
theorem Accepts.map {s : Scan α} {R : α → List Char → List Char → Prop} (hs : s.Accepts c R)
    (f : α → β) : (s >>= fun a => pure (f a)).Accepts c fun b used rest =>
      ∃ a, b = f a ∧ R a used rest := by
  refine (accepts_bind hs fun a _ d _ _ => accepts_pure (f a)).congr fun b used rest _ => ?_
  constructor
  · rintro ⟨a, first, _, rfl, ha, rfl, rfl⟩
    exact ⟨a, rfl, by simpa using ha⟩
  · rintro ⟨a, rfl, ha⟩
    exact ⟨a, used, [], by simp, by simpa using ha, rfl, rfl⟩

theorem accepts_get_bind {f : Cursor → Scan β} {R : β → List Char → List Char → Prop}
    (h : (f c).Accepts c R) : (get >>= f).Accepts c R := h

theorem accepts_position_bind {f : Nat → Scan β} {R : β → List Char → List Char → Prop}
    (h : (f c.position).Accepts c R) : (position >>= f).Accepts c R := h

theorem accepts_peek_bind {f : Option Char → Scan β} {R : β → List Char → List Char → Prop}
    (h : (f c.rest.head?).Accepts c R) : (peek >>= f).Accepts c R := h

theorem accepts_drop (n : Nat) :
    (modify (·.drop n) : Scan Unit).Accepts c fun _ used _ => used = c.rest.take n := by
  intro a c'
  change Except.ok ((), c.drop n) = .ok (a, c') ↔ _
  constructor
  · rintro ⟨⟩
    exact ⟨c.rest.take n, by simp [Cursor.drop], rfl, rfl⟩
  · rintro ⟨used, hrest, hposition, rfl⟩
    obtain ⟨position, rest⟩ := c'
    have hdrop : rest = c.rest.drop n :=
      List.append_cancel_left (hrest.symm.trans (List.take_append_drop n c.rest).symm)
    simp only at hposition
    rw [Cursor.drop, ← hdrop, hposition]

theorem accepts_advance {first : Char} {others : List Char} (h : c.rest = first :: others) :
    advance.Accepts c fun _ used _ => used = [first] :=
  (accepts_drop 1).congr fun _ used _ _ => by simp [h]

theorem accepts_advance_bind {first : Char} {others : List Char} {f : Unit → Scan β}
    {R : β → List Char → List Char → Prop} (h : c.rest = first :: others)
    (hf : ∀ d, (f ()).Accepts d R) : (advance >>= f).Accepts c fun b used rest =>
      ∃ second, used = first :: second ∧ R b second rest := by
  refine (accepts_bind (accepts_advance h) fun _ _ d _ _ => hf d).congr fun b used rest _ => ?_
  constructor
  · rintro ⟨_, _, second, rfl, rfl, hb⟩
    exact ⟨second, rfl, hb⟩
  · rintro ⟨second, rfl, hb⟩
    exact ⟨(), [first], second, rfl, rfl, hb⟩

theorem accepts_eat (ch : Char) : (eat ch).Accepts c fun found used rest =>
    used = (if found then [ch] else []) ∧ (found = false → rest.head? ≠ some ch) := by
  refine accepts_peek_bind ?_
  split
  · next hnext =>
    obtain ⟨others, hothers⟩ := List.head?_eq_some_iff.1 hnext
    refine ((accepts_advance hothers).map _).congr fun found used rest hrest => ?_
    cases found with
    | true => simp
    | false =>
      simp only [Bool.false_eq_true, if_false, false_and, exists_false, false_iff]
      rintro ⟨rfl, hstop⟩
      rw [hothers] at hrest
      exact hstop trivial (by rw [← List.nil_append rest, ← hrest]; rfl)
  · next hnext =>
    refine (accepts_pure false).congr fun found used rest hrest => ?_
    cases found with
    | true =>
      simp only [Bool.true_eq_false, false_and, if_true, false_iff]
      rintro ⟨rfl, -⟩
      exact hnext (by rw [hrest]; rfl)
    | false =>
      simp only [true_and, Bool.false_eq_true, if_false, forall_const]
      constructor
      · rintro rfl
        exact ⟨rfl, by rwa [hrest, List.nil_append] at hnext⟩
      · exact And.left

theorem accepts_expect (ch : Char) (fault : Fault) :
    (expect ch fault).Accepts c fun _ used _ => used = [ch] := by
  refine (accepts_bind (accepts_eat ch) (Q := fun found _ second _ => found = true ∧ second = [])
    fun found used d _ hfound => ?_).congr fun _ used rest _ => ?_
  · cases found with
    | true => exact (accepts_pure ()).congr fun _ _ _ _ => by simp
    | false => exact accepts_fail fault (by simp)
  · constructor
    · rintro ⟨found, first, _, rfl, ⟨rfl, -⟩, rfl, rfl⟩
      simp
    · rintro rfl
      exact ⟨true, [ch], [], rfl, ⟨rfl, by simp⟩, rfl, rfl⟩

/-- The leading characters that pass a test end before the first that does not. -/
theorem eq_takeWhile_iff {p : Char → Bool} {cs used rest : List Char} (h : cs = used ++ rest) :
    used = cs.takeWhile p ↔ (∀ ch ∈ used, p ch) ∧ ∀ ch ∈ rest.head?, ¬ p ch := by
  constructor
  · rintro rfl
    have hrest : rest = cs.dropWhile p :=
      List.append_cancel_left (h.symm.trans List.takeWhile_append_dropWhile.symm)
    refine ⟨fun ch hch => List.all_eq_true.1 List.all_takeWhile ch hch, fun ch hch => ?_⟩
    have hstop := List.head?_dropWhile_not p cs
    rw [← hrest, Option.mem_def.1 hch] at hstop
    simpa using hstop
  · rintro ⟨hused, hrest⟩
    have hstop : rest.takeWhile p = [] := by
      cases rest with
      | nil => rfl
      | cons ch rest => exact List.takeWhile_cons_of_neg (hrest ch rfl)
    rw [h, List.takeWhile_append_of_pos hused, hstop, List.append_nil]

theorem accepts_drop_takeWhile (p : Char → Bool) :
    (modify (·.drop (c.rest.takeWhile p).length) : Scan Unit).Accepts c fun _ used _ =>
      used = c.rest.takeWhile p := by
  refine (accepts_drop _).congr fun _ used _ _ => ?_
  rw [← List.prefix_iff_eq_take.1 (List.takeWhile_prefix p)]

theorem accepts_takeUntil (stops : List Char) :
    (takeUntil stops).Accepts c fun taken used rest =>
      taken = used ∧ (∀ ch ∈ used, ch ∉ stops) ∧ ∀ ch ∈ rest.head?, ch ∈ stops := by
  refine accepts_get_bind (((accepts_drop_takeWhile _).map _).congr fun taken used rest hrest => ?_)
  have htext := eq_takeWhile_iff (p := fun ch => !stops.contains ch) hrest
  simp only [Bool.not_eq_true', List.contains_eq_mem, decide_eq_false_iff_not,
    Decidable.not_not] at htext
  rw [exists_const, ← htext]
  constructor
  · rintro ⟨rfl, rfl⟩
    exact ⟨by simp, by simp⟩
  · rintro ⟨rfl, hused⟩
    exact ⟨by simpa using hused, by simpa using hused⟩

/-! ## Repetition -/

/-- Items one after the other, each of them announced by its first character; the character after
the last one announces none. -/
inductive Repeats (more : Option Char → Bool) (R : α → List Char → List Char → Prop) :
    List α → List Char → List Char → Prop where
  | nil {rest : List Char} (hstop : more rest.head? = false) : Repeats more R [] [] rest
  | cons {a : α} {l : List α} {first others rest : List Char}
    (hmore : more (first ++ (others ++ rest)).head? = true) (hfirst : R a first (others ++ rest))
    (hothers : Repeats more R l others rest) : Repeats more R (a :: l) (first ++ others) rest

/-- Items whose texts do not depend on what follows. -/
theorem repeats_iff {more : Option Char → Bool} {text : α → List Char} {P : α → Prop}
    (hmore : ∀ a, P a → ∀ rest, more (text a ++ rest).head? = true) {l : List α}
    {used rest : List Char} :
    Repeats more (fun a used _ => used = text a ∧ P a) l used rest ↔
      used = l.flatMap text ∧ (∀ a ∈ l, P a) ∧ more rest.head? = false := by
  constructor
  · intro h
    induction h with
    | nil hstop => exact ⟨rfl, by simp, hstop⟩
    | cons _ hfirst _ ih =>
      obtain ⟨rfl, ha⟩ := hfirst
      obtain ⟨rfl, hl, hstop⟩ := ih
      exact ⟨rfl, List.forall_mem_cons.2 ⟨ha, hl⟩, hstop⟩
  · rintro ⟨rfl, hl, hstop⟩
    induction l with
    | nil => exact .nil hstop
    | cons a l ih =>
      obtain ⟨ha, hl⟩ := List.forall_mem_cons.1 hl
      exact .cons (hmore a ha _) ⟨rfl, ha⟩ (ih hl)

theorem accepts_repeatUpTo {more : Option Char → Bool} {item : Scan α}
    {R : α → List Char → List Char → Prop}
    (hitem : ∀ c, more c.rest.head? = true → item.Accepts c R)
    (hne : ∀ a used rest, R a used rest → used ≠ []) (hend : more none = false) (n : Nat)
    (hn : c.rest.length ≤ n) : (repeatUpTo more item n).Accepts c (Repeats more R) := by
  induction n generalizing c with
  | zero =>
    have hnil : c.rest = [] := by simpa using hn
    refine (accepts_pure []).congr fun l used rest hrest => ?_
    rw [hnil, List.nil_eq, List.append_eq_nil_iff] at hrest
    obtain ⟨rfl, rfl⟩ := hrest
    constructor
    · rintro ⟨rfl, -⟩
      exact .nil hend
    · intro h
      generalize hused : ([] : List Char) = used at h
      cases h with
      | nil => exact ⟨rfl, rfl⟩
      | cons hmore hfirst _ => simp [hne _ _ _ hfirst] at hused
  | succ n ih =>
    refine accepts_peek_bind ?_
    split
    · next hmore =>
      refine (accepts_bind (hitem c hmore) fun a used d hrest ha => (ih ?_).map (a :: ·)).congr
        fun l used rest hrest => ?_
      · have := List.length_pos_iff.2 (hne a used _ ha)
        rw [hrest, List.length_append] at hn
        omega
      · constructor
        · rintro ⟨a, first, others, rfl, ha, l, rfl, hl⟩
          exact .cons (by rw [← List.append_assoc, ← hrest, hmore]) ha hl
        · rintro (hstop | ⟨_, ha, hl⟩)
          · rw [List.nil_append] at hrest
            rw [← hrest, hmore] at hstop
            cases hstop
          · exact ⟨_, _, _, rfl, ha, _, rfl, hl⟩
    · next hmore =>
      refine (accepts_pure []).congr fun l used rest hrest => ?_
      constructor
      · rintro ⟨rfl, rfl⟩
        exact .nil (by rw [List.nil_append] at hrest; simpa [hrest] using hmore)
      · rintro (_ | ⟨hmore', _, _⟩)
        · exact ⟨rfl, rfl⟩
        · rw [← List.append_assoc, ← hrest] at hmore'
          exact absurd hmore' hmore

theorem accepts_repeatWhile {more : Option Char → Bool} {item : Scan α}
    {R : α → List Char → List Char → Prop}
    (hitem : ∀ c, more c.rest.head? = true → item.Accepts c R)
    (hne : ∀ a used rest, R a used rest → used ≠ []) (hend : more none = false) :
    (repeatWhile more item).Accepts c (Repeats more R) :=
  accepts_get_bind (accepts_repeatUpTo hitem hne hend _ (Nat.le_refl _))

/-! ## Whole texts -/

theorem accepts_finish : finish.Accepts c fun _ used rest => used = [] ∧ rest = [] := by
  refine accepts_peek_bind ?_
  split
  · next hsome =>
    refine accepts_fail _ ?_
    rintro _ _ _ hrest ⟨rfl, rfl⟩
    simp [hrest] at hsome
  · next hnone =>
    refine (accepts_pure ()).congr fun _ used rest hrest => ?_
    have hnil : c.rest = [] := by simpa using hnone
    simp_all

/-- A text is accepted exactly if a reader that leaves nothing unread can pass over it. -/
theorem run_eq_ok_iff {s : Scan α} {R : α → List Char → List Char → Prop} {text : String}
    (hs : ∀ c, s.Accepts c R) (hend : ∀ a used rest, R a used rest → rest = []) {a : α} :
    s.run text = .ok a ↔ R a text.toList [] := by
  constructor
  · intro h
    rw [run] at h
    split at h
    · next b c hrun =>
      cases h
      obtain ⟨used, hrest, -, ha⟩ := (hs _ _ _).1 hrun
      have hnil := hend _ _ _ ha
      rw [hnil] at ha hrest
      simp only [List.append_nil] at hrest
      rwa [hrest]
    · cases h
  · intro ha
    have hrun := (hs ⟨0, text.toList⟩ a ⟨0 + utf8Length text.toList, []⟩).2
      ⟨text.toList, by simp, rfl, ha⟩
    rw [run, StateT.run, hrun]

/-- A text is accepted as a whole exactly if the reader can pass over all of it. -/
theorem run_finish_eq_ok_iff {s : Scan α} {R : α → List Char → List Char → Prop} {text : String}
    (hs : ∀ c, s.Accepts c R) {a : α} : (s <* finish).run text = .ok a ↔ R a text.toList [] := by
  have hwhole (c : Cursor) :
      (s <* finish).Accepts c fun a used rest => R a used rest ∧ rest = [] := by
    refine (accepts_bind (hs c) fun a _ d _ _ => accepts_finish.map fun _ => a).congr
      fun b used rest _ => ?_
    constructor
    · rintro ⟨a, first, _, rfl, ha, _, rfl, rfl, rfl⟩
      exact ⟨by simpa using ha, rfl⟩
    · rintro ⟨hb, rfl⟩
      exact ⟨b, used, [], by simp, by simpa using hb, (), rfl, rfl, rfl⟩
  rw [run_eq_ok_iff hwhole fun _ _ _ h => h.2, and_iff_left rfl]

end Scan

end ClassAtlas
