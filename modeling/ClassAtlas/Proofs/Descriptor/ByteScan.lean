import ClassAtlas.Proofs.Text.Boundaries

/-!
# Reading type texts by their bytes

A reader of bytes moves its position one byte at a time, so it may stop inside a character. It cuts
names out of the text, which is impossible unless both ends are between characters. All the marks of
both grammars are below 128, though: a reader that goes on behind a byte has seen a character.

## Main definitions

* `ByteScan` is a reader of bytes. It crashes where a cut is impossible, where it would have to go back
  behind the start, and where it goes on without an end.
* `ByteScan.FollowsAt` says that a reader of bytes gives what a reader of characters gives, ends at the
  same position, and reports errors at positions between characters.

The rules below follow the ways in which readers are put together.
-/

namespace ClassAtlas

/-- Why a reader of bytes stops. -/
inductive ByteFault where
  | malformed (position : Nat) (fault : Fault)
  | crash
  deriving DecidableEq

/-- A reader of the bytes of a text. Its state is the position of the next byte. -/
abbrev ByteScan (α : Type) := ReaderT String (StateT Nat (Except ByteFault)) α

namespace ByteScan

variable {α β : Type}

def crash : ByteScan α := throw .crash

/-- Rejects the text at a given position. -/
def failAt (position : Nat) (fault : Fault) : ByteScan α := throw (.malformed position fault)

/-- The current position. -/
def position : ByteScan Nat := get

/-- Rejects the text at the current position. -/
def fail (fault : Fault) : ByteScan α := do failAt (← position) fault

/-- The bytes that are unread. -/
def unread : ByteScan (List UInt8) := return (Text.bytes (← read)).drop (← position)

/-- The next byte, which stays unread, as the character that has its number. -/
def peek : ByteScan (Option Char) := return (← unread).head?.map Text.codeOf

/-- Passes over the next byte. -/
def advance : ByteScan Unit := modify (· + 1)

/-- Passes over the next byte if it is `c`. -/
def eat (c : Char) : ByteScan Bool := do
  if (← peek) = some c then
    advance
    return true
  return false

/-- Passes over the next byte, which has to be `c`. -/
def expect (c : Char) (fault : Fault) : ByteScan Unit := do
  if !(← eat c) then fail fault

/-- The characters between two positions, which have to be between characters. -/
def slice (first last : Nat) : ByteScan (List Char) := do
  let text ← read
  if first ≤ last ∧ String.Pos.Raw.IsValid text ⟨first⟩ ∧ String.Pos.Raw.IsValid text ⟨last⟩ then
    match Text.utf8Decode? (((Text.bytes text).drop first).take (last - first)) with
    | some cs => return cs
    | none => crash
  else crash

/-- Passes over the leading bytes whose character passes a test, and gives their number. -/
def skipWhile (test : Char → Bool) : ByteScan Nat := do
  let skipped := ((← unread).takeWhile (test ∘ Text.codeOf)).length
  modify (· + skipped)
  return skipped

/-- Reads up to the first of the characters `stops`, which stays unread, or to the end. -/
def takeUntil (stops : List Char) : ByteScan (List Char) := do
  let start ← position
  let taken ← skipWhile fun c => !stops.contains c
  slice start (start + taken)

/-- The position one byte back. -/
def oneBefore (position : Nat) : ByteScan Nat := if position = 0 then crash else return position - 1

/-- Reads `item` again and again while the next byte satisfies `more`, at most `n` times. -/
def repeatUpTo (more : Option Char → Bool) (item : ByteScan α) : Nat → ByteScan (List α)
  | 0 => do
    if more (← peek) then crash
    return []
  | n + 1 => do
    if more (← peek) then
      let first ← item
      let others ← repeatUpTo more item n
      return first :: others
    return []

/-- Reads `item` again and again while the next byte satisfies `more`, as often as there are unread
bytes. -/
def repeatWhile (more : Option Char → Bool) (item : ByteScan α) : ByteScan (List α) := do
  repeatUpTo more item (← unread).length

/-- The whole text has to be read. -/
def finish : ByteScan Unit := do
  if (← peek).isSome then fail .trailingCharacters

/-- Reads a text from its start; there is no result if the reader crashes. -/
def run (scan : ByteScan α) (text : String) : Option (Except Malformed α) :=
  match (ReaderT.run scan text).run 0 with
  | .ok (a, _) => some (.ok a)
  | .error (.malformed position fault) => some (.error ⟨text, position, fault⟩)
  | .error .crash => none

end ByteScan

/-! ## Cursors in a text -/

/-- The cursor stands between two characters of the text, or at one of its ends. -/
def Cursor.StandsIn (c : Cursor) (text : String) : Prop :=
  ∃ before, text.toList = before ++ c.rest ∧ c.position = utf8Length before

/-- Behind the leading characters that pass a test. -/
theorem Cursor.position_drop_takeWhile (c : Cursor) (test : Char → Bool) :
    (c.drop (c.rest.takeWhile test).length).position =
      c.position + utf8Length (c.rest.takeWhile test) := by
  rw [Cursor.drop, ← List.prefix_iff_eq_take.1 (List.takeWhile_prefix test)]

namespace Cursor.StandsIn

variable {c : Cursor} {text : String}

theorem start (text : String) : Cursor.StandsIn ⟨0, text.toList⟩ text := ⟨[], rfl, rfl⟩

theorem isValid (h : c.StandsIn text) : String.Pos.Raw.IsValid text ⟨c.position⟩ := by
  obtain ⟨before, htext, hposition⟩ := h
  rw [hposition]
  exact Text.isValid_of_toList_eq htext

theorem drop_bytes (h : c.StandsIn text) :
    (Text.bytes text).drop c.position = Text.utf8Encode c.rest := by
  obtain ⟨before, htext, hposition⟩ := h
  rw [Text.bytes_eq_utf8Encode, htext, hposition, Text.utf8Encode_append, ← Text.length_utf8Encode,
    List.drop_left]

/-- Behind some more characters. -/
theorem of_append (h : c.StandsIn text) {used rest : List Char} (hrest : c.rest = used ++ rest) :
    Cursor.StandsIn ⟨c.position + utf8Length used, rest⟩ text := by
  obtain ⟨before, htext, hposition⟩ := h
  exact ⟨before ++ used, by rw [htext, hrest, List.append_assoc], by
    rw [utf8Length_append, hposition]⟩

theorem drop (h : c.StandsIn text) (k : Nat) : (c.drop k).StandsIn text :=
  h.of_append (List.take_append_drop k c.rest).symm

end Cursor.StandsIn

namespace ByteScan

variable {α β : Type} {text : String} {c : Cursor} {n : Nat}

/-! ## Readers that go through a text alike -/

/-- The outcomes are the same. A value leaves at most `n` characters unread; an error is reported
between two characters. -/
def Alike (text : String) (n : Nat) (x : Except ByteFault (α × Nat)) :
    Except (Nat × Fault) (α × Cursor) → Prop
  | .ok (a, d) => x = .ok (a, d.position) ∧ d.StandsIn text ∧ d.rest.length ≤ n
  | .error (position, fault) =>
    x = .error (.malformed position fault) ∧ String.Pos.Raw.IsValid text ⟨position⟩

/-- From the cursor `c` the reader of bytes goes through the text as the reader of characters does, and
leaves at most `n` characters unread. -/
def FollowsAt (text : String) (c : Cursor) (n : Nat) (b : ByteScan α) (s : Scan α) : Prop :=
  Alike text n (b text c.position) (s c)

theorem follows_pure (hc : c.StandsIn text) (hn : c.rest.length ≤ n) (a : α) :
    FollowsAt text c n (pure a) (pure a) := ⟨rfl, hc, hn⟩

theorem follows_failAt {p : Nat} (hp : String.Pos.Raw.IsValid text ⟨p⟩) (fault : Fault) :
    FollowsAt text c n (failAt p fault : ByteScan α) (Scan.failAt p fault) := ⟨rfl, hp⟩

theorem follows_fail (hc : c.StandsIn text) (fault : Fault) :
    FollowsAt text c n (fail fault : ByteScan α) (Scan.fail fault) := ⟨rfl, hc.isValid⟩

/-- A failure stays one, whatever was to follow. -/
theorem follows_fail_bind (hc : c.StandsIn text) (fault : Fault) (f : α → ByteScan β)
    (g : α → Scan β) : FollowsAt text c n (fail fault >>= f) (Scan.fail fault >>= g) :=
  ⟨rfl, hc.isValid⟩

theorem follows_failAt_bind {p : Nat} (hp : String.Pos.Raw.IsValid text ⟨p⟩) (fault : Fault)
    (f : α → ByteScan β) (g : α → Scan β) :
    FollowsAt text c n (failAt p fault >>= f) (Scan.failAt p fault >>= g) := ⟨rfl, hp⟩

/-- One reader after the other. -/
theorem FollowsAt.bind {b : ByteScan α} {s : Scan α} {f : α → ByteScan β} {g : α → Scan β} {m : Nat}
    (h : FollowsAt text c m b s)
    (hf : ∀ a d, d.StandsIn text → d.rest.length ≤ m → FollowsAt text d n (f a) (g a)) :
    FollowsAt text c n (b >>= f) (s >>= g) := by
  rw [FollowsAt] at h
  change Alike text n (b text c.position >>= fun p => f p.1 text p.2) (s c >>= fun p => g p.1 p.2)
  generalize b text c.position = x at h
  generalize s c = y at h
  rcases y with ⟨position, fault⟩ | ⟨a, d⟩
  · obtain ⟨rfl, hvalid⟩ := h
    exact ⟨rfl, hvalid⟩
  · obtain ⟨rfl, hd, hm⟩ := h
    exact hf a d hd hm

theorem FollowsAt.mono {b : ByteScan α} {s : Scan α} {m : Nat} (h : FollowsAt text c m b s)
    (hmn : m ≤ n) : FollowsAt text c n b s := by
  rw [FollowsAt] at h ⊢
  generalize s c = y at h ⊢
  rcases y with ⟨position, fault⟩ | ⟨a, d⟩
  · exact h
  · exact ⟨h.1, h.2.1, Nat.le_trans h.2.2 hmn⟩

theorem FollowsAt.map {b : ByteScan α} {s : Scan α} (h : FollowsAt text c n b s) (f : α → β) :
    FollowsAt text c n (f <$> b) (f <$> s) :=
  h.bind fun a _ hd hn => follows_pure hd hn (f a)

theorem follows_position_bind {f : Nat → ByteScan β} {g : Nat → Scan β}
    (h : FollowsAt text c n (f c.position) (g c.position)) :
    FollowsAt text c n (position >>= f) (Scan.position >>= g) := h

/-- The position may be of use to the reader of bytes alone. -/
theorem follows_of_position_bind {f : Nat → ByteScan α} {s : Scan α}
    (h : FollowsAt text c n (f c.position) s) : FollowsAt text c n (position >>= f) s := h

theorem unread_bind_apply (hc : c.StandsIn text) (f : List UInt8 → ByteScan β) :
    (unread >>= f) text c.position = f (Text.utf8Encode c.rest) text c.position := by
  rw [← hc.drop_bytes]
  rfl

/-! ## Characters and their first bytes -/

/-- Characters from 128 on are all treated alike. -/
def SameAbove (test : Char → Bool) : Prop :=
  ∀ a b : Char, 128 ≤ a.toNat → 128 ≤ b.toNat → test a = test b

theorem SameAbove.codeOf_eq {test : Char → Bool} (h : SameAbove test) {ch : Char} {b : UInt8}
    (hb : b ∈ String.utf8EncodeChar ch) : test (Text.codeOf b) = test ch := by
  rcases Nat.lt_or_ge ch.toNat 128 with hlt | hge
  · rw [Text.utf8EncodeChar_of_lt hlt, List.mem_singleton] at hb
    rw [hb, Text.codeOf_lead_of_lt hlt]
  · refine h _ _ ?_ hge
    rw [Text.toNat_codeOf]
    exact Text.le_of_mem_utf8EncodeChar hge b hb

theorem lead_mem_utf8EncodeChar (ch : Char) : Text.lead ch ∈ String.utf8EncodeChar ch := by
  obtain ⟨others, heq⟩ := Text.exists_utf8EncodeChar_eq ch
  rw [heq]
  exact List.mem_cons_self

theorem sameAbove_eq {a : Char} (ha : a.toNat < 128) : SameAbove (· = a) := by
  intro b d hb hd
  have hne {e : Char} (he : 128 ≤ e.toNat) : ¬e = a := by
    rintro rfl
    omega
  simp only [hne hb, hne hd]

theorem sameAbove_stops {stops : List Char} (h : stops.all (·.toNat < 128) = true) :
    SameAbove fun ch => !stops.contains ch := by
  intro b d hb hd
  have hnot {e : Char} (he : 128 ≤ e.toNat) : e ∉ stops := fun hmem => by
    have hlt := of_decide_eq_true (List.all_eq_true.1 h e hmem)
    omega
  simp only [List.contains_eq_mem, hnot hb, hnot hd]

/-- The character of the first byte of a character that may be there. -/
def firstCode (next : Option Char) : Option Char := next.map (Text.codeOf ∘ Text.lead)

theorem firstCode_eq_some_iff {a : Char} (ha : a.toNat < 128) {next : Option Char} :
    firstCode next = some a ↔ next = some a := by
  cases next with
  | none => rfl
  | some ch => simp only [firstCode, Option.map_some, Function.comp, Option.some_inj,
      Text.codeOf_lead_eq_iff ha]

theorem isSome_firstCode (next : Option Char) : (firstCode next).isSome = next.isSome :=
  Option.isSome_map

/-! ## Steps -/

theorem head?_utf8Encode (cs : List Char) :
    (Text.utf8Encode cs).head?.map Text.codeOf = firstCode cs.head? := by
  cases cs with
  | nil => rfl
  | cons ch others =>
    obtain ⟨bytes, hbytes⟩ := Text.exists_utf8EncodeChar_eq ch
    rw [Text.utf8Encode, List.flatMap_cons, hbytes]
    rfl

/-- The next byte is the first one of the next character. -/
theorem peek_bind_apply (hc : c.StandsIn text) (f : Option Char → ByteScan β) :
    (peek >>= f) text c.position = f (firstCode c.rest.head?) text c.position := by
  rw [← head?_utf8Encode, ← hc.drop_bytes]
  rfl

theorem follows_peek_bind {f : Option Char → ByteScan β} {g : Option Char → Scan β}
    (hc : c.StandsIn text) (h : FollowsAt text c n (f (firstCode c.rest.head?)) (g c.rest.head?)) :
    FollowsAt text c n (peek >>= f) (Scan.peek >>= g) := by
  rw [FollowsAt, peek_bind_apply hc]
  exact h

/-- A byte below 128 is a whole character. -/
theorem follows_advance_bind {ch : Char} {f : Unit → ByteScan β} {g : Unit → Scan β}
    (hc : c.StandsIn text) (hnext : c.rest.head? = some ch) (hch : ch.toNat < 128)
    (h : ∀ d, d.StandsIn text → d.position = c.position + 1 → d.rest.length ≤ c.rest.length - 1 →
      FollowsAt text d n (f ()) (g ())) :
    FollowsAt text c n (advance >>= f) (Scan.advance >>= g) := by
  obtain ⟨others, hothers⟩ := List.head?_eq_some_iff.1 hnext
  have hposition : (c.drop 1).position = c.position + 1 := by
    rw [Cursor.drop, hothers, ← Text.length_utf8Encode]
    simp [Text.utf8Encode, Text.utf8EncodeChar_of_lt hch]
  have hrest : FollowsAt text (c.drop 1) n (f ()) (g ()) :=
    h _ (hc.drop 1) hposition (by simp [Cursor.drop])
  rw [FollowsAt, hposition] at hrest
  exact hrest

theorem follows_eat_bind {ch : Char} {f : Bool → ByteScan β} {g : Bool → Scan β}
    (hc : c.StandsIn text) (hch : ch.toNat < 128)
    (hfound : ∀ d, d.StandsIn text → d.rest.length ≤ c.rest.length - 1 →
      FollowsAt text d n (f true) (g true))
    (hother : FollowsAt text c n (f false) (g false)) :
    FollowsAt text c n (eat ch >>= f) (Scan.eat ch >>= g) := by
  rw [eat, Scan.eat, bind_assoc, bind_assoc]
  refine follows_peek_bind hc ?_
  simp only [firstCode_eq_some_iff hch]
  split
  · next hnext =>
    rw [bind_assoc, bind_assoc]
    exact follows_advance_bind hc hnext hch fun d hd _ hn => hfound d hd hn
  · exact hother

theorem follows_expect {ch : Char} (hc : c.StandsIn text) (hch : ch.toNat < 128) (fault : Fault) :
    FollowsAt text c (c.rest.length - 1) (expect ch fault) (Scan.expect ch fault) :=
  follows_eat_bind hc hch (fun _ hd hn => follows_pure hd hn ()) (follows_fail hc fault)

/-! ## Leading parts -/

theorem skipWhile_apply {test : Char → Bool} (hc : c.StandsIn text) (htest : SameAbove test) :
    skipWhile test text c.position = .ok (utf8Length (c.rest.takeWhile test),
      (c.drop (c.rest.takeWhile test).length).position) := by
  have htaken := Text.takeWhile_utf8Encode (p := test) (q := test ∘ Text.codeOf)
    (fun ch hpos b hb => (htest.codeOf_eq hb).trans hpos)
    (fun ch hneg => (htest.codeOf_eq (lead_mem_utf8EncodeChar ch)).trans hneg) c.rest
  rw [skipWhile, unread_bind_apply hc, htaken, Text.length_utf8Encode, c.position_drop_takeWhile]
  rfl

/-- What lies between two cursors can be cut out. -/
theorem slice_apply (hc : c.StandsIn text) {used rest : List Char} (hrest : c.rest = used ++ rest)
    (p : Nat) : slice c.position (c.position + utf8Length used) text p = .ok (used, p) := by
  have hcut : ((Text.bytes text).drop c.position).take (c.position + utf8Length used - c.position) =
      Text.utf8Encode used := by
    rw [hc.drop_bytes, hrest, Text.utf8Encode_append, Nat.add_sub_cancel_left,
      ← Text.length_utf8Encode, List.take_left]
  have hvalid := (hc.of_append hrest).isValid
  change (if _ then _ else _ : ByteScan _) text p = _
  rw [if_pos ⟨Nat.le_add_right .., hc.isValid, hvalid⟩, hcut, Text.utf8Decode?_utf8Encode]
  rfl

theorem follows_takeUntil_bind {stops : List Char} {f : List Char → ByteScan β}
    {g : List Char → Scan β} (hc : c.StandsIn text) (hstops : stops.all (·.toNat < 128) = true)
    (h : ∀ taken d, d.StandsIn text → d.rest.length + taken.length = c.rest.length →
      FollowsAt text d n (f taken) (g taken)) :
    FollowsAt text c n (takeUntil stops >>= f) (Scan.takeUntil stops >>= g) := by
  let taken := c.rest.takeWhile fun ch => !stops.contains ch
  have hprefix : taken <+: c.rest := List.takeWhile_prefix _
  have hrest : c.rest = taken ++ c.rest.drop taken.length := (List.prefix_iff_eq_append.1 hprefix).symm
  have hbytes : takeUntil stops text c.position = .ok (taken, (c.drop taken.length).position) := by
    change (skipWhile _ text c.position >>= fun p => slice c.position (c.position + p.1) text p.2) = _
    rw [skipWhile_apply hc (sameAbove_stops hstops)]
    exact slice_apply hc hrest _
  have hlength : (c.drop taken.length).rest.length + taken.length = c.rest.length := by
    have hle := hprefix.length_le
    rw [Cursor.drop, List.length_drop]
    omega
  change Alike text n (takeUntil stops text c.position >>= fun p => f p.1 text p.2) _
  rw [hbytes]
  exact h taken _ (hc.drop taken.length) hlength

/-! ## Repetition -/

section Repetition

variable {more : Option Char → Bool} {item : ByteScan α} {scan : Scan α}

theorem follows_repeatUpTo_of_stop (hmore : ∀ next, more (firstCode next) = more next)
    (hc : c.StandsIn text) (hstop : more c.rest.head? = false) (k m : Nat) :
    FollowsAt text c c.rest.length (repeatUpTo more item k) (Scan.repeatUpTo more scan m) := by
  have hbytes : repeatUpTo more item k text c.position = .ok ([], c.position) := by
    cases k <;> rw [repeatUpTo, peek_bind_apply hc, hmore, hstop] <;> rfl
  have hscan : Scan.repeatUpTo more scan m c = .ok ([], c) := by
    cases m with
    | zero => rfl
    | succ m =>
      change (if more c.rest.head? = true then _ else _ : Scan _) c = _
      rw [hstop]
      rfl
  rw [FollowsAt, hbytes, hscan]
  exact ⟨rfl, hc, Nat.le_refl _⟩

/-- The bounds on the number of items do not show, since every item has a character. -/
theorem follows_repeatUpTo (hmore : ∀ next, more (firstCode next) = more next)
    (hend : more none = false)
    (hitem : ∀ c, c.StandsIn text → more c.rest.head? = true →
      FollowsAt text c (c.rest.length - 1) item scan) {k m : Nat} (hc : c.StandsIn text)
    (hk : c.rest.length ≤ k) (hm : c.rest.length ≤ m) :
    FollowsAt text c c.rest.length (repeatUpTo more item k) (Scan.repeatUpTo more scan m) := by
  induction k generalizing c m with
  | zero =>
    refine follows_repeatUpTo_of_stop hmore hc ?_ 0 m
    rw [List.length_eq_zero_iff.1 (Nat.le_zero.1 hk)]
    exact hend
  | succ k ih =>
    cases hnext : more c.rest.head? with
    | false => exact follows_repeatUpTo_of_stop hmore hc hnext (k + 1) m
    | true =>
      have hpos : 0 < c.rest.length := by
        refine List.length_pos_iff.2 fun hnil => ?_
        rw [hnil] at hnext
        exact absurd (hend.symm.trans hnext) Bool.false_ne_true
      cases m with
      | zero => omega
      | succ m =>
        refine follows_peek_bind hc ?_
        rw [hmore, if_pos hnext, if_pos hnext]
        refine (hitem c hc hnext).bind fun a d hd hle => ?_
        refine (ih hd (by omega) (by omega)).bind fun l e he hle' => ?_
        exact follows_pure he (by omega) _

theorem follows_repeatWhile (hmore : ∀ next, more (firstCode next) = more next)
    (hend : more none = false)
    (hitem : ∀ c, c.StandsIn text → more c.rest.head? = true →
      FollowsAt text c (c.rest.length - 1) item scan) (hc : c.StandsIn text) :
    FollowsAt text c c.rest.length (repeatWhile more item) (Scan.repeatWhile more scan) := by
  have hbytes : c.rest.length ≤ (Text.utf8Encode c.rest).length := by
    rw [Text.length_utf8Encode]
    exact Text.length_le_utf8Length c.rest
  rw [FollowsAt, repeatWhile, unread_bind_apply hc]
  exact follows_repeatUpTo hmore hend hitem hc hbytes (Nat.le_refl _)

end Repetition

/-! ## Whole texts -/

theorem follows_finish (hc : c.StandsIn text) :
    FollowsAt text c c.rest.length finish Scan.finish := by
  refine follows_peek_bind hc ?_
  rw [isSome_firstCode]
  split
  · exact follows_fail hc _
  · exact follows_pure hc (Nat.le_refl _) ()

/-- A reader of a whole text. -/
theorem FollowsAt.finish {b : ByteScan α} {s : Scan α} (h : FollowsAt text c n b s) :
    FollowsAt text c n (b <* finish) (s <* Scan.finish) := by
  rw [seqLeft_eq_bind, seqLeft_eq_bind]
  refine h.bind fun a d hd hle => ?_
  exact (follows_finish hd).bind fun _ e he hle' => follows_pure he (by omega) a

/-- Read by its bytes, the text gives the result, so the reader does not crash. Where the result is an
error, its position is one between two characters of the text. -/
structure Reads (text : String) (byBytes : Option (Except Malformed α)) (result : Except Malformed α) :
    Prop where
  eq_some : byBytes = some result
  boundary : ∀ e, result = .error e → e.input = text ∧ e.position ≤ text.utf8ByteSize ∧
    String.Pos.Raw.IsValid text ⟨e.position⟩

theorem FollowsAt.reads {b : ByteScan α} {s : Scan α}
    (h : ∀ c, c.StandsIn text → FollowsAt text c c.rest.length b s) :
    Reads text (b.run text) (s.run text) := by
  have hstart := h _ (Cursor.StandsIn.start text)
  rw [FollowsAt] at hstart
  change Alike text _ (b text 0) (s ⟨0, text.toList⟩) at hstart
  change Reads text (match b text 0 with
    | .ok (a, _) => some (.ok a)
    | .error (.malformed position fault) => some (.error ⟨text, position, fault⟩)
    | .error .crash => none) (match s ⟨0, text.toList⟩ with
    | .ok (a, _) => .ok a
    | .error (position, fault) => .error ⟨text, position, fault⟩)
  generalize b text 0 = x at hstart
  generalize s ⟨0, text.toList⟩ = y at hstart
  rcases y with ⟨position, fault⟩ | ⟨a, d⟩
  · obtain ⟨rfl, hvalid⟩ := hstart
    refine ⟨rfl, ?_⟩
    rintro _ ⟨⟩
    exact ⟨rfl, hvalid.le_utf8ByteSize, hvalid⟩
  · obtain ⟨rfl, -, -⟩ := hstart
    exact ⟨rfl, fun _ he => nomatch he⟩

theorem Reads.map {byBytes : Option (Except Malformed α)} {result : Except Malformed α}
    (h : Reads text byBytes result) (f : α → β) :
    Reads text (byBytes.map (f <$> ·)) (f <$> result) := by
  refine ⟨by rw [h.eq_some, Option.map_some], fun e he => ?_⟩
  cases result with
  | error e' =>
    cases he
    exact h.boundary _ rfl
  | ok a => nomatch he

end ByteScan

end ClassAtlas
