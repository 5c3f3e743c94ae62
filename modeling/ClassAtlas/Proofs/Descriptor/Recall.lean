import Mathlib.Data.Finset.Card
import ClassAtlas.Descriptor.Cache
import ClassAtlas.Proofs.Descriptor.Acceptance

/-!
# What a cache recalls

A cache is asked for texts as fields and as methods, and cleared from time to time, in any order. It
remembers each text that was read successfully under the text alone. That this does not mix the two
shapes up rests on the grammar: no text is the written form of a field and of a method, so a text
that was learnt in one shape cannot be read in the other.

## Main definitions

* `Lookup` is a text that a cache is asked for, and in which shape; a `CacheLog` has such look-ups
  with what they gave.
* `DescriptorCache.Recalls` relates the entries and the numbers of a cache to a log.
* `CacheRun` is a cache with the log of its look-ups since it was last cleared.

## Main statements

* `DescriptorCache.Recalls.lookup`: a look-up gives what reading the text gives, and keeps the
  relation.
* `CacheRun.after_exact`: what a cache answers, and how it counts, after any calls.
-/

namespace ClassAtlas

/-- The descriptor is that of a method. -/
def Descriptor.isMethod : Descriptor → Bool
  | field _ => false
  | method _ => true

/-- A text that a cache is asked for, and the shape in which it is. -/
inductive Lookup where
  | field (text : String)
  | method (text : String)
  deriving DecidableEq

namespace Lookup

def text : Lookup → String
  | field text | method text => text

/-- The text is asked for as a method. -/
def asMethod : Lookup → Bool
  | field _ => false
  | method _ => true

/-- What reading the text in this shape gives. -/
def read : Lookup → Except Malformed Descriptor
  | field text => .field <$> FieldType.parse text
  | method text => .method <$> MethodType.parse text

variable {l l' : Lookup} {d d' : Descriptor}

theorem ext (htext : l.text = l'.text) (hshape : l.asMethod = l'.asMethod) : l = l' := by
  cases l <;> cases l' <;> simp_all [text, asMethod]

/-- A text is read in the shape that its descriptor has. -/
theorem read_eq_ok_iff :
    l.read = .ok d ↔ Descriptor.parse l.text = .ok d ∧ d.isMethod = l.asMethod := by
  rw [Descriptor.parse_eq_ok_iff]
  constructor
  · intro h
    cases l with
    | field text =>
      obtain ⟨t, ht, rfl⟩ := exists_of_map_eq_ok h
      exact ⟨FieldType.parse_eq_ok_iff.1 ht, rfl⟩
    | method text =>
      obtain ⟨m, hm, rfl⟩ := exists_of_map_eq_ok h
      exact ⟨MethodType.parse_eq_ok_iff.1 hm, rfl⟩
  · rintro ⟨hd, hshape⟩
    cases l <;> cases d <;> cases hshape
    · exact congrArg (Descriptor.field <$> ·) (FieldType.parse_eq_ok_iff.2 hd)
    · exact congrArg (Descriptor.method <$> ·) (MethodType.parse_eq_ok_iff.2 hd)

/-- A text can be read in one shape only. -/
theorem eq_of_read_eq_ok (h : l.read = .ok d) (h' : l'.read = .ok d') (htext : l.text = l'.text) :
    l = l' := by
  obtain ⟨hd, hshape⟩ := read_eq_ok_iff.1 h
  obtain ⟨hd', hshape'⟩ := read_eq_ok_iff.1 h'
  rw [htext, hd'] at hd
  cases hd
  exact ext htext (hshape.symm.trans hshape')

end Lookup

namespace DescriptorCache

variable {cache : DescriptorCache} {l : Lookup} {d : Descriptor}

/-- Looks a text up. -/
def lookup (cache : DescriptorCache) : Lookup → Except Malformed Descriptor × DescriptorCache
  | .field text => ((.field <$> (cache.field text).1), (cache.field text).2)
  | .method text => ((.method <$> (cache.method text).1), (cache.method text).2)

/-- A remembered descriptor of the right shape is the answer. -/
theorem lookup_of_remembered (h : cache.entries.get? l.text = some d)
    (hshape : d.isMethod = l.asMethod) :
    cache.lookup l = (.ok d, { cache with hits := cache.hits + 1 }) := by
  cases l <;> cases d <;> cases hshape <;> simp only [Lookup.text] at h
  · simp [lookup, field, h, Functor.map, Except.map]
  · simp [lookup, method, h, Functor.map, Except.map]

/-- Without one, the text is read. -/
theorem lookup_of_not_remembered
    (h : ∀ d, cache.entries.get? l.text = some d → d.isMethod ≠ l.asMethod) :
    cache.lookup l = (l.read, cache.learn l.text l.read) := by
  cases l with
  | field text =>
    have hnone : ∀ t, cache.entries.get? text ≠ some (.field t) := fun t ht => h _ ht rfl
    rw [lookup, DescriptorCache.field]
    split
    · next t ht => exact absurd ht (hnone t)
    · rfl
  | method text =>
    have hnone : ∀ m, cache.entries.get? text ≠ some (.method m) := fun m hm => h _ hm rfl
    rw [lookup, DescriptorCache.method]
    split
    · next m hm => exact absurd hm (hnone m)
    · rfl

@[simp]
theorem learn_hits (cache : DescriptorCache) (text : String) (answer : Except Malformed Descriptor) :
    (cache.learn text answer).hits = cache.hits := by
  cases answer <;> rfl

@[simp]
theorem learn_misses (cache : DescriptorCache) (text : String)
    (answer : Except Malformed Descriptor) :
    (cache.learn text answer).misses = cache.misses + 1 := by
  cases answer <;> rfl

end DescriptorCache

/-- Look-ups with what they gave, the first one first. -/
abbrev CacheLog := List (Lookup × Except Malformed Descriptor)

namespace CacheLog

/-- The look-ups that succeeded. -/
def successes (log : CacheLog) : CacheLog := log.filter (·.2.isOk)

/-- The distinct texts that were read. -/
def texts (log : CacheLog) : Finset String := (log.successes.map (·.1.text)).toFinset

variable {log : CacheLog} {l : Lookup} {d : Descriptor}

theorem mem_texts {text : String} : text ∈ log.texts ↔ ∃ l d, (l, .ok d) ∈ log ∧ l.text = text := by
  simp only [texts, successes, List.mem_toFinset, List.mem_map, List.mem_filter]
  constructor
  · rintro ⟨⟨l, answer⟩, ⟨hmem, hok⟩, rfl⟩
    obtain ⟨d, rfl⟩ := exists_of_isOk hok
    exact ⟨l, d, hmem, rfl⟩
  · rintro ⟨l, d, hmem, rfl⟩
    exact ⟨(l, .ok d), ⟨hmem, rfl⟩, rfl⟩

theorem successes_append_ok (log : CacheLog) (l : Lookup) (d : Descriptor) :
    successes (log ++ [(l, .ok d)]) = log.successes ++ [(l, .ok d)] :=
  List.filter_append ..

theorem successes_append_error (log : CacheLog) (l : Lookup) (e : Malformed) :
    successes (log ++ [(l, .error e)]) = log.successes :=
  (List.filter_append ..).trans (List.append_nil _)

theorem texts_append_ok (log : CacheLog) (l : Lookup) (d : Descriptor) :
    texts (log ++ [(l, .ok d)]) = insert l.text log.texts := by
  ext text
  simp [texts, successes_append_ok]

theorem texts_append_error (log : CacheLog) (l : Lookup) (e : Malformed) :
    texts (log ++ [(l, .error e)]) = log.texts := by
  rw [texts, successes_append_error, texts]

end CacheLog

namespace DescriptorCache

variable {cache : DescriptorCache} {l : Lookup} {d : Descriptor}

/-- The cache remembers what was read according to the log and nothing else, and each look-up was
counted once: as a hit if it succeeded and was not the first one of its text to do so. -/
structure Recalls (cache : DescriptorCache) (log : CacheLog) : Prop where
  answer : ∀ e ∈ log, e.2 = e.1.read
  entry : ∀ text d, cache.entries.get? text = some d ↔ ∃ l, (l, .ok d) ∈ log ∧ l.text = text
  hits : cache.hits + log.texts.card = log.successes.length
  lookups : cache.hits + cache.misses = log.length

theorem recalls_empty : empty.Recalls [] where
  answer e he := nomatch he
  entry text d := by simp [empty]
  hits := rfl
  lookups := rfl

namespace Recalls

variable {log : CacheLog} (h : cache.Recalls log)

include h

theorem read_eq (hmem : (l, .ok d) ∈ log) : l.read = .ok d := (h.answer _ hmem).symm

/-- There is one entry for each text. -/
theorem size_eq : cache.entries.size = log.texts.card := by
  have hkeys : cache.entries.keys.toFinset = log.texts := by
    ext text
    rw [List.mem_toFinset, SortedMap.mem_keys, SortedMap.contains, Option.isSome_iff_exists,
      CacheLog.mem_texts, exists_comm]
    exact exists_congr fun d => h.entry text d
  rw [← hkeys, List.toFinset_card_of_nodup (SortedMap.nodup_keys _), SortedMap.keys,
    List.length_map]
  rfl

/-- A descriptor is found in the right shape if an earlier look-up of this text in this shape gave
it. -/
theorem remembered_iff :
    cache.entries.get? l.text = some d ∧ d.isMethod = l.asMethod ↔ (l, .ok d) ∈ log := by
  rw [h.entry]
  constructor
  · rintro ⟨⟨l', hmem, htext⟩, hshape⟩
    have hshape' := (Lookup.read_eq_ok_iff.1 (h.read_eq hmem)).2
    rwa [Lookup.ext htext (hshape'.symm.trans hshape)] at hmem
  · intro hmem
    exact ⟨⟨l, hmem, rfl⟩, (Lookup.read_eq_ok_iff.1 (h.read_eq hmem)).2⟩

theorem lookup_of_mem (hmem : (l, .ok d) ∈ log) :
    cache.lookup l = (.ok d, { cache with hits := cache.hits + 1 }) := by
  obtain ⟨hget, hshape⟩ := h.remembered_iff.2 hmem
  exact lookup_of_remembered hget hshape

theorem lookup_of_not_mem (hnew : ¬ ∃ d, (l, .ok d) ∈ log) :
    cache.lookup l = (l.read, cache.learn l.text l.read) :=
  lookup_of_not_remembered fun d hget hshape => hnew ⟨d, h.remembered_iff.1 ⟨hget, hshape⟩⟩

/-- What is read for the first time was not read in the other shape either. -/
theorem text_not_mem (hnew : ¬ ∃ d, (l, .ok d) ∈ log) (hread : l.read = .ok d) :
    l.text ∉ log.texts := by
  rw [CacheLog.mem_texts]
  rintro ⟨l', d', hmem, htext⟩
  rw [Lookup.eq_of_read_eq_ok (h.read_eq hmem) hread htext] at hmem
  exact hnew ⟨d', hmem⟩

/-! ## Look-ups -/

theorem answer_append (l : Lookup) : ∀ e ∈ log ++ [(l, l.read)], e.2 = e.1.read := by
  simp only [List.forall_mem_append, List.forall_mem_singleton]
  exact ⟨h.answer, trivial⟩

/-- A look-up that was answered before changes the number of hits only. -/
theorem hit (hmem : (l, .ok d) ∈ log) :
    Recalls { cache with hits := cache.hits + 1 } (log ++ [(l, .ok d)]) where
  answer := h.read_eq hmem ▸ h.answer_append l
  entry text d' := by
    rw [h.entry]
    grind
  hits := by
    have htext : l.text ∈ log.texts := CacheLog.mem_texts.2 ⟨l, d, hmem, rfl⟩
    rw [CacheLog.texts_append_ok, Finset.insert_eq_of_mem htext, CacheLog.successes_append_ok,
      List.length_append, ← h.hits, Nat.add_right_comm]
    rfl
  lookups := by
    rw [List.length_append, ← h.lookups, Nat.add_right_comm]
    rfl

/-- A text that cannot be read changes the number of misses only. -/
theorem rejected {e : Malformed} (hread : l.read = .error e) :
    Recalls (cache.learn l.text (.error e)) (log ++ [(l, .error e)]) where
  answer := hread ▸ h.answer_append l
  entry text d := by
    rw [learn, h.entry]
    grind
  hits := by
    rw [learn_hits, CacheLog.texts_append_error, CacheLog.successes_append_error]
    exact h.hits
  lookups := by
    rw [learn_hits, learn_misses, List.length_append, ← h.lookups]
    rfl

/-- A text that is read for the first time gets an entry of its own. -/
theorem learnt (hnew : ¬ ∃ d, (l, .ok d) ∈ log) (hread : l.read = .ok d) :
    Recalls (cache.learn l.text (.ok d)) (log ++ [(l, .ok d)]) where
  answer := hread ▸ h.answer_append l
  entry text d' := by
    have hfresh := h.text_not_mem hnew hread
    rw [CacheLog.mem_texts] at hfresh
    rw [learn, SortedMap.get?_insert]
    split
    · grind
    · rw [h.entry]
      grind
  hits := by
    rw [learn_hits, CacheLog.texts_append_ok,
      Finset.card_insert_of_notMem (h.text_not_mem hnew hread), CacheLog.successes_append_ok,
      List.length_append, ← h.hits]
    rfl
  lookups := by
    rw [learn_hits, learn_misses, List.length_append, ← h.lookups]
    rfl

/-- A look-up is answered by what reading the text gives, whether it was read before or not, and
the cache goes on to recall it. -/
theorem lookup (l : Lookup) :
    (cache.lookup l).1 = l.read ∧ (cache.lookup l).2.Recalls (log ++ [(l, l.read)]) := by
  by_cases hknown : ∃ d, (l, .ok d) ∈ log
  · obtain ⟨d, hmem⟩ := hknown
    rw [h.lookup_of_mem hmem, h.read_eq hmem]
    exact ⟨rfl, h.hit hmem⟩
  · rw [h.lookup_of_not_mem hknown]
    cases hread : l.read with
    | error e => exact ⟨rfl, h.rejected hread⟩
    | ok d => exact ⟨rfl, h.learnt hknown hread⟩

/-- A look-up is a hit if one like it succeeded before, and a miss otherwise. -/
theorem counts (l : Lookup) :
    ((cache.lookup l).2.hits = cache.hits + 1 ↔ ∃ d, (l, .ok d) ∈ log) ∧
      ((cache.lookup l).2.misses = cache.misses + 1 ↔ ¬ ∃ d, (l, .ok d) ∈ log) := by
  by_cases hknown : ∃ d, (l, .ok d) ∈ log
  · obtain ⟨d, hmem⟩ := hknown
    rw [h.lookup_of_mem hmem]
    exact ⟨iff_of_true rfl ⟨d, hmem⟩, iff_of_false (by simp) (not_not_intro ⟨d, hmem⟩)⟩
  · rw [h.lookup_of_not_mem hknown, learn_hits, learn_misses]
    exact ⟨iff_of_false (by simp) hknown, iff_of_true rfl hknown⟩

end Recalls

end DescriptorCache

/-! ## Runs -/

/-- A call of a cache. -/
inductive CacheCall where
  | lookup (l : Lookup)
  | clear

/-- A cache, and its look-ups since it was new or cleared. -/
structure CacheRun where
  cache : DescriptorCache
  log : CacheLog

namespace CacheRun

/-- A new cache. -/
def start : CacheRun := ⟨.empty, []⟩

/-- Makes a call. -/
def step (r : CacheRun) : CacheCall → CacheRun
  | .lookup l => ⟨(r.cache.lookup l).2, r.log ++ [(l, (r.cache.lookup l).1)]⟩
  | .clear => ⟨r.cache.clear, []⟩

/-- Makes calls one after the other on a new cache. -/
def after (calls : List CacheCall) : CacheRun := calls.foldl step start

theorem recalls_step {r : CacheRun} (h : r.cache.Recalls r.log) (call : CacheCall) :
    (r.step call).cache.Recalls (r.step call).log := by
  cases call with
  | clear => exact DescriptorCache.recalls_empty
  | lookup l =>
    obtain ⟨hanswer, hnext⟩ := h.lookup l
    rw [step, hanswer]
    exact hnext

theorem recalls_after (calls : List CacheCall) : (after calls).cache.Recalls (after calls).log := by
  induction calls using List.reverseRecOn with
  | nil => exact DescriptorCache.recalls_empty
  | append_singleton calls call ih =>
    rw [after, List.foldl_append]
    exact recalls_step ih call

/-- A cache can be asked and cleared in any order. A look-up gives what reading the text gives; it is
counted as a hit if one of the same text and the same shape succeeded since the cache was cleared,
and as a miss otherwise; and there are as many entries as texts that were read since then. -/
theorem after_exact (calls : List CacheCall) (l : Lookup) :
    let r := after calls
    let next := r.cache.lookup l
    next.1 = l.read ∧
      (next.2.hits = r.cache.hits + 1 ↔ ∃ d, (l, .ok d) ∈ r.log) ∧
      (next.2.misses = r.cache.misses + 1 ↔ ¬ ∃ d, (l, .ok d) ∈ r.log) ∧
      next.2.hits + next.2.misses = r.cache.hits + r.cache.misses + 1 ∧
      r.cache.hits + r.cache.misses = r.log.length ∧
      r.cache.hits + r.log.texts.card = r.log.successes.length ∧
      r.cache.entries.size = r.log.texts.card := by
  intro r next
  have h : r.cache.Recalls r.log := recalls_after calls
  obtain ⟨hhit, hmiss⟩ := h.counts l
  obtain ⟨hanswer, hnext⟩ := h.lookup l
  refine ⟨hanswer, hhit, hmiss, ?_, h.lookups, h.hits, h.size_eq⟩
  rw [h.lookups, hnext.lookups, List.length_append]
  rfl

end CacheRun

end ClassAtlas
