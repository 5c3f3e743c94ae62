/-!
# Finite maps in key order

A `SortedMap` is a list of entries whose keys strictly increase. Iteration follows the order of the
keys, and two maps that answer every look-up alike are equal (`SortedMap.ext_get?`), so maps built
along different routes can be compared by `=`.

A `SortedSet` is a map to `Unit`.
-/

namespace ClassAtlas

universe u v w

/-- Entries with strictly increasing keys. -/
structure SortedMap (κ : Type u) (ν : Type v) [Ord κ] where
  entries : List (κ × ν)
  sorted : entries.Pairwise fun a b => compare a.1 b.1 = .lt

namespace SortedMap

variable {κ : Type u} {ν : Type v} {μ : Type w} [Ord κ]

instance [DecidableEq κ] [DecidableEq ν] : DecidableEq (SortedMap κ ν) := fun m n =>
  decidable_of_iff (m.entries = n.entries) <| by cases m; cases n; simp

/-- The map without entries. -/
def empty : SortedMap κ ν := ⟨[], .nil⟩

instance : Inhabited (SortedMap κ ν) := ⟨empty⟩
instance : EmptyCollection (SortedMap κ ν) := ⟨empty⟩

/-- The entries in key order. -/
def toList (m : SortedMap κ ν) : List (κ × ν) := m.entries

/-- The keys in order. -/
def keys (m : SortedMap κ ν) : List κ := m.entries.map (·.1)

/-- The values in the order of their keys. -/
def values (m : SortedMap κ ν) : List ν := m.entries.map (·.2)

/-- The number of entries. -/
def size (m : SortedMap κ ν) : Nat := m.entries.length

def isEmpty (m : SortedMap κ ν) : Bool := m.entries.isEmpty

/-- The value of `k` in a list of entries, whatever their order. -/
def find (k : κ) : List (κ × ν) → Option ν
  | [] => none
  | (k', v) :: rest => if compare k k' = .eq then some v else find k rest

/-- The value stored under `k`. -/
def get? (m : SortedMap κ ν) (k : κ) : Option ν := find k m.entries

def contains (m : SortedMap κ ν) (k : κ) : Bool := (m.get? k).isSome

/-- Puts `f` of the current value under `k`, keeping the order of the keys. -/
def alterEntries (k : κ) (f : Option ν → ν) : List (κ × ν) → List (κ × ν)
  | [] => [(k, f none)]
  | (k', v) :: rest =>
    match compare k k' with
    | .lt => (k, f none) :: (k', v) :: rest
    | .eq => (k', f (some v)) :: rest
    | .gt => (k', v) :: alterEntries k f rest

theorem key_mem_alterEntries {k : κ} {f : Option ν → ν} {l : List (κ × ν)} {e : κ × ν}
    (h : e ∈ alterEntries k f l) : e.1 = k ∨ e.1 ∈ l.map (·.1) := by
  induction l with
  | nil => simp_all [alterEntries]
  | cons d rest ih =>
    obtain ⟨k', v⟩ := d
    simp only [alterEntries] at h
    split at h
    case h_1 =>
      rcases List.mem_cons.1 h with rfl | h
      · exact .inl rfl
      · exact .inr (List.mem_map_of_mem h)
    case h_2 =>
      rcases List.mem_cons.1 h with rfl | h
      · exact .inr List.mem_cons_self
      · exact .inr (List.mem_cons_of_mem _ (List.mem_map_of_mem h))
    case h_3 =>
      rcases List.mem_cons.1 h with rfl | h
      · exact .inr List.mem_cons_self
      · exact (ih h).imp_right (List.mem_cons_of_mem _)

theorem pairwise_alterEntries [Std.TransOrd κ] {k : κ} {f : Option ν → ν} {l : List (κ × ν)}
    (h : l.Pairwise fun a b => compare a.1 b.1 = .lt) :
    (alterEntries k f l).Pairwise fun a b => compare a.1 b.1 = .lt := by
  induction l with
  | nil => simp [alterEntries]
  | cons d rest ih =>
    obtain ⟨k', v⟩ := d
    rw [List.pairwise_cons] at h
    simp only [alterEntries]
    split
    case h_1 hc =>
      refine List.pairwise_cons.2 ⟨?_, List.pairwise_cons.2 h⟩
      intro e he
      rcases List.mem_cons.1 he with rfl | he
      · exact hc
      · exact Std.TransCmp.lt_trans hc (h.1 e he)
    case h_2 => exact List.pairwise_cons.2 ⟨fun e he => h.1 e he, h.2⟩
    case h_3 hc =>
      refine List.pairwise_cons.2 ⟨fun e he => ?_, ih h.2⟩
      rcases key_mem_alterEntries he with hk | hk
      · exact hk ▸ Std.OrientedCmp.gt_iff_lt.1 hc
      · obtain ⟨e', he', hk⟩ := List.mem_map.1 hk
        exact hk ▸ h.1 e' he'

/-- Puts `f` of the current value under `k`. -/
def alter [Std.TransOrd κ] (m : SortedMap κ ν) (k : κ) (f : Option ν → ν) : SortedMap κ ν :=
  ⟨alterEntries k f m.entries, pairwise_alterEntries m.sorted⟩

/-- Puts `v` under `k`, replacing the current value. -/
def insert [Std.TransOrd κ] (m : SortedMap κ ν) (k : κ) (v : ν) : SortedMap κ ν :=
  m.alter k fun _ => v

/-- Puts `v` under `k` unless `k` has a value. -/
def insertNew [Std.TransOrd κ] (m : SortedMap κ ν) (k : κ) (v : ν) : SortedMap κ ν :=
  m.alter k (·.getD v)

/-- Builds a map from entries in any order; of two entries with one key the later wins. -/
def ofList [Std.TransOrd κ] (l : List (κ × ν)) : SortedMap κ ν :=
  l.foldl (fun m e => m.insert e.1 e.2) empty

/-- Keeps the entries that satisfy `p`. -/
def filter (p : κ → ν → Bool) (m : SortedMap κ ν) : SortedMap κ ν :=
  ⟨m.entries.filter fun e => p e.1 e.2, m.sorted.filter _⟩

/-- Replaces each value by one computed from its key and itself. -/
def mapValues (f : κ → ν → μ) (m : SortedMap κ ν) : SortedMap κ μ :=
  ⟨m.entries.map fun e => (e.1, f e.1 e.2), List.pairwise_map.2 m.sorted⟩

/-! ## Look-ups -/

variable [Std.TransOrd κ] [Std.LawfulEqOrd κ]

omit [Std.TransOrd κ] [Std.LawfulEqOrd κ] in
/-- A key below all others has no value. -/
theorem find_eq_none_of_lt {k : κ} {l : List (κ × ν)} (h : ∀ e ∈ l, compare k e.1 = .lt) :
    find k l = none := by
  induction l with
  | nil => rfl
  | cons e rest ih => simp_all [find]

theorem find_alterEntries_self (k : κ) (f : Option ν → ν) {l : List (κ × ν)}
    (h : l.Pairwise fun a b => compare a.1 b.1 = .lt) :
    find k (alterEntries k f l) = some (f (find k l)) := by
  induction l with
  | nil => simp [alterEntries, find]
  | cons d rest ih =>
    obtain ⟨k', v⟩ := d
    rw [List.pairwise_cons] at h
    simp only [alterEntries]
    split
    case h_1 hc =>
      have hn : find k rest = none :=
        find_eq_none_of_lt fun e he => Std.TransCmp.lt_trans hc (h.1 e he)
      simp [find, hc, hn]
    case h_2 hc => simp [find, hc]
    case h_3 hc => simp [find, hc, ih h.2]

omit [Std.TransOrd κ] in
theorem find_alterEntries_of_ne {k k' : κ} (hk : k' ≠ k) (f : Option ν → ν) (l : List (κ × ν)) :
    find k' (alterEntries k f l) = find k' l := by
  have hc : compare k' k ≠ .eq := fun h => hk (Std.LawfulEqCmp.eq_of_compare h)
  induction l with
  | nil => simp [alterEntries, find, hc]
  | cons d rest ih =>
    obtain ⟨k'', v⟩ := d
    simp only [alterEntries]
    split
    case h_1 => simp [find, hc]
    case h_2 h =>
      cases Std.LawfulEqCmp.eq_of_compare h
      simp [find, hc]
    case h_3 => simp only [find, ih]

theorem get?_alter [DecidableEq κ] (m : SortedMap κ ν) (k k' : κ) (f : Option ν → ν) :
    (m.alter k f).get? k' = if k' = k then some (f (m.get? k)) else m.get? k' := by
  by_cases h : k' = k
  · subst h
    simp [get?, alter, find_alterEntries_self k' f m.sorted]
  · simp [get?, alter, h, find_alterEntries_of_ne h]

theorem get?_insert [DecidableEq κ] (m : SortedMap κ ν) (k k' : κ) (v : ν) :
    (m.insert k v).get? k' = if k' = k then some v else m.get? k' := by
  simp [insert, get?_alter]

/-- Changes of a map made one after the other act on each key apart. -/
theorem get?_foldl_alter [DecidableEq κ] {α : Type w} (key : α → κ) (f : α → Option ν → ν)
    (l : List α) (m : SortedMap κ ν) (k : κ) :
    (l.foldl (fun m a => m.alter (key a) (f a)) m).get? k =
      (l.filter (key · = k)).foldl (fun v a => some (f a v)) (m.get? k) := by
  induction l generalizing m with
  | nil => rfl
  | cons a l ih =>
    rw [List.foldl_cons, ih, get?_alter]
    by_cases h : key a = k
    · subst h
      simp
    · simp [h, Ne.symm h]

omit [Std.TransOrd κ] [Std.LawfulEqOrd κ] in
@[simp]
theorem get?_empty (k : κ) : (empty : SortedMap κ ν).get? k = none := rfl

omit [Std.TransOrd κ] [Std.LawfulEqOrd κ] in
@[simp]
theorem get?_emptyCollection (k : κ) : (∅ : SortedMap κ ν).get? k = none := rfl

omit [Std.TransOrd κ] [Std.LawfulEqOrd κ] in
@[simp]
theorem contains_emptyCollection (k : κ) : (∅ : SortedMap κ ν).contains k = false := rfl

/-- Sorted lists with the same look-ups are equal. -/
theorem entries_ext {l₁ l₂ : List (κ × ν)}
    (h₁ : l₁.Pairwise fun a b => compare a.1 b.1 = .lt)
    (h₂ : l₂.Pairwise fun a b => compare a.1 b.1 = .lt)
    (h : ∀ k, find k l₁ = find k l₂) : l₁ = l₂ := by
  induction l₁ generalizing l₂ with
  | nil =>
    cases l₂ with
    | nil => rfl
    | cons e rest => simpa [find] using h e.1
  | cons d rest ih =>
    cases l₂ with
    | nil => simpa [find] using h d.1
    | cons e rest' =>
      obtain ⟨k, v⟩ := d
      obtain ⟨k', v'⟩ := e
      rw [List.pairwise_cons] at h₁ h₂
      have hkk : compare k k' = .eq := by
        cases hc : compare k k' with
        | eq => rfl
        | lt =>
          have hn : find k ((k', v') :: rest') = none :=
            find_eq_none_of_lt fun e he => by
              rcases List.mem_cons.1 he with rfl | he
              · exact hc
              · exact Std.TransCmp.lt_trans hc (h₂.1 e he)
          simpa [find] using (h k).trans hn
        | gt =>
          have hc' : compare k' k = .lt := Std.OrientedCmp.gt_iff_lt.1 hc
          have hn : find k' ((k, v) :: rest) = none :=
            find_eq_none_of_lt fun e he => by
              rcases List.mem_cons.1 he with rfl | he
              · exact hc'
              · exact Std.TransCmp.lt_trans hc' (h₁.1 e he)
          simpa [find] using (h k').symm.trans hn
      cases Std.LawfulEqCmp.eq_of_compare hkk
      have hv : v = v' := by simpa [find] using h k
      subst hv
      congr 1
      refine ih h₁.2 h₂.2 fun x => ?_
      by_cases hx : compare x k = .eq
      · cases Std.LawfulEqCmp.eq_of_compare hx
        rw [find_eq_none_of_lt h₁.1, find_eq_none_of_lt h₂.1]
      · simpa [find, hx] using h x

/-- Maps with the same look-ups are equal. -/
theorem ext_get? {m n : SortedMap κ ν} (h : ∀ k, m.get? k = n.get? k) : m = n := by
  obtain ⟨l₁, h₁⟩ := m
  obtain ⟨l₂, h₂⟩ := n
  cases entries_ext h₁ h₂ h
  rfl

/-! ## Entries and keys -/

omit [Std.TransOrd κ] in
/-- The entries are the pairs of a key and its value. -/
theorem mem_toList {m : SortedMap κ ν} {k : κ} {v : ν} :
    (k, v) ∈ m.toList ↔ m.get? k = some v := by
  obtain ⟨l, h⟩ := m
  show (k, v) ∈ l ↔ find k l = some v
  induction l with
  | nil => simp [find]
  | cons d rest ih =>
    obtain ⟨k', v'⟩ := d
    rw [List.pairwise_cons] at h
    rw [List.mem_cons, Prod.mk.injEq, find]
    by_cases hk : compare k k' = .eq
    · cases Std.LawfulEqCmp.eq_of_compare hk
      have hout : (k, v) ∉ rest := fun hm => by simpa using h.1 _ hm
      simp [hout, eq_comm]
    · have hne : k ≠ k' := fun he => hk (he ▸ Std.ReflCmp.compare_self)
      simp [hk, hne, ih h.2]

omit [Std.TransOrd κ] in
theorem mem_keys {m : SortedMap κ ν} {k : κ} : k ∈ m.keys ↔ m.contains k = true := by
  simp only [keys, contains, Option.isSome_iff_exists, ← mem_toList, toList, List.mem_map,
    Prod.exists, exists_and_right, exists_eq_right]

omit [Std.TransOrd κ] [Std.LawfulEqOrd κ] in
theorem sorted_keys (m : SortedMap κ ν) : m.keys.Pairwise fun a b => compare a b = .lt :=
  List.pairwise_map.2 m.sorted

omit [Std.LawfulEqOrd κ] in
theorem nodup_keys (m : SortedMap κ ν) : m.keys.Nodup :=
  m.sorted_keys.imp fun h he => by simp [he] at h

omit [Std.TransOrd κ] in
theorem get?_filter (p : κ → ν → Bool) (m : SortedMap κ ν) (k : κ) :
    (m.filter p).get? k = (m.get? k).filter (p k) := by
  apply Option.ext
  intro v
  rw [← mem_toList, Option.filter_eq_some_iff, ← mem_toList]
  exact List.mem_filter

omit [Std.TransOrd κ] in
/-- At most one entry has a given key. -/
theorem filter_toList [DecidableEq κ] (m : SortedMap κ ν) (k : κ) :
    m.toList.filter (·.1 = k) = ((m.get? k).map fun v => (k, v)).toList := by
  obtain ⟨l, h⟩ := m
  show l.filter (·.1 = k) = ((find k l).map fun v => (k, v)).toList
  induction l with
  | nil => rfl
  | cons d rest ih =>
    obtain ⟨k', v⟩ := d
    rw [List.pairwise_cons] at h
    by_cases hk : k' = k
    · subst hk
      have hout : rest.filter (·.1 = k') = [] :=
        List.filter_eq_nil_iff.2 fun e he => by
          have hlt := h.1 e he
          simp only [decide_eq_true_eq]
          rintro rfl
          simp at hlt
      simp [find, hout]
    · have hc : compare k k' ≠ .eq := fun hc => hk (Std.LawfulEqCmp.eq_of_compare hc).symm
      simp [find, hk, hc, ih h.2]

omit [Std.TransOrd κ] in
theorem get?_mapValues (f : κ → ν → μ) (m : SortedMap κ ν) (k : κ) :
    (m.mapValues f).get? k = (m.get? k).map (f k) := by
  obtain ⟨l, h⟩ := m
  show find k (l.map fun e => (e.1, f e.1 e.2)) = (find k l).map (f k)
  clear h
  induction l with
  | nil => rfl
  | cons d rest ih =>
    obtain ⟨k', v⟩ := d
    by_cases hk : compare k k' = .eq
    · cases Std.LawfulEqCmp.eq_of_compare hk
      simp [find]
    · simp [find, hk, ih]

end SortedMap

/-- Elements in increasing order, each once. -/
abbrev SortedSet (κ : Type u) [Ord κ] := SortedMap κ Unit

namespace SortedSet

variable {κ : Type u} [Ord κ] [Std.TransOrd κ]

/-- Adds an element; nothing changes if it is present. -/
def add (s : SortedSet κ) (k : κ) : SortedSet κ := SortedMap.insert s k ()

/-- The distinct elements of a list, in order. -/
def ofElements (l : List κ) : SortedSet κ := l.foldl add SortedMap.empty

/-- The elements in order. -/
def elements (s : SortedSet κ) : List κ := SortedMap.keys s

variable [Std.LawfulEqOrd κ] [DecidableEq κ]

theorem contains_add (s : SortedSet κ) (k a : κ) :
    SortedMap.contains (s.add k) a = true ↔ a = k ∨ s.contains a = true := by
  by_cases h : a = k <;> simp [add, SortedMap.contains, SortedMap.get?_insert, h]

omit [DecidableEq κ] in
/-- Sets with the same elements are equal. -/
theorem ext {s t : SortedSet κ} (h : ∀ k, s.contains k = true ↔ t.contains k = true) : s = t :=
  SortedMap.ext_get? fun k => Option.ext fun () => by
    have hk := h k
    simp only [SortedMap.contains, Option.isSome_iff_exists] at hk
    exact ⟨fun hs => (hk.1 ⟨(), hs⟩).choose_spec, fun ht => (hk.2 ⟨(), ht⟩).choose_spec⟩

theorem contains_foldl_add (l : List κ) (s : SortedSet κ) (a : κ) :
    SortedMap.contains (l.foldl add s) a = true ↔ a ∈ l ∨ s.contains a = true := by
  induction l generalizing s with
  | nil => simp
  | cons k l ih =>
    rw [List.foldl_cons, ih, contains_add, List.mem_cons, or_left_comm, or_assoc]

theorem contains_ofElements (l : List κ) (a : κ) :
    SortedMap.contains (ofElements l) a = true ↔ a ∈ l := by
  rw [ofElements, contains_foldl_add]
  simp [SortedMap.contains]

omit [Std.TransOrd κ] [DecidableEq κ] in
theorem mem_elements {s : SortedSet κ} {a : κ} : a ∈ s.elements ↔ s.contains a = true :=
  SortedMap.mem_keys

theorem ofElements_elements (s : SortedSet κ) : ofElements s.elements = s :=
  SortedSet.ext fun k => (contains_ofElements _ k).trans mem_elements

end SortedSet

/-- The distinct elements of a list, in increasing order. -/
def sortedDistinct {κ : Type u} [Ord κ] [Std.TransOrd κ] (l : List κ) : List κ :=
  (SortedSet.ofElements l).elements

section

variable {κ : Type u} [Ord κ] [Std.TransOrd κ]

theorem mem_sortedDistinct [Std.LawfulEqOrd κ] [DecidableEq κ] {l : List κ} {a : κ} :
    a ∈ sortedDistinct l ↔ a ∈ l := by
  rw [sortedDistinct, SortedSet.mem_elements, SortedSet.contains_ofElements]

theorem nodup_sortedDistinct (l : List κ) : (sortedDistinct l).Nodup := SortedMap.nodup_keys _

end

end ClassAtlas
