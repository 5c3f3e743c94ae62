/-!
# Computations that can fail

When a computation in `Except`, or a reader on top of it, succeeds, and what its steps gave then.
-/

namespace ClassAtlas

variable {ε α β σ : Type}

theorem exists_of_isOk {x : Except ε α} (h : x.isOk = true) : ∃ a, x = .ok a := by
  cases x with
  | error e => cases h
  | ok a => exact ⟨a, rfl⟩

theorem exists_of_bind_eq_ok {x : Except ε α} {f : α → Except ε β} {b : β}
    (h : x >>= f = .ok b) : ∃ a, x = .ok a ∧ f a = .ok b := by
  cases x with
  | error e => cases h
  | ok a => exact ⟨a, rfl, h⟩

theorem bind_eq_of_ok {x : Except ε α} {a : α} (h : x = .ok a) (f : α → Except ε β) :
    x >>= f = f a := by
  rw [h]
  rfl

theorem exists_of_map_eq_ok {x : Except ε α} {f : α → β} {b : β} (h : f <$> x = .ok b) :
    ∃ a, x = .ok a ∧ f a = b := by
  cases x with
  | error e => cases h
  | ok a =>
    cases h
    exact ⟨a, rfl, rfl⟩

theorem toOption_eq_some_iff {x : Except ε α} {a : α} : x.toOption = some a ↔ x = .ok a := by
  cases x <;> simp [Except.toOption]

theorem ok_of_mapError_eq_ok {ε' : Type} {x : Except ε α} {f : ε → ε'} {a : α}
    (h : x.mapError f = .ok a) : x = .ok a := by
  cases x with
  | error e => cases h
  | ok b =>
    cases h
    rfl

/-- A list is mapped if each element is, and then to what the elements give. -/
theorem mapM_eq_ok_iff {f : α → Except ε β} {g : α → β} (hg : ∀ a b, f a = .ok b → b = g a)
    {l : List α} {bs : List β} :
    l.mapM f = .ok bs ↔ (∀ a ∈ l, (f a).isOk = true) ∧ bs = l.map g := by
  induction l generalizing bs with
  | nil =>
    simp only [List.mapM_nil, List.not_mem_nil, false_implies, implies_true, true_and, List.map_nil]
    exact ⟨fun h => (Except.ok.inj h).symm, fun h => h ▸ rfl⟩
  | cons a l ih =>
    rw [List.mapM_cons, List.forall_mem_cons]
    constructor
    · intro h
      obtain ⟨b, hb, h⟩ := exists_of_bind_eq_ok h
      obtain ⟨bs', hbs, h⟩ := exists_of_bind_eq_ok h
      obtain ⟨hall, rfl⟩ := ih.1 hbs
      cases h
      cases hg a b hb
      exact ⟨⟨by rw [hb]; rfl, hall⟩, rfl⟩
    · rintro ⟨⟨ha, hall⟩, rfl⟩
      obtain ⟨b, hb⟩ := exists_of_isOk ha
      rw [bind_eq_of_ok hb, bind_eq_of_ok (ih.2 ⟨hall, rfl⟩), hg a b hb]
      rfl

/-- A check of all elements succeeds if each of them passes. -/
theorem forM_eq_ok_iff {check : α → Except ε Unit} {l : List α} :
    l.forM check = .ok () ↔ ∀ a ∈ l, check a = .ok () := by
  induction l with
  | nil => simp [List.forM, pure, Except.pure]
  | cons a l ih =>
    rw [List.forall_mem_cons, ← ih]
    constructor
    · intro h
      obtain ⟨_, ha, hrest⟩ := exists_of_bind_eq_ok h
      exact ⟨ha, hrest⟩
    · rintro ⟨ha, hrest⟩
      exact (bind_eq_of_ok ha _).trans hrest

theorem isOk_bind_pure (x : Except ε α) (f : α → β) :
    (x >>= fun a => pure (f a)).isOk = x.isOk := by
  cases x <;> rfl

/-- Two readers one after the other succeed if both do. -/
theorem stateBind_eq_ok_iff {d : StateT σ (Except ε) α} {f : α → StateT σ (Except ε) β} {s s' : σ}
    {b : β} : (d >>= f) s = .ok (b, s') ↔ ∃ a t, d s = .ok (a, t) ∧ f a t = .ok (b, s') := by
  constructor
  · intro h
    obtain ⟨p, hp, hf⟩ := exists_of_bind_eq_ok (x := d s) h
    exact ⟨p.1, p.2, hp, hf⟩
  · rintro ⟨a, t, ha, hb⟩
    exact (bind_eq_of_ok (x := d s) ha _).trans hb

end ClassAtlas
