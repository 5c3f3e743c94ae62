import ClassAtlas.Proofs.Signature.Grammar

/-!
# Every text has one form

A form is determined by its text, also when other characters follow: no form is a proper beginning
of another.

## Main results

* `RefForm.chars_append_inj`: the text of a form, whatever follows it, tells the form.
* `RefForm.text_injective`: no two forms share their text.
-/

namespace ClassAtlas

variable {r s : List Char}

/-- What stands before the first of some characters is determined. -/
theorem eq_of_append_eq_append {stops a b : List Char} (ha : ∀ c ∈ a, c ∉ stops)
    (hb : ∀ c ∈ b, c ∉ stops) (hr : ∀ c ∈ r.head?, c ∈ stops) (hs : ∀ c ∈ s.head?, c ∈ stops)
    (h : a ++ r = b ++ s) : a = b ∧ r = s := by
  induction a generalizing b with
  | nil =>
    cases b with
    | nil => exact ⟨rfl, h⟩
    | cons c b => exact absurd (hr c (congrArg List.head? h)) (hb c List.mem_cons_self)
  | cons c a ih =>
    cases b with
    | nil => exact absurd (hs c (congrArg List.head? h.symm)) (ha c List.mem_cons_self)
    | cons c' b =>
      obtain ⟨hc, htail⟩ := List.cons.inj h
      obtain ⟨hab, hrs⟩ := ih (List.forall_mem_cons.1 ha).2 (List.forall_mem_cons.1 hb).2 htail
      exact ⟨by rw [hc, hab], hrs⟩

section Lists

variable {δ : Type} {l m : List δ}

/-- A list in angle brackets is determined if its items are. -/
theorem angled_append_inj {chars : List δ → List Char} (hchars : ∀ l, chars l = [] ↔ l = [])
    (inj : ∀ {r s : List Char}, chars l ++ '>' :: r = chars m ++ '>' :: s → l = m ∧ r = s)
    (hr : r.head? ≠ some '<') (hs : s.head? ≠ some '<')
    (h : angled (chars l) ++ r = angled (chars m) ++ s) : l = m ∧ r = s := by
  by_cases hl : chars l = [] <;> by_cases hm : chars m = []
  · rw [hl, hm] at h
    exact ⟨by rw [(hchars l).1 hl, (hchars m).1 hm], h⟩
  · rw [hl, angled_of_ne_nil hm] at h
    exact absurd (congrArg List.head? h) hr
  · rw [hm, angled_of_ne_nil hl] at h
    exact absurd (congrArg List.head? h.symm) hs
  · rw [angled_of_ne_nil hl, angled_of_ne_nil hm] at h
    exact inj (by simpa using h)

/-- Items one after the other are determined if each of them is and none of them starts like what
follows. -/
theorem flatMap_append_inj {chars : δ → List Char} {starts : List Char}
    (inj : ∀ d e {r s : List Char}, chars d ++ r = chars e ++ s → d = e ∧ r = s)
    (hchars : ∀ d, StartsIn starts (chars d)) (hr : ∀ c ∈ r.head?, c ∉ starts)
    (hs : ∀ c ∈ s.head?, c ∉ starts) (h : l.flatMap chars ++ r = m.flatMap chars ++ s) :
    l = m ∧ r = s := by
  induction l generalizing m with
  | nil =>
    cases m with
    | nil => exact ⟨rfl, h⟩
    | cons e m =>
      obtain ⟨first, hfirst, others, heq⟩ := ((hchars e).append (m.flatMap chars)).append s
      exact absurd hfirst (hr first (congrArg List.head? (h.trans heq)))
  | cons d l ih =>
    cases m with
    | nil =>
      obtain ⟨first, hfirst, others, heq⟩ := ((hchars d).append (l.flatMap chars)).append r
      exact absurd hfirst (hs first (congrArg List.head? (h.symm.trans heq)))
    | cons e m =>
      rw [List.flatMap_cons, List.flatMap_cons, List.append_assoc, List.append_assoc] at h
      obtain ⟨rfl, h₁⟩ := inj d e h
      obtain ⟨rfl, h₂⟩ := ih h₁
      exact ⟨rfl, h₂⟩

end Lists

/-- What follows a name in a class type is determined if the type arguments and the other parts
are. -/
theorem ArgForm.segment_append_inj {stops name name' : List Char} {args args' : List ArgForm}
    {inner inner' : List InnerForm} (hstops : ['<', '.', ';'] ⊆ stops)
    (hname : ∀ c ∈ name, c ∉ stops) (hname' : ∀ c ∈ name', c ∉ stops)
    (hargs : ∀ {r s : List Char}, allChars args ++ '>' :: r = allChars args' ++ '>' :: s →
      args = args' ∧ r = s)
    (hinner : ∀ {r s : List Char}, InnerForm.allChars inner ++ ';' :: r =
      InnerForm.allChars inner' ++ ';' :: s → inner = inner' ∧ r = s)
    (h : name ++ (angled (allChars args) ++ (InnerForm.allChars inner ++ ';' :: r)) =
      name' ++ (angled (allChars args') ++ (InnerForm.allChars inner' ++ ';' :: s))) :
    name = name' ∧ args = args' ∧ inner = inner' ∧ r = s := by
  have hnext (args : List ArgForm) (inner : List InnerForm) (r : List Char) :=
    (startsIn_angled args (InnerForm.startsIn_allChars inner r)).mono hstops
  have hplain (inner : List InnerForm) (r : List Char) :
      (InnerForm.allChars inner ++ ';' :: r).head? ≠ some '<' := fun hhead =>
    absurd ((InnerForm.startsIn_allChars inner r).mem_of_head? hhead) (by decide)
  obtain ⟨rfl, h₁⟩ := eq_of_append_eq_append hname hname'
    (fun _ => (hnext _ _ _).mem_of_head?) (fun _ => (hnext _ _ _).mem_of_head?) h
  obtain ⟨rfl, h₂⟩ := angled_append_inj (fun _ => allChars_eq_nil_iff) hargs (hplain _ _)
    (hplain _ _) h₁
  obtain ⟨rfl, h₃⟩ := hinner h₂
  exact ⟨rfl, rfl, rfl, h₃⟩

-- Each case strips a character or a name off both texts and goes on with what is left, so the rest
-- of the text has to be general.
mutual

theorem RefForm.chars_append_inj : (d e : RefForm) → {r s : List Char} →
    d.chars ++ r = e.chars ++ s → d = e ∧ r = s
  | .object path args inner, .object path' args' inner', r, s, h => by
    obtain ⟨hpath, rfl, rfl, hrs⟩ := ArgForm.segment_append_inj (by decide) path.2.2.1 path'.2.2.1
      (ArgForm.allChars_append_inj args args') (InnerForm.allChars_append_inj inner inner')
      (by simpa [RefForm.chars] using h)
    exact ⟨by rw [Subtype.ext hpath], hrs⟩
  | .var name, .var name', r, s, h => by
    have htail : name.val ++ ';' :: r = name'.val ++ ';' :: s := by simpa [RefForm.chars] using h
    obtain ⟨hname, hrs⟩ := eq_of_append_eq_append name.2.2 name'.2.2 (by simp) (by simp) htail
    exact ⟨by rw [Subtype.ext hname], (List.cons.inj hrs).2⟩
  | .array element, .array element', r, s, h => by
    obtain ⟨rfl, hrs⟩ := SigForm.chars_append_inj element element' (List.cons.inj h).2
    exact ⟨rfl, hrs⟩
  | .object _ _ _, .var _, _, _, h | .object _ _ _, .array _, _, _, h
  | .var _, .object _ _ _, _, _, h | .var _, .array _, _, _, h
  | .array _, .object _ _ _, _, _, h | .array _, .var _, _, _, h => by
    simp [RefForm.chars] at h

theorem SigForm.chars_append_inj : (d e : SigForm) → {r s : List Char} →
    d.chars ++ r = e.chars ++ s → d = e ∧ r = s
  | .primitive p, .primitive p', r, s, h => by
    obtain ⟨hcode, hrs⟩ := List.cons.inj h
    have hsome := Primitive.ofCode?_code p
    rw [show p.code = p'.code from hcode, Primitive.ofCode?_code] at hsome
    cases hsome
    exact ⟨rfl, hrs⟩
  | .ref type, .ref type', r, s, h => by
    obtain ⟨rfl, hrs⟩ := type.chars_append_inj type' h
    exact ⟨rfl, hrs⟩
  | .primitive p, .ref type, _, s, h =>
    absurd h.symm ((type.startsIn_chars.append s).ne_cons (by cases p <;> decide) _)
  | .ref type, .primitive p, r, _, h =>
    absurd h ((type.startsIn_chars.append r).ne_cons (by cases p <;> decide) _)

theorem ArgForm.chars_append_inj : (a b : ArgForm) → {r s : List Char} →
    a.chars ++ r = b.chars ++ s → a = b ∧ r = s
  | .any, .any, r, s, h => ⟨rfl, (List.cons.inj h).2⟩
  | .upTo bound, .upTo bound', r, s, h => by
    obtain ⟨rfl, hrs⟩ := bound.chars_append_inj bound' (List.cons.inj h).2
    exact ⟨rfl, hrs⟩
  | .downTo bound, .downTo bound', r, s, h => by
    obtain ⟨rfl, hrs⟩ := bound.chars_append_inj bound' (List.cons.inj h).2
    exact ⟨rfl, hrs⟩
  | .exactly type, .exactly type', r, s, h => by
    obtain ⟨rfl, hrs⟩ := type.chars_append_inj type' h
    exact ⟨rfl, hrs⟩
  | .any, .upTo _, _, _, h | .any, .downTo _, _, _, h | .upTo _, .any, _, _, h
  | .upTo _, .downTo _, _, _, h | .downTo _, .any, _, _, h | .downTo _, .upTo _, _, _, h => by
    simp [ArgForm.chars] at h
  | .exactly type, .any, r, _, h | .exactly type, .upTo _, r, _, h
  | .exactly type, .downTo _, r, _, h =>
    absurd h ((type.startsIn_chars.append r).ne_cons (by decide) _)
  | .any, .exactly type, _, s, h | .upTo _, .exactly type, _, s, h
  | .downTo _, .exactly type, _, s, h =>
    absurd h.symm ((type.startsIn_chars.append s).ne_cons (by decide) _)

theorem ArgForm.allChars_append_inj : (l m : List ArgForm) → {r s : List Char} →
    ArgForm.allChars l ++ '>' :: r = ArgForm.allChars m ++ '>' :: s → l = m ∧ r = s
  | [], [], r, s, h => ⟨rfl, (List.cons.inj h).2⟩
  | a :: l, b :: m, r, s, h => by
    obtain ⟨rfl, h₁⟩ := a.chars_append_inj b (by simpa [ArgForm.allChars] using h)
    obtain ⟨rfl, h₂⟩ := ArgForm.allChars_append_inj l m h₁
    exact ⟨rfl, h₂⟩
  | [], b :: m, _, s, h =>
    absurd h.symm (((b.startsIn_chars.append _).append _).ne_cons (by decide) _)
  | a :: l, [], r, _, h =>
    absurd h (((a.startsIn_chars.append _).append _).ne_cons (by decide) _)

theorem InnerForm.allChars_append_inj : (l m : List InnerForm) → {r s : List Char} →
    InnerForm.allChars l ++ ';' :: r = InnerForm.allChars m ++ ';' :: s → l = m ∧ r = s
  | [], [], r, s, h => ⟨rfl, (List.cons.inj h).2⟩
  | .mk name args :: l, .mk name' args' :: m, r, s, h => by
    obtain ⟨hname, rfl, rfl, hrs⟩ := ArgForm.segment_append_inj (by decide) name.2.2 name'.2.2
      (ArgForm.allChars_append_inj args args') (InnerForm.allChars_append_inj l m)
      (by simpa [InnerForm.allChars, InnerForm.chars] using h)
    exact ⟨by rw [Subtype.ext hname], hrs⟩
  | [], .mk _ _ :: _, _, _, h | .mk _ _ :: _, [], _, _, h => by
    simp [InnerForm.allChars, InnerForm.chars] at h

end

theorem RefForm.text_injective {d e : RefForm} (h : d.text = e.text) : d = e :=
  (d.chars_append_inj e (congrArg (· ++ []) (String.ofList_injective h))).1

end ClassAtlas
