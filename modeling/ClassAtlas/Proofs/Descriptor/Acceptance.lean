import ClassAtlas.Descriptor.Parser
import ClassAtlas.Proofs.Descriptor.Grammar
import ClassAtlas.Proofs.Descriptor.Scanning

/-!
# The descriptors that are accepted

The readers of descriptors accept the grammar and nothing else, and what they give is the type whose
written form was read.

## Main results

* `Scan.accepts_fieldType` and `Scan.accepts_methodType`: a reader passes over the written form of
  the well-formed type that it gives.
* `FieldType.parse_eq_ok_iff`, `MethodType.parse_eq_ok_iff` and `Descriptor.parse_eq_ok_iff`:
  reading is the inverse of writing.
* `Descriptor.parse_exact`: which texts are accepted, and as what.
-/

namespace ClassAtlas

namespace Scan

variable {c : Cursor}

theorem accepts_className (start : Nat) : (className start).Accepts c fun name used _ =>
    used = name.toList ++ [';'] ∧ IsClassName name.toList := by
  refine (accepts_bind (accepts_takeUntil classNameStops)
    (Q := fun taken name second _ => second = [';'] ∧ taken ≠ [] ∧ name = String.ofList taken)
    fun taken used d hrest _ => accepts_peek_bind ?_).congr fun name used rest hrest => ?_
  · split
    · next hnext =>
      obtain ⟨tail, htail⟩ := List.head?_eq_some_iff.1 hnext
      split
      · next hempty =>
        refine accepts_fail_bind _ _ ?_
        rintro _ _ _ - ⟨-, hne, -⟩
        exact hne (List.isEmpty_iff.1 hempty)
      · next hne =>
        refine ((accepts_advance htail).map _).congr fun name second rest _ => ?_
        simp only [List.isEmpty_iff] at hne
        simp [hne, and_comm]
    · next ch hch hnext =>
      refine accepts_fail _ ?_
      rintro _ _ rest hrest ⟨rfl, -⟩
      rw [hrest] at hnext
      exact hch (Option.some_inj.1 hnext).symm
    · next hnone =>
      refine accepts_failAt _ _ ?_
      rintro _ _ rest hrest ⟨rfl, -⟩
      simp [hrest] at hnone
  · constructor
    · rintro ⟨taken, first, _, rfl, ⟨rfl, hstops, -⟩, rfl, hne, rfl⟩
      rw [String.toList_ofList]
      exact ⟨rfl, hne, hstops⟩
    · rintro ⟨rfl, hne, hstops⟩
      exact ⟨_, _, [';'], rfl, ⟨rfl, hstops, by simp [classNameStops]⟩, rfl, hne,
        String.ofList_toList.symm⟩

theorem accepts_elementType :
    elementType.Accepts c fun t used _ => used = t.chars ∧ t.WellFormed := by
  refine accepts_position_bind (accepts_peek_bind ?_)
  split
  · next hnext =>
    obtain ⟨tail, htail⟩ := List.head?_eq_some_iff.1 hnext
    refine (accepts_advance_bind htail fun d => (accepts_className c.position).map ElementType.object).congr
      fun t used rest hrest => ?_
    constructor
    · rintro ⟨_, rfl, name, rfl, rfl, hname⟩
      exact ⟨rfl, hname⟩
    · rintro ⟨rfl, ht⟩
      cases t with
      | primitive p => rw [htail] at hrest; cases p <;> cases hrest
      | object name => exact ⟨_, rfl, name, rfl, rfl, ht⟩
  · next hnext =>
    refine accepts_fail _ ?_
    rintro t _ rest hrest ⟨rfl, -⟩
    rw [hrest] at hnext
    cases t with
    | primitive p => cases p <;> cases hnext
    | object name => cases hnext
  · next first hL _ hnext =>
    obtain ⟨tail, htail⟩ := List.head?_eq_some_iff.1 hnext
    -- the text is that of a primitive, whose letter has to be the first character
    have hletter {t : ElementType} {rest : List Char} (hrest : c.rest = t.chars ++ rest) :
        ∃ p, t = .primitive p ∧ p.code = first := by
      rw [htail] at hrest
      cases t with
      | primitive p => exact ⟨p, rfl, (List.cons.inj hrest).1.symm⟩
      | object name => exact absurd (List.cons.inj hrest).1 hL
    split
    · next p hp =>
      have hcode : p.code = first := by simpa using List.find?_some hp
      refine ((accepts_advance htail).map _).congr fun t used rest hrest => ?_
      constructor
      · rintro ⟨_, rfl, rfl⟩
        exact ⟨by rw [ElementType.chars, hcode], trivial⟩
      · rintro ⟨rfl, -⟩
        obtain ⟨q, rfl, hq⟩ := hletter hrest
        rw [← hq, Primitive.ofCode?_code] at hp
        cases hp
        exact ⟨(), rfl, by rw [ElementType.chars, hq]⟩
    · next hp =>
      refine accepts_fail _ ?_
      rintro t _ rest hrest ⟨rfl, -⟩
      obtain ⟨q, rfl, rfl⟩ := hletter hrest
      rw [Primitive.ofCode?_code] at hp
      cases hp
  · next hnone =>
    refine accepts_fail _ ?_
    rintro t _ rest hrest ⟨rfl, -⟩
    rw [hrest] at hnone
    cases t <;> cases hnone

theorem accepts_dimensions : dimensions.Accepts c fun dims used rest =>
    used = List.replicate dims '[' ∧ dims ≤ 255 ∧ ∀ ch ∈ rest.head?, ch ≠ '[' := by
  refine accepts_position_bind (accepts_get_bind ?_)
  refine (accepts_bind (accepts_drop_takeWhile (· = '['))
    (Q := fun _ dims second _ => second = [] ∧ dims = (c.rest.takeWhile (· = '[')).length ∧
      dims ≤ 255) fun _ used d hrest hused => ?_).congr fun dims used rest hrest => ?_
  · dsimp only
    split
    · next hmany =>
      refine accepts_failAt_bind _ _ _ ?_
      rintro _ _ _ - ⟨-, rfl, hle⟩
      exact absurd hle (Nat.not_le.2 hmany)
    · next hfew =>
      refine (accepts_pure _).congr fun dims second rest _ => ?_
      constructor
      · rintro ⟨rfl, rfl⟩
        exact ⟨rfl, rfl, Nat.not_lt.1 hfew⟩
      · rintro ⟨rfl, rfl, -⟩
        exact ⟨rfl, rfl⟩
  · have htext := eq_takeWhile_iff (p := (· = '[')) hrest
    simp only [decide_eq_true_eq] at htext
    constructor
    · rintro ⟨_, first, _, rfl, hfirst, rfl, rfl, hle⟩
      rw [List.append_nil] at htext ⊢
      obtain ⟨hall, hstop⟩ := htext.1 hfirst
      exact ⟨hfirst ▸ List.eq_replicate_of_mem hall, hle, hstop⟩
    · rintro ⟨rfl, hle, hstop⟩
      have hused := htext.2 ⟨by simp, hstop⟩
      exact ⟨(), _, [], (List.append_nil _).symm, hused, rfl, by rw [← hused]; simp, hle⟩

theorem accepts_fieldType :
    fieldType.Accepts c fun t used _ => used = t.chars ∧ t.WellFormed := by
  refine (accepts_bind accepts_dimensions fun dims _ d _ _ =>
    accepts_elementType.map (FieldType.mk dims)).congr fun t used rest _ => ?_
  constructor
  · rintro ⟨dims, _, _, rfl, ⟨rfl, hdims, -⟩, element, rfl, rfl, helement⟩
    exact ⟨rfl, hdims, helement⟩
  · rintro ⟨rfl, hdims, helement⟩
    refine ⟨t.dims, _, _, rfl, ⟨rfl, hdims, ?_⟩, t.element, rfl, rfl, helement⟩
    obtain ⟨first, hfirst, others, hchars⟩ := t.element.exists_chars_eq_cons
    rintro ch hch rfl
    rw [hchars] at hch
    cases hch
    revert hfirst
    decide

theorem accepts_resultType : resultType.Accepts c fun result used _ =>
    used = resultChars result ∧ ∀ t ∈ result, t.WellFormed := by
  refine (accepts_bind (accepts_eat 'V') (Q := fun isVoid result second _ =>
    isVoid = result.isNone ∧ second = result.elim [] FieldType.chars ∧ ∀ t ∈ result, t.WellFormed)
    fun isVoid _ d _ _ => ?_).congr fun result used rest _ => ?_
  · cases isVoid with
    | true =>
      refine (accepts_pure none).congr fun result _ _ _ => ?_
      cases result <;> simp
    | false =>
      refine accepts_peek_bind ?_
      split
      · next hnone =>
        refine accepts_fail_bind _ _ ?_
        rintro (_ | t) _ rest hrest ⟨hsome, rfl, -⟩
        · cases hsome
        · obtain ⟨first, -, others, hchars⟩ := t.exists_chars_eq_cons
          rw [hrest, Option.elim_some, hchars] at hnone
          cases hnone
      · refine (accepts_fieldType.map some).congr fun result _ _ _ => ?_
        cases result <;> simp
  · constructor
    · rintro ⟨_, _, _, rfl, ⟨rfl, -⟩, rfl, rfl, hresult⟩
      cases result with
      | none => exact ⟨rfl, hresult⟩
      | some t => exact ⟨rfl, hresult⟩
    · rintro ⟨rfl, hresult⟩
      cases result with
      | none => exact ⟨true, ['V'], [], rfl, ⟨rfl, by simp⟩, rfl, rfl, hresult⟩
      | some t =>
        refine ⟨false, [], t.chars, rfl, ⟨rfl, fun _ hV => ?_⟩, rfl, rfl, hresult⟩
        obtain ⟨first, hfirst, others, hchars⟩ := t.exists_chars_eq_cons
        rw [hchars] at hV
        cases hV
        revert hfirst
        decide

/-- The parameters end before the first character that starts no type. -/
theorem accepts_parameters :
    (repeatWhile moreParameters fieldType).Accepts c fun params used rest =>
      used = params.flatMap FieldType.chars ∧ (∀ t ∈ params, t.WellFormed) ∧
        moreParameters rest.head? = false := by
  refine (accepts_repeatWhile (fun _ _ => accepts_fieldType) ?_ rfl).congr
    fun params used rest _ => repeats_iff ?_
  · rintro t _ - ⟨rfl, -⟩ hnil
    obtain ⟨first, -, others, hchars⟩ := t.exists_chars_eq_cons
    rw [hchars] at hnil
    cases hnil
  · intro t _ rest
    obtain ⟨first, hfirst, others, hchars⟩ := t.exists_chars_eq_cons
    rw [hchars, List.cons_append, List.head?_cons, moreParameters, bne_iff_ne]
    rintro rfl
    revert hfirst
    decide

theorem accepts_methodType :
    methodType.Accepts c fun m used _ => used = m.chars ∧ m.WellFormed := by
  refine (accepts_bind (accepts_expect '(' _) fun _ _ d _ _ =>
    accepts_bind accepts_parameters fun params _ d _ _ =>
      accepts_bind (accepts_expect ')' _) fun _ _ d _ _ =>
        accepts_resultType.map (MethodType.mk params)).congr fun m used rest _ => ?_
  constructor
  · rintro ⟨_, _, _, rfl, rfl, params, _, _, rfl, ⟨rfl, hparams, -⟩, _, _, _, rfl, rfl, result, rfl,
      rfl, hresult⟩
    exact ⟨rfl, hparams, hresult⟩
  · rintro ⟨rfl, hparams, hresult⟩
    exact ⟨(), ['('], _, rfl, rfl, m.params, _, _, rfl, ⟨rfl, hparams, rfl⟩, (), [')'], _, rfl, rfl,
      m.result, rfl, rfl, hresult⟩

end Scan

/-! ## Whole texts -/

theorem FieldType.parse_eq_ok_iff {text : String} {t : FieldType} :
    parse text = .ok t ↔ t.WellFormed ∧ t.text = text := by
  rw [parse, Scan.run_finish_eq_ok_iff fun _ => Scan.accepts_fieldType, FieldType.text,
    ← String.toList_inj, String.toList_ofList]
  exact ⟨fun h => ⟨h.2, h.1.symm⟩, fun h => ⟨h.2.symm, h.1⟩⟩

theorem MethodType.parse_eq_ok_iff {text : String} {m : MethodType} :
    parse text = .ok m ↔ m.WellFormed ∧ (Descriptor.method m).text = text := by
  rw [parse, Scan.run_finish_eq_ok_iff fun _ => Scan.accepts_methodType, Descriptor.text,
    ← String.toList_inj, String.toList_ofList]
  exact ⟨fun h => ⟨h.2, h.1.symm⟩, fun h => ⟨h.2.symm, h.1⟩⟩

theorem FieldType.exists_parse_eq_ok_iff {text : String} :
    (∃ t, parse text = .ok t) ↔ FieldText text.toList := by
  simp only [parse_eq_ok_iff, fieldText_iff, ← String.toList_inj, FieldType.text,
    String.toList_ofList]

theorem MethodType.exists_parse_eq_ok_iff {text : String} :
    (∃ m, parse text = .ok m) ↔ MethodText text.toList := by
  simp only [parse_eq_ok_iff, methodText_iff, ← String.toList_inj, Descriptor.text,
    String.toList_ofList, Descriptor.chars]

namespace Descriptor

/-- The first character tells which half of the grammar a text can belong to. -/
theorem head?_text_eq_paren_iff {d : Descriptor} :
    d.text.toList.head? = some '(' ↔ ∃ m, d = method m := by
  rw [text, String.toList_ofList]
  cases d with
  | method m => simp [chars, MethodType.chars]
  | field t =>
    obtain ⟨first, hfirst, others, hchars⟩ := t.exists_chars_eq_cons
    rw [chars, hchars, List.head?_cons]
    simp only [Option.some.injEq, reduceCtorEq, exists_false, iff_false]
    rintro rfl
    revert hfirst
    decide

theorem parse_eq_ok_iff {text : String} {d : Descriptor} :
    parse text = .ok d ↔ d.WellFormed ∧ d.text = text := by
  constructor
  · intro h
    rw [parse] at h
    split at h
    · obtain ⟨m, hm, rfl⟩ := exists_of_map_eq_ok h
      exact MethodType.parse_eq_ok_iff.1 hm
    · obtain ⟨t, ht, rfl⟩ := exists_of_map_eq_ok h
      exact FieldType.parse_eq_ok_iff.1 ht
  · rintro ⟨hd, rfl⟩
    cases d with
    | method m =>
      rw [parse, if_pos (head?_text_eq_paren_iff.2 ⟨m, rfl⟩),
        MethodType.parse_eq_ok_iff.2 ⟨hd, rfl⟩]
      rfl
    | field t =>
      rw [parse, if_neg (by simp [head?_text_eq_paren_iff]),
        show FieldType.parse (field t).text = .ok t from FieldType.parse_eq_ok_iff.2 ⟨hd, rfl⟩]
      rfl

theorem exists_parse_eq_ok_iff {text : String} :
    (∃ d, parse text = .ok d) ↔ FieldText text.toList ∨ MethodText text.toList := by
  rw [← FieldType.exists_parse_eq_ok_iff, ← MethodType.exists_parse_eq_ok_iff]
  simp only [parse_eq_ok_iff, FieldType.parse_eq_ok_iff, MethodType.parse_eq_ok_iff]
  constructor
  · rintro ⟨t | m, hd⟩
    · exact .inl ⟨t, hd⟩
    · exact .inr ⟨m, hd⟩
  · rintro (⟨t, ht⟩ | ⟨m, hm⟩)
    · exact ⟨field t, ht⟩
    · exact ⟨method m, hm⟩

/-- Reading accepts the two halves of the grammar, which have no text in common, and gives the
well-formed type that the text is the written form of; and every well-formed type is read back from
its written form, so two of them never share it. -/
theorem parse_exact :
    (∀ text : String,
      ((∃ d, parse text = .ok d) ↔ FieldText text.toList ∨ MethodText text.toList) ∧
      ((∃ t, FieldType.parse text = .ok t) ↔ FieldText text.toList) ∧
      ((∃ m, MethodType.parse text = .ok m) ↔ MethodText text.toList) ∧
      ¬ (FieldText text.toList ∧ MethodText text.toList) ∧
      (∀ d, parse text = .ok d → d.WellFormed ∧ d.text = text) ∧
      (∀ t, FieldType.parse text = .ok t → t.WellFormed ∧ t.text = text) ∧
      ∀ m, MethodType.parse text = .ok m → m.WellFormed ∧ (method m).text = text) ∧
    (∀ d : Descriptor, d.WellFormed → parse d.text = .ok d) ∧
    (∀ t : FieldType, t.WellFormed → FieldType.parse t.text = .ok t) ∧
    (∀ m : MethodType, m.WellFormed → MethodType.parse (method m).text = .ok m) ∧
    ∀ d e : Descriptor, d.WellFormed → e.WellFormed → d.text = e.text → d = e := by
  refine ⟨fun text => ⟨exists_parse_eq_ok_iff, FieldType.exists_parse_eq_ok_iff,
    MethodType.exists_parse_eq_ok_iff, fun h => h.1.not_methodText h.2, fun d => parse_eq_ok_iff.1,
    fun t => FieldType.parse_eq_ok_iff.1, fun m => MethodType.parse_eq_ok_iff.1⟩,
    fun d hd => parse_eq_ok_iff.2 ⟨hd, rfl⟩,
    fun t ht => FieldType.parse_eq_ok_iff.2 ⟨ht, rfl⟩,
    fun m hm => MethodType.parse_eq_ok_iff.2 ⟨hm, rfl⟩, ?_⟩
  intro d e hd he htext
  -- both are what the common text is read as
  have hread : parse d.text = .ok d := parse_eq_ok_iff.2 ⟨hd, rfl⟩
  rw [htext, parse_eq_ok_iff.2 ⟨he, rfl⟩] at hread
  exact (Except.ok.inj hread).symm

/-- A name may contain the characters that close a list of parameters or of type arguments. -/
theorem parse_exact_of_closing_name :
    let d := method ⟨[⟨255, .object "a/Größe)>V"⟩, ⟨0, .primitive .long⟩], none⟩
    d.WellFormed ∧ parse d.text = .ok d := by
  intro d
  have hd : d.WellFormed := by decide
  exact ⟨hd, parse_exact.2.1 d hd⟩

end Descriptor

end ClassAtlas
