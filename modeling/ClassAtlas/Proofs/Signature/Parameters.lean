import ClassAtlas.Proofs.Signature.Acceptance
import Mathlib.Data.List.Chain

/-!
# Type parameters

```text
TypeParams := '<' TypeParam+ '>'
TypeParam  := Ident ':' RefType? (':' RefType)*
```

A parameter may have no bounds at all, and then the name of the next one directly follows its colon.
The grammar stays unambiguous, because a name ends with a colon and no reference type has one at
that place. The reader however decides by the first character whether a bound follows, so it takes
the name for a bound if that starts with `L` or `T`.

## Main definitions

* `ParamForm` is a derivation of a type parameter.
* `ParamForm.Clash` says that the second of two parameters is taken for a bound of the first.

## Main results

* `ParamForm.flatMap_chars_append_inj`: a list of parameters is determined by its text.
* `Scan.accepts_typeParams`: the lists that are accepted are those without such a pair.
-/

namespace ClassAtlas

variable {r s : List Char}

/-- A derivation of a type parameter. -/
structure ParamForm where
  name : Ident
  classBound : Option RefForm
  interfaceBounds : List RefForm

/-- The bounds of a type parameter. -/
def TypeParam.bounds (p : TypeParam) : List RefType := p.classBound.toList ++ p.interfaceBounds

theorem TypeParam.forall_bounds_iff {P : RefType → Prop} {p : TypeParam} :
    (∀ t ∈ p.bounds, P t) ↔ (∀ t ∈ p.classBound, P t) ∧ ∀ t ∈ p.interfaceBounds, P t := by
  simp only [bounds, List.forall_mem_append, Option.mem_toList, Option.mem_def]

theorem Ident.exists_eq_cons (name : Ident) :
    ∃ first others, name.val = first :: others ∧ first ∉ ['.', ';', '[', '/', '<', '>', ':'] := by
  obtain ⟨first, others, heq⟩ := List.exists_cons_of_ne_nil name.2.1
  exact ⟨first, others, heq, name.2.2 first (by rw [heq]; exact List.mem_cons_self)⟩

theorem Ident.append_ne_cons (name : Ident) {c : Char}
    (hc : c ∈ ['.', ';', '[', '/', '<', '>', ':']) (r s : List Char) : name.val ++ r ≠ c :: s := by
  obtain ⟨first, others, heq, hfirst⟩ := name.exists_eq_cons
  intro h
  rw [heq] at h
  exact hfirst ((List.cons.inj h).1 ▸ hc)

/-- The text of a bound by an interface. -/
def RefForm.interfaceChars (d : RefForm) : List Char := ':' :: d.chars

namespace ParamForm

/-- The text of the bounds. -/
def boundChars (classBound : Option RefForm) (interfaceBounds : List RefForm) : List Char :=
  classBound.elim [] RefForm.chars ++ interfaceBounds.flatMap RefForm.interfaceChars

def chars (p : ParamForm) : List Char :=
  p.name.val ++ ':' :: boundChars p.classBound p.interfaceBounds

def tree (p : ParamForm) : TypeParam :=
  ⟨String.ofList p.name.val, p.classBound.map RefForm.tree, p.interfaceBounds.map RefForm.tree⟩

/-- The parameter has no bounds. -/
def Bare (p : ParamForm) : Prop := p.classBound = none ∧ p.interfaceBounds = []

/-- The name of `q` starts like a bound where one of `p` could stand. -/
def Clash (p q : ParamForm) : Prop := p.Bare ∧ ∃ first ∈ q.name.val.head?, first ∈ ['L', 'T']

/-- No parameter is taken for a bound of the one before it. -/
def NoClash (ps : List ParamForm) : Prop := ps.IsChain fun p q => ¬ p.Clash q

/-! ## Unambiguity -/

/-- What can follow a parameter: the end of the list or the name of another one. -/
inductive Follows : List Char → Prop where
  | close (rest : List Char) : Follows ('>' :: rest)
  | param (name : Ident) (rest : List Char) : Follows (name.val ++ ':' :: rest)

theorem follows_flatMap_chars (ps : List ParamForm) (rest : List Char) :
    Follows (ps.flatMap chars ++ '>' :: rest) := by
  cases ps with
  | nil => exact .close rest
  | cons p ps =>
    rw [List.flatMap_cons, chars, List.append_assoc, List.append_assoc, List.cons_append]
    exact .param p.name _

theorem Follows.head?_ne_colon (h : Follows r) : r.head? ≠ some ':' := by
  cases h with
  | close rest => simp
  | param name rest =>
    intro hcolon
    obtain ⟨others, heq⟩ := List.head?_eq_some_iff.1 hcolon
    exact name.append_ne_cons (by decide) _ _ heq

/-- A bound does not look like the name of a parameter up to its colon. -/
theorem Follows.ne_chars_append (h : Follows r) (d : RefForm) (s : List Char) :
    r ≠ d.chars ++ s := by
  cases h with
  | close rest => exact ((d.startsIn_chars.append s).ne_cons (by decide) rest).symm
  | param name rest =>
    intro heq
    -- the longest beginning without separators ends at the colon in one text and before it in the
    -- other
    cases d with
    | object path args inner =>
      have hnext := ArgForm.startsIn_angled args (InnerForm.startsIn_allChars inner s)
      have hpath : ∀ c ∈ 'L' :: path.val, c ∉ ['.', ';', '[', '<', '>', ':'] :=
        List.forall_mem_cons.2 ⟨by decide, path.2.2.1⟩
      have hname : ∀ c ∈ name.val, c ∉ ['.', ';', '[', '<', '>', ':'] := fun c hc hstop =>
        name.2.2 c hc (by grind)
      have htail : name.val ++ ':' :: rest = ('L' :: path.val) ++
          (angled (ArgForm.allChars args) ++ (InnerForm.allChars inner ++ ';' :: s)) := by
        simpa [RefForm.chars] using heq
      obtain ⟨-, hrest⟩ := eq_of_append_eq_append hname hpath (by simp)
        (fun c hc => (hnext.mono (by decide)).mem_of_head? hc) htail
      exact hnext.ne_cons (by decide) rest hrest.symm
    | var name' =>
      have hname' : ∀ c ∈ 'T' :: name'.val, c ∉ ['.', ';', '[', '/', '<', '>', ':'] :=
        List.forall_mem_cons.2 ⟨by decide, name'.2.2⟩
      have htail : name.val ++ ':' :: rest = ('T' :: name'.val) ++ ';' :: s := by
        simpa [RefForm.chars] using heq
      obtain ⟨-, hrest⟩ := eq_of_append_eq_append name.2.2 hname' (by simp) (by simp) htail
      cases hrest
    | array element => exact name.append_ne_cons (by decide) _ _ heq

theorem interfaces_append_inj {l m : List RefForm} (hr : Follows r) (hs : Follows s)
    (h : l.flatMap RefForm.interfaceChars ++ r = m.flatMap RefForm.interfaceChars ++ s) :
    l = m ∧ r = s := by
  have hstop {r : List Char} (hr : Follows r) : ∀ c ∈ r.head?, c ∉ [':'] := by
    intro c hc hcolon
    rw [List.mem_singleton.1 hcolon] at hc
    exact hr.head?_ne_colon hc
  exact flatMap_append_inj (fun d e _ _ heq => d.chars_append_inj e (List.cons.inj heq).2)
    (fun d => .cons (by decide)) (hstop hr) (hstop hs) h

/-- A class bound cannot be taken for what follows a parameter without one. -/
theorem interfaces_append_ne {l : List RefForm} (hr : Follows r) (d : RefForm) (s : List Char) :
    l.flatMap RefForm.interfaceChars ++ r ≠ d.chars ++ s := by
  cases l with
  | nil => exact hr.ne_chars_append d s
  | cons e l => exact ((d.startsIn_chars.append s).ne_cons (by decide) _).symm

theorem boundChars_append_inj {bound bound' : Option RefForm} {l m : List RefForm} (hr : Follows r)
    (hs : Follows s) (h : boundChars bound l ++ r = boundChars bound' m ++ s) :
    bound = bound' ∧ l = m ∧ r = s := by
  unfold boundChars at h
  rw [List.append_assoc, List.append_assoc] at h
  cases bound with
  | none =>
    cases bound' with
    | none =>
      obtain ⟨rfl, hrs⟩ := interfaces_append_inj hr hs h
      exact ⟨rfl, rfl, hrs⟩
    | some e => exact absurd h (interfaces_append_ne hr e _)
  | some d =>
    cases bound' with
    | none => exact absurd h.symm (interfaces_append_ne hs d _)
    | some e =>
      obtain ⟨rfl, h₁⟩ := d.chars_append_inj e h
      obtain ⟨rfl, hrs⟩ := interfaces_append_inj hr hs h₁
      exact ⟨rfl, rfl, hrs⟩

theorem flatMap_chars_cons_append (p : ParamForm) (ps : List ParamForm) (r : List Char) :
    (p :: ps).flatMap chars ++ r = p.name.val ++
      ':' :: (boundChars p.classBound p.interfaceBounds ++ (ps.flatMap chars ++ r)) := by
  rw [List.flatMap_cons, chars]
  simp

theorem flatMap_chars_eq_nil_iff {ps : List ParamForm} : ps.flatMap chars = [] ↔ ps = [] := by
  cases ps with
  | nil => simp
  | cons p ps => simp [chars]

/-- A list of parameters is determined by its text, also where names are taken for bounds. -/
theorem flatMap_chars_append_inj {ps qs : List ParamForm}
    (h : ps.flatMap chars ++ '>' :: r = qs.flatMap chars ++ '>' :: s) : ps = qs ∧ r = s := by
  induction ps generalizing qs with
  | nil =>
    cases qs with
    | nil => exact ⟨rfl, (List.cons.inj h).2⟩
    | cons q qs =>
      rw [flatMap_chars_cons_append] at h
      exact absurd h.symm (q.name.append_ne_cons (by decide) _ _)
  | cons p ps ih =>
    cases qs with
    | nil =>
      rw [flatMap_chars_cons_append] at h
      exact absurd h (p.name.append_ne_cons (by decide) _ _)
    | cons q qs =>
      rw [flatMap_chars_cons_append, flatMap_chars_cons_append] at h
      obtain ⟨hname, h₁⟩ := eq_of_append_eq_append p.name.2.2 q.name.2.2 (by simp) (by simp) h
      obtain ⟨hclass, hinterfaces, h₂⟩ := boundChars_append_inj (follows_flatMap_chars ps r)
        (follows_flatMap_chars qs s) (List.cons.inj h₁).2
      obtain ⟨rfl, h₃⟩ := ih h₂
      have hpq : p = q := by
        cases p
        cases q
        simp only [ParamForm.mk.injEq]
        exact ⟨Subtype.ext hname, hclass, hinterfaces⟩
      exact ⟨by rw [hpq], h₃⟩

end ParamForm

/-! ## Acceptance -/

namespace Scan

variable {c : Cursor}

theorem opensRefType_of_startsIn {cs : List Char} (h : StartsIn ['L', 'T', '['] cs) :
    opensRefType cs.head? = true := by
  obtain ⟨first, hfirst, others, rfl⟩ := h
  revert hfirst
  simp [opensRefType, or_assoc]

/-- What the reader of a type parameter accepts: a bound is read wherever it could start. -/
def ParamRead (p : TypeParam) (used rest : List Char) : Prop :=
  ∃ d : ParamForm, d.chars = used ∧ d.tree = p ∧ (∀ t ∈ p.bounds, t.Fits maxArgumentDepth) ∧
    rest.head? ≠ some ':' ∧ (d.Bare → opensRefType rest.head? = false)

theorem accepts_interfaceBounds :
    (repeatWhile (· == some ':') (advance *> refType)).Accepts c fun bounds used rest =>
      ∃ ds : List RefForm, ds.flatMap RefForm.interfaceChars = used ∧ ds.map RefForm.tree = bounds ∧
        (∀ t ∈ bounds, t.Fits maxArgumentDepth) ∧ (rest.head? == some ':') = false := by
  refine accepts_repeatWhile_derives [':'] (fun c hcolon => ?_) (fun d => .cons (by decide))
    (by decide) rfl
  obtain ⟨tail, htail⟩ := List.head?_eq_some_iff.1 (eq_of_beq hcolon)
  refine (accepts_advance_bind htail fun d => accepts_refType).congr fun t used rest _ => ?_
  constructor
  · rintro ⟨_, rfl, d, rfl, rfl, hfits⟩
    exact ⟨d, rfl, rfl, hfits⟩
  · rintro ⟨d, rfl, rfl, hfits⟩
    exact ⟨_, rfl, d, rfl, rfl, hfits⟩

/-- What is accepted after the colon of a parameter. -/
def BoundsRead (name : List Char) (p : TypeParam) (used rest : List Char) : Prop :=
  ∃ (bound : Option RefForm) (l : List RefForm), ParamForm.boundChars bound l = used ∧
    p = ⟨String.ofList name, bound.map RefForm.tree, l.map RefForm.tree⟩ ∧
    (∀ t ∈ p.bounds, t.Fits maxArgumentDepth) ∧ rest.head? ≠ some ':' ∧
    (bound = none → l = [] → opensRefType rest.head? = false)

theorem accepts_typeParam : typeParam.Accepts c ParamRead := by
  refine (accepts_bind (accepts_identifier _) fun name _ d _ _ =>
    accepts_bind (accepts_expect ':' _) (Q := fun _ => BoundsRead name)
      fun _ _ d _ _ => accepts_peek_bind ?_).congr fun p used rest _ => ?_
  · dsimp only
    split
    · next hopens =>
      refine (accepts_bind (accepts_refType.map some) fun bound _ d _ _ =>
        accepts_interfaceBounds.map (TypeParam.mk (String.ofList name) bound)).congr
          fun p used rest hrest => ?_
      constructor
      · rintro ⟨_, _, _, rfl, ⟨_, rfl, e, rfl, rfl, hbound⟩, _, rfl, l, rfl, rfl, hl, hstop⟩
        refine ⟨some e, l, rfl, rfl, TypeParam.forall_bounds_iff.2 ⟨?_, hl⟩, by simpa using hstop,
          fun hnone => by cases hnone⟩
        rintro _ ⟨⟩
        exact hbound
      · rintro ⟨bound, l, rfl, rfl, hfits, hcolon, hbare⟩
        obtain ⟨hbound, hl⟩ := TypeParam.forall_bounds_iff.1 hfits
        cases bound with
        | none =>
          -- neither an interface nor, without one, what follows could be taken for a class bound
          rw [hrest] at hopens
          cases l with
          | nil => exact absurd ((hbare rfl rfl).symm.trans hopens) (by decide)
          | cons e l => cases hopens
        | some e =>
          exact ⟨_, _, _, rfl, ⟨_, rfl, e, rfl, rfl, hbound _ rfl⟩, _, rfl, l, rfl, rfl, hl,
            by simpa using hcolon⟩
    · next hopens =>
      refine (accepts_bind (accepts_pure none) fun bound _ d _ _ =>
        accepts_interfaceBounds.map (TypeParam.mk (String.ofList name) bound)).congr
          fun p used rest hrest => ?_
      constructor
      · rintro ⟨_, _, _, rfl, ⟨rfl, rfl⟩, _, rfl, l, rfl, rfl, hl, hstop⟩
        refine ⟨none, l, rfl, rfl, TypeParam.forall_bounds_iff.2 ⟨nofun, hl⟩,
          by simpa using hstop, fun _ hnil => ?_⟩
        subst hnil
        rw [hrest] at hopens
        simpa using hopens
      · rintro ⟨bound, l, rfl, rfl, hfits, hcolon, hbare⟩
        obtain ⟨-, hl⟩ := TypeParam.forall_bounds_iff.1 hfits
        cases bound with
        | none => exact ⟨_, _, _, rfl, ⟨rfl, rfl⟩, _, rfl, l, rfl, rfl, hl, by simpa using hcolon⟩
        | some e =>
          rw [hrest] at hopens
          exact absurd (opensRefType_of_startsIn ((e.startsIn_chars.append _).append rest)) hopens
  · constructor
    · rintro ⟨_, _, _, rfl, ⟨ident, rfl, rfl, -⟩, _, _, _, rfl, rfl, bound, l, rfl, rfl, hfits,
        hcolon, hbare⟩
      exact ⟨⟨ident, bound, l⟩, rfl, rfl, hfits, hcolon, fun h => hbare h.1 h.2⟩
    · rintro ⟨d, rfl, rfl, hfits, hcolon, hbare⟩
      exact ⟨_, _, _, rfl, ⟨d.name, rfl, rfl, by simp [identStops]⟩, (), [':'], _, rfl, rfl,
        d.classBound, d.interfaceBounds, rfl, rfl, hfits, hcolon, fun h h' => hbare ⟨h, h'⟩⟩

/-- Only a name that starts like a bound is taken for one. -/
theorem not_clash_iff (p : ParamForm) (ps : List ParamForm) (rest : List Char) :
    (p.Bare → opensRefType (ps.flatMap ParamForm.chars ++ '>' :: rest).head? = false) ↔
      ∀ q ∈ ps.head?, ¬ p.Clash q := by
  cases ps with
  | nil => simp [opensRefType]
  | cons q ps =>
    obtain ⟨first, others, heq, hfirst⟩ := q.name.exists_eq_cons
    have hopens : opensRefType (some first) = false ↔ first ∉ ['L', 'T'] := by
      grind [opensRefType]
    have hclash : p.Clash q ↔ p.Bare ∧ first ∈ ['L', 'T'] := by
      simp [ParamForm.Clash, heq]
    rw [ParamForm.flatMap_chars_cons_append, heq, List.cons_append, List.head?_cons, hopens]
    simp only [List.head?_cons, Option.mem_def, Option.some.injEq, forall_eq', hclash, not_and]

theorem moreInAngles_chars (p : ParamForm) (r : List Char) :
    moreInAngles (p.chars ++ r).head? = true := by
  obtain ⟨first, others, heq, hfirst⟩ := p.name.exists_eq_cons
  rw [ParamForm.chars, heq]
  simp only [List.cons_append, List.head?_cons, moreInAngles, bne_iff_ne]
  rintro rfl
  exact hfirst (by decide)

/-- Parameters one after the other, up to the end of the list. -/
theorem repeats_paramRead_iff {l : List TypeParam} {used rest : List Char} :
    Repeats moreInAngles ParamRead l used ('>' :: rest) ↔
      ∃ ps : List ParamForm, ps.flatMap ParamForm.chars = used ∧ ps.map ParamForm.tree = l ∧
        (∀ p ∈ l, ∀ t ∈ p.bounds, t.Fits maxArgumentDepth) ∧ ParamForm.NoClash ps := by
  constructor
  · intro h
    generalize hrest : '>' :: rest = rest' at h
    induction h with
    | nil _ => exact ⟨[], rfl, rfl, by simp, .nil⟩
    | cons _ hfirst _ ih =>
      obtain ⟨p, rfl, rfl, hp, -, hbare⟩ := hfirst
      obtain ⟨ps, rfl, rfl, hps, hchain⟩ := ih hrest
      subst hrest
      exact ⟨p :: ps, rfl, rfl, List.forall_mem_cons.2 ⟨hp, hps⟩,
        List.isChain_cons.2 ⟨(not_clash_iff p ps rest).1 hbare, hchain⟩⟩
  · rintro ⟨ps, rfl, rfl, hps, hchain⟩
    induction ps with
    | nil => exact .nil rfl
    | cons p ps ih =>
      rw [List.map_cons, List.forall_mem_cons] at hps
      obtain ⟨hclash, hchain⟩ := List.isChain_cons.1 hchain
      refine .cons ?_ ⟨p, rfl, rfl, hps.1, ?_, (not_clash_iff p ps rest).2 hclash⟩ (ih hps.2 hchain)
      · exact moreInAngles_chars p _
      · exact (ParamForm.follows_flatMap_chars ps rest).head?_ne_colon

/-- What is accepted as a list of type parameters, of which the grammar has more. -/
theorem accepts_typeParams : typeParams.Accepts c fun l used rest =>
    ∃ ps : List ParamForm, angled (ps.flatMap ParamForm.chars) = used ∧ ps.map ParamForm.tree = l ∧
      (∀ p ∈ l, ∀ t ∈ p.bounds, t.Fits maxArgumentDepth) ∧ ParamForm.NoClash ps ∧
      (ps = [] → rest.head? ≠ some '<') := by
  have hnonempty : ∀ p used rest, ParamRead p used rest → used ≠ [] := by
    rintro _ _ _ ⟨d, rfl, -⟩
    simp [ParamForm.chars]
  refine (accepts_bind (accepts_eat '<') (Q := fun found l second rest =>
    if found then l ≠ [] ∧ ∃ front, second = front ++ ['>'] ∧
      Repeats moreInAngles ParamRead l front ('>' :: rest) else l = [] ∧ second = [])
    fun found _ d _ _ => ?_).congr fun l used rest _ => ?_
  · cases found with
    | false => exact (accepts_pure []).congr fun _ _ _ _ => Iff.rfl
    | true =>
      refine (accepts_bind accepts_typeParam fun first _ d _ _ =>
        accepts_bind (accepts_repeatWhile (fun _ _ => accepts_typeParam) hnonempty rfl)
          fun others _ d _ _ => (accepts_expect '>' _).map fun _ => first :: others).congr
            fun l second rest _ => ?_
      rw [if_pos rfl]
      constructor
      · rintro ⟨p, f, _, rfl, hp, others, o, _, rfl, hothers, _, rfl, rfl⟩
        refine ⟨List.cons_ne_nil p others, f ++ o, (List.append_assoc ..).symm,
          .cons ?_ (by simpa using hp) hothers⟩
        obtain ⟨d, rfl, -⟩ := hp
        exact moreInAngles_chars d _
      · rintro ⟨hne, front, rfl, h⟩
        cases h with
        | nil => exact absurd rfl hne
        | cons _ hfirst hothers =>
          exact ⟨_, _, _, List.append_assoc .., by simpa using hfirst, _, _, _, rfl, hothers, (),
            rfl, rfl⟩
  · constructor
    · rintro ⟨found, _, _, rfl, ⟨rfl, hstop⟩, h⟩
      cases found with
      | false =>
        obtain ⟨rfl, rfl⟩ := h
        exact ⟨[], rfl, rfl, by simp, .nil, fun _ => by simpa using hstop rfl⟩
      | true =>
        obtain ⟨hne, front, rfl, h⟩ := h
        obtain ⟨ps, rfl, rfl, hps, hchain⟩ := repeats_paramRead_iff.1 h
        have hps' : ps ≠ [] := by simpa using hne
        refine ⟨ps, ?_, rfl, hps, hchain, fun hnil => absurd hnil hps'⟩
        rw [angled_of_ne_nil (mt ParamForm.flatMap_chars_eq_nil_iff.1 hps')]
        rfl
    · rintro ⟨ps, rfl, rfl, hps, hchain, hstop⟩
      by_cases hnil : ps = []
      · subst hnil
        exact ⟨false, [], [], rfl, ⟨rfl, fun _ => hstop rfl⟩, rfl, rfl⟩
      · rw [angled_of_ne_nil (mt ParamForm.flatMap_chars_eq_nil_iff.1 hnil)]
        exact ⟨true, ['<'], _, rfl, ⟨rfl, by simp⟩, by simpa using hnil, _, rfl,
          repeats_paramRead_iff.2 ⟨ps, rfl, rfl, hps, hchain⟩⟩

end Scan

end ClassAtlas
