import ClassAtlas.Proofs.Descriptor.Acceptance
import ClassAtlas.Proofs.Signature.Limits
import ClassAtlas.Proofs.Signature.Unambiguity

/-!
# The reference types that are accepted

The reader of reference types accepts the texts of the forms within the limits, and gives the type
that the form stands for. What a reader accepts where `n` levels of nesting are left is described by
the forms that fit into `n` levels, so the induction is on the number of levels.

## Main results

* `Scan.accepts_refTypeWith`, `Scan.accepts_classTypeWith`: what is accepted, given what the reader
  of lists of type arguments accepts.
* `Scan.accepts_nestedArgs`: the lists of type arguments that are accepted.
* `RefType.parse_eq_ok_iff`: the texts that are accepted as a whole.
* `RefType.parse_reads_forms`: a text is accepted exactly if it has a form within the limits, the
  form is unique, and the type is read back from its own written form.
-/

namespace ClassAtlas

namespace Scan

variable {c : Cursor} {n : Nat}

/-! ## Derivations -/

section Derives

variable {δ α : Type} {chars : δ → List Char} {tree : δ → α} {fits : α → Prop}

/-- The text is that of a form which stands for the value, and the value is within the limits. -/
def Derives (chars : δ → List Char) (tree : δ → α) (fits : α → Prop) (a : α)
    (used _rest : List Char) : Prop :=
  ∃ d, chars d = used ∧ tree d = a ∧ fits a

theorem repeats_derives_iff {more : Option Char → Bool}
    (hmore : ∀ d rest, more (chars d ++ rest).head? = true) {l : List α} {used rest : List Char} :
    Repeats more (Derives chars tree fits) l used rest ↔
      ∃ ds : List δ, ds.flatMap chars = used ∧ ds.map tree = l ∧ (∀ a ∈ l, fits a) ∧
        more rest.head? = false := by
  constructor
  · intro h
    induction h with
    | nil hstop => exact ⟨[], rfl, rfl, by simp, hstop⟩
    | cons _ hfirst _ ih =>
      obtain ⟨d, rfl, rfl, hd⟩ := hfirst
      obtain ⟨ds, rfl, rfl, hds, hstop⟩ := ih
      exact ⟨d :: ds, rfl, rfl, List.forall_mem_cons.2 ⟨hd, hds⟩, hstop⟩
  · rintro ⟨ds, rfl, rfl, hds, hstop⟩
    induction ds with
    | nil => exact .nil hstop
    | cons d ds ih =>
      rw [List.map_cons, List.forall_mem_cons] at hds
      exact .cons (hmore d _) ⟨d, rfl, rfl, hds.1⟩ (ih hds.2)

/-- Items one after the other, each of which starts as an item has to. -/
theorem accepts_repeatWhile_derives {more : Option Char → Bool} {item : Scan α}
    (starts : List Char)
    (hitem : ∀ c, more c.rest.head? = true → item.Accepts c (Derives chars tree fits))
    (hchars : ∀ d, StartsIn starts (chars d)) (hmore : starts.all (more ∘ some) = true)
    (hend : more none = false) :
    (repeatWhile more item).Accepts c fun l used rest =>
      ∃ ds : List δ, ds.flatMap chars = used ∧ ds.map tree = l ∧ (∀ a ∈ l, fits a) ∧
        more rest.head? = false := by
  refine (accepts_repeatWhile hitem ?_ hend).congr fun l used rest _ => repeats_derives_iff ?_
  · rintro _ _ - ⟨d, rfl, -⟩
    exact (hchars d).ne_nil
  · intro d rest
    obtain ⟨first, hfirst, others, heq⟩ := (hchars d).append rest
    rw [heq]
    exact List.all_eq_true.1 hmore first hfirst

end Derives

/-! ## Names and type arguments -/

/-- An identifier goes on as far as it can. -/
theorem accepts_identifier (fault : Fault) : (identifier fault).Accepts c fun name used rest =>
    ∃ ident : Ident, name = ident.val ∧ used = ident.val ∧ ∀ ch ∈ rest.head?, ch ∈ identStops := by
  refine (accepts_bind (accepts_takeUntil identStops)
    (Q := fun taken name second _ => taken ≠ [] ∧ name = taken ∧ second = [])
    fun taken _ d _ _ => ?_).congr fun name used rest _ => ?_
  · split
    · next hempty =>
      refine accepts_fail_bind _ _ ?_
      rintro _ _ _ - ⟨hne, -⟩
      exact hne (List.isEmpty_iff.1 hempty)
    · next hne =>
      refine (accepts_pure taken).congr fun name second rest _ => ?_
      simp_all
  · constructor
    · rintro ⟨taken, _, _, rfl, ⟨rfl, hstops, hnext⟩, hne, rfl, rfl⟩
      exact ⟨⟨name, hne, hstops⟩, rfl, by simp, hnext⟩
    · rintro ⟨ident, rfl, rfl, hnext⟩
      exact ⟨_, _, [], by simp, ⟨rfl, ident.2.2, hnext⟩, ident.2.1, rfl, rfl⟩

theorem accepts_typeArg {ref : Scan RefType}
    (href : ∀ c, ref.Accepts c (Derives RefForm.chars RefForm.tree (RefType.Fits n))) :
    (typeArg ref).Accepts c (Derives ArgForm.chars ArgForm.tree (TypeArg.Fits n)) := by
  refine accepts_peek_bind ?_
  split
  · next hnext =>
    obtain ⟨tail, htail⟩ := List.head?_eq_some_iff.1 hnext
    refine ((accepts_advance htail).map fun _ => TypeArg.any).congr fun arg used rest hrest => ?_
    constructor
    · rintro ⟨_, rfl, rfl⟩
      exact ⟨.any, rfl, rfl, Nat.zero_le _, Nat.zero_le _⟩
    · rintro ⟨a, rfl, rfl, -⟩
      obtain rfl := (ArgForm.kind_of_cons (htail.symm.trans hrest)).1 rfl
      exact ⟨(), rfl, rfl⟩
  · next hnext =>
    obtain ⟨tail, htail⟩ := List.head?_eq_some_iff.1 hnext
    refine (accepts_advance_bind htail fun d => (href d).map TypeArg.upTo).congr
      fun arg used rest hrest => ?_
    constructor
    · rintro ⟨_, rfl, _, rfl, d, rfl, rfl, hd⟩
      exact ⟨.upTo d, rfl, rfl, hd⟩
    · rintro ⟨a, rfl, rfl, ha⟩
      obtain ⟨d, rfl⟩ := (ArgForm.kind_of_cons (htail.symm.trans hrest)).2.1 rfl
      exact ⟨_, rfl, _, rfl, d, rfl, rfl, ha⟩
  · next hnext =>
    obtain ⟨tail, htail⟩ := List.head?_eq_some_iff.1 hnext
    refine (accepts_advance_bind htail fun d => (href d).map TypeArg.downTo).congr
      fun arg used rest hrest => ?_
    constructor
    · rintro ⟨_, rfl, _, rfl, d, rfl, rfl, hd⟩
      exact ⟨.downTo d, rfl, rfl, hd⟩
    · rintro ⟨a, rfl, rfl, ha⟩
      obtain ⟨d, rfl⟩ := (ArgForm.kind_of_cons (htail.symm.trans hrest)).2.2 rfl
      exact ⟨_, rfl, _, rfl, d, rfl, rfl, ha⟩
  · next hany hup hdown =>
    refine ((href c).map TypeArg.exactly).congr fun arg used rest hrest => ?_
    constructor
    · rintro ⟨_, rfl, d, rfl, rfl, hd⟩
      exact ⟨.exactly d, rfl, rfl, hd⟩
    · rintro ⟨a, rfl, rfl, ha⟩
      cases a with
      | any => exact absurd (congrArg List.head? hrest) hany
      | upTo _ => exact absurd (congrArg List.head? hrest) hup
      | downTo _ => exact absurd (congrArg List.head? hrest) hdown
      | exactly d => exact ⟨_, rfl, d, rfl, rfl, ha⟩

/-- What the reader of the type arguments after an opening bracket accepts where `n` levels are
left. -/
def ArgsToClose (n : Nat) (args : List TypeArg) (used _rest : List Char) : Prop :=
  0 < n ∧ ∃ l : List ArgForm, ArgForm.allChars l ++ ['>'] = used ∧ ArgForm.allTrees l = args ∧
    TypeArg.AllFit n args

theorem accepts_typeArgList {ref : Scan RefType}
    (href : ∀ c, ref.Accepts c (Derives RefForm.chars RefForm.tree (RefType.Fits n))) :
    (typeArgList ref).Accepts c (ArgsToClose (n + 1)) := by
  refine (accepts_bind (accepts_repeatWhile_derives _ (fun _ _ => accepts_typeArg href)
    ArgForm.startsIn_chars (by decide) rfl) fun args _ d _ _ =>
      (accepts_expect '>' _).map fun _ => args).congr fun args used rest _ => ?_
  constructor
  · rintro ⟨_, _, _, rfl, ⟨l, rfl, rfl, hl, -⟩, _, rfl, rfl⟩
    exact ⟨Nat.succ_pos n, l, by rw [ArgForm.allChars_eq_flatMap], ArgForm.allTrees_eq_map l,
      TypeArg.allFit_succ_iff.2 hl⟩
  · rintro ⟨-, l, rfl, rfl, hl⟩
    rw [ArgForm.allChars_eq_flatMap, ArgForm.allTrees_eq_map] at *
    exact ⟨_, _, _, rfl, ⟨l, rfl, rfl, TypeArg.allFit_succ_iff.1 hl, rfl⟩, (), rfl, rfl⟩

theorem accepts_typeArgs {list : Scan (List TypeArg)}
    (hlist : ∀ c, list.Accepts c (ArgsToClose n)) :
    (typeArgs list).Accepts c fun args used rest => ∃ l : List ArgForm,
      angled (ArgForm.allChars l) = used ∧ ArgForm.allTrees l = args ∧ TypeArg.AllFit n args ∧
        (l = [] → rest.head? ≠ some '<') := by
  refine (accepts_bind (accepts_eat '<') (Q := fun found args second rest =>
    ∃ l : List ArgForm, (found = true ↔ l ≠ []) ∧ ArgForm.allTrees l = args ∧
      TypeArg.AllFit n args ∧ second = if found then ArgForm.allChars l ++ ['>'] else [])
    fun found _ d _ _ => ?_).congr fun args used rest _ => ?_
  · cases found with
    | false =>
      refine (accepts_pure []).congr fun args second rest _ => ?_
      constructor
      · rintro ⟨rfl, rfl⟩
        exact ⟨[], by simp, rfl, TypeArg.allFit_nil n, rfl⟩
      · rintro ⟨l, hl, rfl, -, rfl⟩
        obtain rfl : l = [] := by simpa using hl
        exact ⟨rfl, rfl⟩
    | true =>
      refine accepts_peek_bind ?_
      split
      · next hclose =>
        refine accepts_fail_bind _ _ ?_
        rintro _ _ rest hrest ⟨l, hl, -, -, rfl⟩
        cases l with
        | nil => exact absurd rfl (hl.1 rfl)
        | cons a l =>
          obtain ⟨tail, htail⟩ := List.head?_eq_some_iff.1 hclose
          rw [htail] at hrest
          exact absurd hrest.symm
            ((((a.startsIn_chars.append _).append _).append _).ne_cons (by decide) _)
      · next hopen =>
        refine (hlist d).congr fun args second rest hrest => ?_
        constructor
        · rintro ⟨-, l, rfl, rfl, hl⟩
          refine ⟨l, ⟨fun _ hnil => ?_, fun _ => rfl⟩, rfl, hl, rfl⟩
          subst hnil
          exact hopen (congrArg List.head? hrest)
        · rintro ⟨l, hne, rfl, hl, rfl⟩
          refine ⟨TypeArg.pos_of_allFit hl ?_, l, rfl, rfl, hl⟩
          simpa [ArgForm.allTrees_eq_map] using hne.1 rfl
  · constructor
    · rintro ⟨found, _, _, rfl, ⟨rfl, hstop⟩, l, hfound, rfl, hl, rfl⟩
      cases found with
      | false =>
        obtain rfl : l = [] := by simpa using hfound
        exact ⟨[], rfl, rfl, hl, fun _ => by simpa using hstop rfl⟩
      | true =>
        have hne := hfound.1 rfl
        refine ⟨l, ?_, rfl, hl, fun hnil => absurd hnil hne⟩
        rw [angled_of_ne_nil (mt ArgForm.allChars_eq_nil_iff.1 hne)]
        rfl
    · rintro ⟨l, rfl, rfl, hl, hstop⟩
      by_cases hnil : l = []
      · subst hnil
        exact ⟨false, [], [], rfl, ⟨rfl, fun _ => hstop rfl⟩, [], by simp, rfl, hl, rfl⟩
      · rw [angled_of_ne_nil (mt ArgForm.allChars_eq_nil_iff.1 hnil)]
        exact ⟨true, ['<'], _, rfl, ⟨rfl, by simp⟩, l, by simpa using hnil, rfl, hl, rfl⟩

/-! ## Class types -/

/-- What the reader of an inner part accepts; without type arguments the part has to end where its
name does. -/
def InnerPart (n : Nat) (p : List Char × List TypeArg) (used rest : List Char) : Prop :=
  ∃ part : InnerForm, part.chars = used ∧ (part.name.val, part.argTrees) = p ∧
    TypeArg.AllFit n part.argTrees ∧
      (part.args = [] → rest.head? ≠ some '<' ∧ ∀ ch ∈ rest.head?, ch ∈ identStops)

theorem accepts_innerParts {list : Scan (List TypeArg)}
    (hlist : ∀ c, list.Accepts c (ArgsToClose n)) :
    (innerParts list).Accepts c (Repeats (· == some '.') (InnerPart n)) := by
  refine accepts_repeatWhile (fun c hdot => ?_) ?_ rfl
  · obtain ⟨tail, htail⟩ := List.head?_eq_some_iff.1 (eq_of_beq hdot)
    refine (accepts_advance_bind htail fun d => accepts_bind (accepts_identifier _)
      fun name _ d _ _ => (accepts_typeArgs hlist).map (Prod.mk name)).congr fun p used rest _ => ?_
    constructor
    · rintro ⟨_, rfl, _, _, _, rfl, ⟨ident, rfl, rfl, hstops⟩, _, rfl, l, rfl, rfl, hl, hangle⟩
      refine ⟨.mk ident l, rfl, rfl, hl, fun (hnil : l = []) => ⟨hangle hnil, ?_⟩⟩
      subst hnil
      exact hstops
    · rintro ⟨⟨ident, l⟩, rfl, rfl, hl, hend⟩
      refine ⟨_, rfl, _, _, _, rfl, ⟨ident, rfl, rfl, ?_⟩, _, rfl, l, rfl, rfl, hl,
        fun hnil => (hend hnil).1⟩
      by_cases hnil : l = []
      · subst hnil
        exact (hend rfl).2
      · rw [angled_of_ne_nil (mt ArgForm.allChars_eq_nil_iff.1 hnil)]
        simp [identStops]
  · rintro _ _ _ ⟨⟨ident, l⟩, rfl, -⟩
    exact List.cons_ne_nil _ _

/-- Where the class type is closed after its parts, each of them ends where it has to. -/
theorem repeats_innerPart_iff {l : List (List Char × List TypeArg)} {used rest : List Char} :
    Repeats (· == some '.') (InnerPart n) l used (';' :: rest) ↔
      ∃ parts : List InnerForm, InnerForm.allChars parts = used ∧
        parts.map (fun part => (part.name.val, part.argTrees)) = l ∧
          TypeArg.AllFit n (InnerForm.allArgs parts) := by
  constructor
  · intro h
    generalize hrest : ';' :: rest = rest' at h
    induction h with
    | nil _ => exact ⟨[], rfl, rfl, TypeArg.allFit_nil n⟩
    | cons _ hfirst _ ih =>
      obtain ⟨part, rfl, rfl, hpart, -⟩ := hfirst
      obtain ⟨parts, rfl, rfl, hparts⟩ := ih hrest
      exact ⟨part :: parts, rfl, rfl, TypeArg.allFit_append_iff.2 ⟨hpart, hparts⟩⟩
  · rintro ⟨parts, rfl, rfl, hparts⟩
    induction parts with
    | nil => exact .nil rfl
    | cons part parts ih =>
      obtain ⟨hpart, hparts⟩ := TypeArg.allFit_append_iff.1 hparts
      have hnext := InnerForm.startsIn_allChars parts rest
      refine .cons ?_ ⟨part, rfl, rfl, hpart, fun _ => ⟨fun hangle => ?_, fun ch hch => ?_⟩⟩
        (ih hparts)
      · obtain ⟨name, args⟩ := part
        rfl
      · exact absurd (hnext.mem_of_head? hangle) (by decide)
      · exact (hnext.mono (by decide)).mem_of_head? hch

/-- What is accepted of a class type after its path. -/
def AfterPath (n : Nat) (path : List Char) (t : ClassType) (used _rest : List Char) : Prop :=
  ∃ (args : List ArgForm) (inner : List InnerForm),
    used = angled (ArgForm.allChars args) ++ (InnerForm.allChars inner ++ [';']) ∧
    t = ⟨String.ofList (path ++ inner.flatMap fun part => '$' :: part.name.val),
      ArgForm.allTrees args ++ InnerForm.allArgs inner⟩ ∧ t.toRef.Fits n

theorem accepts_classTypeWith {list : Scan (List TypeArg)}
    (hlist : ∀ c, list.Accepts c (ArgsToClose n)) :
    (classTypeWith list).Accepts c
      (Derives ClassForm.chars ClassForm.tree fun t => t.toRef.Fits n) := by
  refine accepts_position_bind ?_
  refine (accepts_bind (accepts_expect 'L' _) fun _ _ d _ _ =>
    accepts_bind (accepts_takeUntil pathStops) (Q := fun path t second rest =>
      (path ≠ [] ∧ path.getLast? ≠ some '/') ∧ AfterPath n path t second rest)
      fun path _ d _ _ => ?_).congr fun t used rest _ => ?_
  · split
    · next hbad =>
      refine accepts_fail_bind _ _ ?_
      rintro _ _ _ - ⟨hpath, -⟩
      simp_all
    · next hgood =>
      have hpath : path ≠ [] ∧ path.getLast? ≠ some '/' := by simpa using hgood
      refine (accepts_bind (accepts_typeArgs hlist) fun args _ d _ _ =>
        accepts_bind (accepts_innerParts hlist) (Q := fun inner t second _ => second = [';'] ∧
          t = ClassType.mk (String.ofList (path ++ inner.flatMap fun part => '$' :: part.1))
            (args ++ inner.flatMap (·.2))) fun inner _ d _ _ => accepts_peek_bind ?_).congr
          fun t used rest _ => ?_
      · split
        · next hend =>
          refine accepts_failAt_bind _ _ _ ?_
          rintro _ _ rest hrest ⟨rfl, -⟩
          simp [hrest] at hend
        · refine ((accepts_expect ';' _).map _).congr fun t used rest _ => ?_
          simp [and_comm]
      · rw [and_iff_right hpath]
        constructor
        · rintro ⟨_, _, _, rfl, ⟨args, rfl, rfl, hargs, -⟩, _, _, _, rfl, hinner, rfl, rfl⟩
          obtain ⟨inner, rfl, rfl, hinner'⟩ := repeats_innerPart_iff.1 hinner
          rw [List.flatMap_map, List.flatMap_map]
          refine ⟨args, inner, rfl, ?_, ?_⟩
          · rw [InnerForm.allArgs_eq_flatMap]
          · have hall := TypeArg.allFit_append_iff.2 ⟨hargs, hinner'⟩
            rwa [InnerForm.allArgs_eq_flatMap] at hall
        · rintro ⟨args, inner, rfl, rfl, hfits⟩
          obtain ⟨hargs, hinner⟩ := TypeArg.allFit_append_iff.1 hfits
          refine ⟨_, _, _, rfl, ⟨args, rfl, rfl, hargs, fun _ hangle => ?_⟩, _, _, _, rfl,
            repeats_innerPart_iff.2 ⟨inner, rfl, rfl, hinner⟩, rfl, ?_⟩
          · have hnext := InnerForm.startsIn_allChars inner rest
            exact absurd (hnext.mem_of_head? (by simpa using hangle)) (by decide)
          · rw [List.flatMap_map, List.flatMap_map, InnerForm.allArgs_eq_flatMap]
  -- the path ends by itself where the reader stops, since type arguments, a part or the end follow
  · constructor
    · rintro ⟨_, _, _, rfl, rfl, path, _, _, rfl, ⟨rfl, hstops, -⟩, ⟨hne, hlast⟩, args, inner, rfl,
        rfl, hfits⟩
      exact ⟨⟨⟨path, hne, hstops, hlast⟩, args, inner⟩, rfl, rfl, hfits⟩
    · rintro ⟨⟨path, args, inner⟩, rfl, rfl, hfits⟩
      refine ⟨(), ['L'], _, rfl, rfl, path.val, _, _, rfl, ⟨rfl, path.2.2.1, ?_⟩,
        ⟨path.2.1, path.2.2.2⟩, args, inner, rfl, rfl, hfits⟩
      intro ch hch
      have hnext := ArgForm.startsIn_angled args (InnerForm.startsIn_allChars inner rest)
      exact (hnext.mono (by decide)).mem_of_head? (by simpa using hch)

/-! ## Types -/

theorem accepts_typeVariable {others : List Char} (hT : c.rest = 'T' :: others) :
    typeVariable.Accepts c fun t used _ =>
      ∃ name : Ident, (RefForm.var name).chars = used ∧ (RefForm.var name).tree = t := by
  refine (accepts_advance_bind hT fun d => accepts_bind (accepts_identifier _) fun name _ d _ _ =>
    (accepts_expect ';' _).map fun _ => RefType.var (String.ofList name)).congr
      fun t used rest _ => ?_
  constructor
  · rintro ⟨_, rfl, _, _, _, rfl, ⟨ident, rfl, rfl, -⟩, _, rfl, rfl⟩
    exact ⟨ident, rfl, rfl⟩
  · rintro ⟨ident, rfl, rfl⟩
    exact ⟨_, rfl, _, _, _, rfl, ⟨ident, rfl, rfl, by simp [identStops]⟩, (), rfl, rfl⟩

theorem accepts_plainType {list : Scan (List TypeArg)}
    (hlist : ∀ c, list.Accepts c (ArgsToClose n)) :
    (plainType list).Accepts c
      (Derives SigForm.chars SigForm.tree fun t => t.dims = 0 ∧ t.Fits n) := by
  refine accepts_peek_bind ?_
  split
  · next hnext =>
    obtain ⟨tail, htail⟩ := List.head?_eq_some_iff.1 hnext
    refine ((accepts_classTypeWith hlist).map fun t => SigType.ref t.toRef).congr
      fun t used rest hrest => ?_
    constructor
    · rintro ⟨_, rfl, d, rfl, rfl, hfits⟩
      exact ⟨.ref d.toRef, rfl, rfl, rfl, hfits⟩
    · rintro ⟨d, rfl, rfl, -, hfits⟩
      obtain ⟨e, rfl⟩ := SigForm.exists_eq_ref (htail.symm.trans hrest) (by decide)
      obtain ⟨e, rfl⟩ := (RefForm.kind_of_cons (htail.symm.trans hrest)).1 rfl
      exact ⟨_, rfl, e, rfl, rfl, hfits⟩
  · next hnext =>
    obtain ⟨tail, htail⟩ := List.head?_eq_some_iff.1 hnext
    refine ((accepts_typeVariable htail).map SigType.ref).congr fun t used rest hrest => ?_
    constructor
    · rintro ⟨_, rfl, name, rfl, rfl⟩
      exact ⟨.ref (.var name), rfl, rfl, rfl, Nat.zero_le n, Nat.zero_le _⟩
    · rintro ⟨d, rfl, rfl, -⟩
      obtain ⟨e, rfl⟩ := SigForm.exists_eq_ref (htail.symm.trans hrest) (by decide)
      obtain ⟨name, rfl⟩ := (RefForm.kind_of_cons (htail.symm.trans hrest)).2.1 rfl
      exact ⟨_, rfl, name, rfl, rfl⟩
  · next hnext =>
    refine accepts_fail _ ?_
    rintro _ _ rest hrest ⟨d, rfl, -⟩
    rw [hrest] at hnext
    exact absurd ((d.startsIn_chars.append rest).mem_of_head? hnext) (by decide)
  · next first hL hT _ hnext =>
    obtain ⟨tail, htail⟩ := List.head?_eq_some_iff.1 hnext
    -- what is left are the primitives, whose letter has to be the first character
    have hletter {d : SigForm} {rest : List Char} (hdims : d.tree.dims = 0)
        (hrest : c.rest = d.chars ++ rest) : ∃ p, d = .primitive p ∧ p.code = first := by
      rw [htail] at hrest
      cases d with
      | primitive p => exact ⟨p, rfl, (List.cons.inj hrest).1.symm⟩
      | ref type =>
        cases type with
        | object _ _ _ => exact absurd (List.cons.inj hrest).1 hL
        | var _ => exact absurd (List.cons.inj hrest).1 hT
        | array _ => cases hdims
    split
    · next p hp =>
      have hcode : p.code = first := by simpa using List.find?_some hp
      refine ((accepts_advance htail).map fun _ => SigType.primitive p).congr
        fun t used rest hrest => ?_
      constructor
      · rintro ⟨_, rfl, rfl⟩
        exact ⟨.primitive p, by rw [SigForm.chars, hcode], rfl, rfl, Nat.zero_le n, Nat.zero_le _⟩
      · rintro ⟨d, rfl, rfl, hdims, -⟩
        obtain ⟨q, rfl, hq⟩ := hletter hdims hrest
        rw [← hq, Primitive.ofCode?_code] at hp
        cases hp
        exact ⟨(), rfl, by rw [SigForm.chars, hq]⟩
    · next hp =>
      refine accepts_fail _ ?_
      rintro _ _ rest hrest ⟨d, rfl, rfl, hdims, -⟩
      obtain ⟨q, rfl, rfl⟩ := hletter hdims hrest
      rw [Primitive.ofCode?_code] at hp
      cases hp
  · next hnone =>
    refine accepts_fail _ ?_
    rintro _ _ rest hrest ⟨d, rfl, -⟩
    have hnil : c.rest = [] := by simpa using hnone
    exact (d.startsIn_chars.append rest).ne_nil (hrest.symm.trans hnil)

theorem accepts_refTypeWith {list : Scan (List TypeArg)}
    (hlist : ∀ c, list.Accepts c (ArgsToClose n)) :
    (refTypeWith list).Accepts c (Derives RefForm.chars RefForm.tree (RefType.Fits n)) := by
  refine accepts_peek_bind ?_
  split
  · next hnext =>
    obtain ⟨tail, htail⟩ := List.head?_eq_some_iff.1 hnext
    refine ((accepts_classTypeWith hlist).map ClassType.toRef).congr fun t used rest hrest => ?_
    constructor
    · rintro ⟨_, rfl, d, rfl, rfl, hfits⟩
      exact ⟨d.toRef, rfl, rfl, hfits⟩
    · rintro ⟨d, rfl, rfl, hfits⟩
      obtain ⟨e, rfl⟩ := (RefForm.kind_of_cons (htail.symm.trans hrest)).1 rfl
      exact ⟨_, rfl, e, rfl, rfl, hfits⟩
  · next hnext =>
    obtain ⟨tail, htail⟩ := List.head?_eq_some_iff.1 hnext
    refine (accepts_typeVariable htail).congr fun t used rest hrest => ?_
    constructor
    · rintro ⟨name, rfl, rfl⟩
      exact ⟨.var name, rfl, rfl, Nat.zero_le n, Nat.zero_le _⟩
    · rintro ⟨d, rfl, rfl, -⟩
      obtain ⟨name, rfl⟩ := (RefForm.kind_of_cons (htail.symm.trans hrest)).2.1 rfl
      exact ⟨name, rfl, rfl⟩
  · next hnext =>
    obtain ⟨tail, htail⟩ := List.head?_eq_some_iff.1 hnext
    -- all brackets are read at once, while the form has one array inside the other
    refine (accepts_bind accepts_dimensions fun dims _ d _ _ =>
      (accepts_plainType hlist).map fun t => arrayOf t (dims - 1)).congr fun t used rest hrest => ?_
    constructor
    · rintro ⟨dims, _, _, rfl, ⟨rfl, hle, hstop⟩, _, rfl, d, rfl, rfl, hdims, hfits⟩
      cases dims with
      | zero =>
        rw [htail] at hrest
        exact absurd rfl (hstop '[' (congrArg List.head? hrest.symm))
      | succ k =>
        refine ⟨.array (d.wrap k), ?_, d.tree_array_wrap k,
          (fits_arrayOf_iff hdims).2 ⟨hle, hfits⟩⟩
        rw [RefForm.chars, d.chars_wrap, List.replicate_succ, List.cons_append]
    · rintro ⟨d, rfl, rfl, hfits⟩
      obtain ⟨element, rfl⟩ := (RefForm.kind_of_cons (htail.symm.trans hrest)).2.2 rfl
      obtain ⟨e, k, he, rfl⟩ := element.exists_eq_wrap
      rw [e.tree_array_wrap k] at hfits ⊢
      obtain ⟨hle, hfits⟩ := (fits_arrayOf_iff he).1 hfits
      refine ⟨k + 1, List.replicate (k + 1) '[', e.chars, ?_, ⟨rfl, hle, fun ch hch => ?_⟩, _, rfl,
        e, rfl, rfl, he, hfits⟩
      · rw [RefForm.chars, e.chars_wrap, List.replicate_succ, List.cons_append]
      · rintro rfl
        exact SigForm.head?_chars_ne he rest hch
  · next first hL hT hbracket hnext =>
    refine accepts_fail _ ?_
    rintro _ _ rest hrest ⟨d, rfl, -⟩
    rw [hrest] at hnext
    have hfirst := (d.startsIn_chars.append rest).mem_of_head? hnext
    grind
  · next hnone =>
    refine accepts_fail _ ?_
    rintro _ _ rest hrest ⟨d, rfl, -⟩
    have hnil : c.rest = [] := by simpa using hnone
    exact (d.startsIn_chars.append rest).ne_nil (hrest.symm.trans hnil)

/-- One more level of nesting can be opened exactly where one is left. -/
theorem accepts_nestedArgs (n : Nat) : (nestedArgs n).Accepts c (ArgsToClose n) := by
  -- the types inside a list have one level less, so they are read as the hypothesis says
  induction n generalizing c with
  | zero =>
    refine accepts_fail _ ?_
    rintro _ _ _ - ⟨hpos, -⟩
    exact absurd hpos (Nat.lt_irrefl 0)
  | succ n ih => exact accepts_typeArgList fun _ => accepts_refTypeWith fun _ => ih

theorem accepts_refType :
    refType.Accepts c (Derives RefForm.chars RefForm.tree (RefType.Fits maxArgumentDepth)) :=
  accepts_refTypeWith fun _ => accepts_nestedArgs maxArgumentDepth

end Scan

namespace RefType

theorem parse_eq_ok_iff {text : String} {t : RefType} :
    parse text = .ok t ↔ ∃ d : RefForm, d.text = text ∧ d.tree = t ∧ t.Fits maxArgumentDepth := by
  rw [parse, Scan.run_finish_eq_ok_iff fun _ => Scan.accepts_refType]
  simp only [Scan.Derives, RefForm.text, ← String.toList_inj, String.toList_ofList]

/-- Reading accepts the texts that have a form whose lists of type arguments nest at most 64 deep
and that have no 256 brackets in a row, and it gives the type of the form. A text has at most one
form. What was read is read again from its written form in one part. -/
theorem parse_reads_forms :
    (∀ (text : String) (t : RefType), parse text = .ok t ↔ ∃ d : RefForm, d.text = text ∧
      d.tree = t ∧ t.depth ≤ 64 ∧ ¬ List.replicate 256 '[' <:+: text.toList) ∧
    (∀ d e : RefForm, d.text = e.text → d = e) ∧
    ∀ (text : String) (t : RefType), parse text = .ok t → parse t.text = .ok t := by
  refine ⟨fun text t => ?_, fun d e => RefForm.text_injective, fun text t ht => ?_⟩
  · rw [parse_eq_ok_iff]
    refine exists_congr fun d => and_congr_right fun htext => and_congr_right fun htree => ?_
    rw [← htext, ← htree, RefForm.text, String.toList_ofList]
    exact d.fits_tree_iff maxArgumentDepth
  · obtain ⟨d, -, rfl, hfits⟩ := parse_eq_ok_iff.1 ht
    obtain ⟨e, hchars, htree⟩ := d.exists_onePart
    exact parse_eq_ok_iff.2 ⟨e, by rw [RefForm.text, hchars]; rfl, htree, hfits⟩

/-- An inner class, type arguments of both parts and an array among them. -/
theorem parse_reads_forms_inner_class :
    let t : RefType := .object "a/Outer$Inner"
      [.exactly (.array (.ref (.array (.ref (.var "T"))))), .upTo (.object "b" []), .any]
    parse "La/Outer<[[TT;+Lb;>.Inner<*>;" = .ok t ∧
      parse "La/Outer$Inner<[[TT;+Lb;*>;" = .ok t := by
  intro t
  have hread : parse "La/Outer<[[TT;+Lb;>.Inner<*>;" = .ok t := by
    refine (parse_reads_forms.1 _ t).2 ⟨.object ⟨"a/Outer".toList, by decide⟩
      [.exactly (.array (.ref (.array (.ref (.var ⟨['T'], by decide⟩))))),
        .upTo (.object ⟨['b'], by decide⟩ [] [])]
      [.mk ⟨"Inner".toList, by decide⟩ [.any]], by decide, rfl, by decide, fun h => ?_⟩
    have hlength := h.length_le
    rw [List.length_replicate] at hlength
    exact absurd hlength (by decide)
  exact ⟨hread, parse_reads_forms.2.2 _ t hread⟩

end RefType

end ClassAtlas
