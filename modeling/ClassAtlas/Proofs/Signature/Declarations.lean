import ClassAtlas.Proofs.Signature.Parameters

/-!
# Signatures of classes and methods

```text
ClassSignature  := TypeParams? ClassType ClassType*
MethodSignature := TypeParams? '(' SigType* ')' (SigType | 'V') ('^' Thrown)*
Thrown          := ClassType | 'T' Ident ';'
```

The grammar is unambiguous. The readers accept it up to the type parameters whose names they take
for bounds, and give the signature that the derivation stands for.

## Main definitions

* `ClassSignatureForm` and `MethodSignatureForm` are the derivations.

## Main results

* `ClassSignature.parse_eq_ok_iff`, `MethodSignature.parse_eq_ok_iff`: the texts that are accepted.
* `parse_reads_declarations`: what is accepted and what is wrongly rejected.
-/

namespace ClassAtlas

/-! ## Classes -/

/-- A derivation of the signature of a class. -/
structure ClassSignatureForm where
  params : List ParamForm
  superclass : ClassForm
  interfaces : List ClassForm

namespace ClassSignatureForm

def chars (d : ClassSignatureForm) : List Char :=
  angled (d.params.flatMap ParamForm.chars) ++
    (d.superclass.chars ++ d.interfaces.flatMap ClassForm.chars)

def text (d : ClassSignatureForm) : String := String.ofList d.chars

def tree (d : ClassSignatureForm) : ClassSignature :=
  ⟨d.params.map ParamForm.tree, d.superclass.tree, d.interfaces.map ClassForm.tree⟩

end ClassSignatureForm

/-- The types in the signature of a class. -/
def ClassSignature.types (s : ClassSignature) : List RefType :=
  s.params.flatMap TypeParam.bounds ++ s.superclass.toRef :: s.interfaces.map ClassType.toRef

theorem ClassSignature.forall_types_iff {P : RefType → Prop} {s : ClassSignature} :
    (∀ t ∈ s.types, P t) ↔ (∀ p ∈ s.params, ∀ t ∈ p.bounds, P t) ∧ P s.superclass.toRef ∧
      ∀ t ∈ s.interfaces, P t.toRef := by
  simp only [types, List.forall_mem_append, List.forall_mem_flatMap, List.forall_mem_cons,
    List.forall_mem_map]

/-! ## Methods -/

/-- A derivation of a declared exception. -/
inductive ThrownForm where
  | object (type : ClassForm)
  | var (name : Ident)

/-- A declared exception as a reference type. -/
def ThrownForm.toRef : ThrownForm → RefForm
  | object type => type.toRef
  | var name => .var name

def ThrownForm.chars (d : ThrownForm) : List Char := '^' :: d.toRef.chars

def ThrownForm.tree (d : ThrownForm) : RefType := d.toRef.tree

/-- A derivation of the signature of a method. -/
structure MethodSignatureForm where
  typeParams : List ParamForm
  params : List SigForm
  result : Option SigForm
  throws : List ThrownForm

namespace MethodSignatureForm

def chars (d : MethodSignatureForm) : List Char :=
  angled (d.typeParams.flatMap ParamForm.chars) ++ '(' :: (d.params.flatMap SigForm.chars ++
    ')' :: (d.result.elim ['V'] SigForm.chars ++ d.throws.flatMap ThrownForm.chars))

def text (d : MethodSignatureForm) : String := String.ofList d.chars

def tree (d : MethodSignatureForm) : MethodSignature :=
  ⟨d.typeParams.map ParamForm.tree, d.params.map SigForm.tree, d.result.map SigForm.tree,
    d.throws.map ThrownForm.tree⟩

end MethodSignatureForm

/-- The types in the signature of a method. -/
def MethodSignature.types (s : MethodSignature) : List SigType :=
  (s.typeParams.flatMap TypeParam.bounds).map .ref ++ (s.params ++ (s.result.toList ++
    s.throws.map .ref))

theorem MethodSignature.forall_types_iff {P : SigType → Prop} {s : MethodSignature} :
    (∀ t ∈ s.types, P t) ↔ (∀ p ∈ s.typeParams, ∀ t ∈ p.bounds, P (.ref t)) ∧
      (∀ t ∈ s.params, P t) ∧ (∀ t ∈ s.result, P t) ∧ ∀ t ∈ s.throws, P (.ref t) := by
  simp only [types, List.forall_mem_append, List.forall_mem_flatMap, List.forall_mem_map,
    Option.mem_toList, Option.mem_def]

/-! ## Unambiguity -/

theorem ClassForm.chars_append_inj (d e : ClassForm) {r s : List Char}
    (h : d.chars ++ r = e.chars ++ s) : d = e ∧ r = s := by
  obtain ⟨hde, hrs⟩ := d.toRef.chars_append_inj e.toRef h
  cases d
  cases e
  cases hde
  exact ⟨rfl, hrs⟩

theorem ClassForm.startsIn_chars (d : ClassForm) : StartsIn ['L'] d.chars := .cons (by decide)

theorem ThrownForm.chars_append_inj (d e : ThrownForm) {r s : List Char}
    (h : d.chars ++ r = e.chars ++ s) : d = e ∧ r = s := by
  obtain ⟨hde, hrs⟩ := d.toRef.chars_append_inj e.toRef (List.cons.inj h).2
  refine ⟨?_, hrs⟩
  cases d with
  | object type =>
    cases e with
    | object type' =>
      cases type
      cases type'
      cases hde
      rfl
    | var _ => cases hde
  | var name =>
    cases e with
    | object _ => cases hde
    | var name' =>
      cases hde
      rfl

theorem ThrownForm.startsIn_chars (d : ThrownForm) : StartsIn ['^'] d.chars := .cons (by decide)

theorem ParamForm.angled_append_inj {ps qs : List ParamForm} {r s : List Char}
    (hr : r.head? ≠ some '<') (hs : s.head? ≠ some '<')
    (h : angled (ps.flatMap chars) ++ r = angled (qs.flatMap chars) ++ s) : ps = qs ∧ r = s :=
  ClassAtlas.angled_append_inj (fun _ => flatMap_chars_eq_nil_iff)
    flatMap_chars_append_inj hr hs h

theorem ClassSignatureForm.text_injective {d e : ClassSignatureForm} (h : d.text = e.text) :
    d = e := by
  obtain ⟨params, superclass, interfaces⟩ := d
  obtain ⟨params', superclass', interfaces'⟩ := e
  have hchars := String.ofList_injective h
  have hL (d : ClassForm) (r : List Char) : (d.chars ++ r).head? ≠ some '<' := by
    simp [ClassForm.chars, ClassForm.toRef, RefForm.chars]
  obtain ⟨rfl, h₁⟩ := ParamForm.angled_append_inj (hL _ _) (hL _ _) hchars
  obtain ⟨rfl, h₂⟩ := superclass.chars_append_inj superclass' h₁
  obtain ⟨rfl, -⟩ := flatMap_append_inj (r := []) (s := []) ClassForm.chars_append_inj
    ClassForm.startsIn_chars (by simp) (by simp) (by simpa using h₂)
  rfl

theorem MethodSignatureForm.text_injective {d e : MethodSignatureForm} (h : d.text = e.text) :
    d = e := by
  obtain ⟨typeParams, params, result, throws⟩ := d
  obtain ⟨typeParams', params', result', throws'⟩ := e
  have hchars := String.ofList_injective h
  obtain ⟨rfl, h₁⟩ := ParamForm.angled_append_inj (by simp) (by simp) hchars
  obtain ⟨rfl, h₂⟩ := flatMap_append_inj SigForm.chars_append_inj SigForm.startsIn_chars
    (by simp) (by simp) (List.cons.inj h₁).2
  have h₃ := (List.cons.inj h₂).2
  dsimp only at h₃
  have hresult : result = result' ∧
      throws.flatMap ThrownForm.chars = throws'.flatMap ThrownForm.chars := by
    cases result with
    | none =>
      cases result' with
      | none => exact ⟨rfl, (List.cons.inj h₃).2⟩
      | some e => exact absurd h₃.symm ((e.startsIn_chars.append _).ne_cons (by decide) _)
    | some d =>
      cases result' with
      | none => exact absurd h₃ ((d.startsIn_chars.append _).ne_cons (by decide) _)
      | some e =>
        obtain ⟨rfl, h₄⟩ := d.chars_append_inj e h₃
        exact ⟨rfl, h₄⟩
  obtain ⟨rfl, h₄⟩ := hresult
  obtain ⟨rfl, -⟩ := flatMap_append_inj (r := []) (s := []) ThrownForm.chars_append_inj
    ThrownForm.startsIn_chars (by simp) (by simp) (by simpa using h₄)
  rfl

/-! ## Runs of brackets -/

theorem ParamForm.runs (p : ParamForm) :
    Runs p.chars (p.tree.bounds.map RefType.longestRun) := by
  have hclass : Runs (p.classBound.elim [] RefForm.chars)
      ((p.classBound.map RefForm.tree).toList.map RefType.longestRun) := by
    cases p.classBound with
    | none => exact .nil
    | some d => exact d.runs
  have hinterfaces : Runs (p.interfaceBounds.flatMap RefForm.interfaceChars)
      ((p.interfaceBounds.map RefForm.tree).map RefType.longestRun) := by
    rw [List.map_map]
    exact .flatMap_map (fun d => .cons (by decide) d.runs) _
  rw [TypeParam.bounds, List.map_append]
  exact (Runs.of_not_mem p.name.bracket_not_mem).append
    (.cons (by decide) (hclass.append hinterfaces))

theorem ClassForm.runs (d : ClassForm) : Runs d.chars [d.tree.toRef.longestRun] := d.toRef.runs

theorem ParamForm.runs_angled (ps : List ParamForm) : Runs (angled (ps.flatMap chars))
    (((ps.map tree).flatMap TypeParam.bounds).map RefType.longestRun) := by
  rw [List.flatMap_map, List.map_flatMap]
  exact (Runs.flatMap ParamForm.runs ps).angled

theorem ClassSignatureForm.runs (d : ClassSignatureForm) :
    Runs d.chars (d.tree.types.map RefType.longestRun) := by
  have hinterfaces : Runs (d.interfaces.flatMap ClassForm.chars)
      (((d.interfaces.map ClassForm.tree).map ClassType.toRef).map RefType.longestRun) := by
    rw [List.map_map, List.map_map]
    exact .flatMap_map ClassForm.runs _
  rw [ClassSignature.types, List.map_append]
  exact (ParamForm.runs_angled d.params).append (d.superclass.runs.append hinterfaces)

theorem MethodSignatureForm.runs (d : MethodSignatureForm) :
    Runs d.chars (d.tree.types.map SigType.longestRun) := by
  have hparams : Runs (d.params.flatMap SigForm.chars)
      ((d.params.map SigForm.tree).map SigType.longestRun) := by
    rw [List.map_map]
    exact .flatMap_map SigForm.runs _
  have hresult : Runs (d.result.elim ['V'] SigForm.chars)
      ((d.result.map SigForm.tree).toList.map SigType.longestRun) := by
    cases d.result with
    | none => exact .singleton (by decide)
    | some e => exact e.runs
  have hthrows : Runs (d.throws.flatMap ThrownForm.chars)
      (((d.throws.map ThrownForm.tree).map SigType.ref).map SigType.longestRun) := by
    rw [List.map_map, List.map_map]
    exact .flatMap_map (fun e => .cons (by decide) e.toRef.runs) _
  have htypeParams := ParamForm.runs_angled d.typeParams
  rw [MethodSignature.types, List.map_append, List.map_append, List.map_append, List.map_map]
  exact htypeParams.append
    (.cons (by decide) (hparams.append (.cons (by decide) (hresult.append hthrows))))

/-! ## Acceptance -/

namespace Scan

variable {c : Cursor}

theorem accepts_classType : classType.Accepts c
    (Derives ClassForm.chars ClassForm.tree fun t => t.toRef.Fits maxArgumentDepth) :=
  accepts_classTypeWith fun _ => accepts_nestedArgs maxArgumentDepth

theorem accepts_sigType :
    sigType.Accepts c (Derives SigForm.chars SigForm.tree (SigType.Fits maxArgumentDepth)) := by
  refine accepts_peek_bind ?_
  split
  · next hnext =>
    refine (accepts_refType.map SigType.ref).congr fun t used rest hrest => ?_
    constructor
    · rintro ⟨_, rfl, d, rfl, rfl, hfits⟩
      exact ⟨.ref d, rfl, rfl, hfits⟩
    · rintro ⟨d, rfl, rfl, hfits⟩
      cases d with
      | primitive p =>
        rw [hrest] at hnext
        cases p <;> cases hnext
      | ref d => exact ⟨_, rfl, d, rfl, rfl, hfits⟩
  · next hnext =>
    refine (accepts_plainType fun _ => accepts_nestedArgs maxArgumentDepth).congr
      fun t used rest hrest => ?_
    constructor
    · rintro ⟨d, rfl, rfl, -, hfits⟩
      exact ⟨d, rfl, rfl, hfits⟩
    · rintro ⟨d, rfl, rfl, hfits⟩
      refine ⟨d, rfl, rfl, ?_, hfits⟩
      obtain ⟨e, k, he, rfl⟩ := d.exists_eq_wrap
      cases k with
      | zero => exact he
      | succ k =>
        rw [hrest] at hnext
        exact absurd rfl hnext

theorem accepts_thrownType (hnext : (c.rest.head? == some '^') = true) :
    thrownType.Accepts c
      (Derives ThrownForm.chars ThrownForm.tree (RefType.Fits maxArgumentDepth)) := by
  obtain ⟨tail, htail⟩ := List.head?_eq_some_iff.1 (eq_of_beq hnext)
  refine (accepts_advance_bind htail fun d => accepts_peek_bind (R := Derives
    (fun d : ThrownForm => d.toRef.chars) ThrownForm.tree (RefType.Fits maxArgumentDepth)) ?_).congr
      fun t used rest _ => ?_
  · have hread (hbracket : d.rest.head? ≠ some '[') : refType.Accepts d (Derives
        (fun d : ThrownForm => d.toRef.chars) ThrownForm.tree (RefType.Fits maxArgumentDepth)) := by
      refine accepts_refType.congr fun t used rest hrest => ?_
      constructor
      · rintro ⟨e, rfl, rfl, hfits⟩
        cases e with
        | object path args inner => exact ⟨.object ⟨path, args, inner⟩, rfl, rfl, hfits⟩
        | var name => exact ⟨.var name, rfl, rfl, hfits⟩
        | array element => exact absurd (congrArg List.head? hrest) hbracket
      · rintro ⟨e, rfl, rfl, hfits⟩
        exact ⟨e.toRef, rfl, rfl, hfits⟩
    split
    · next hL => exact hread (by simp [hL])
    · next hT => exact hread (by simp [hT])
    · next hL hT =>
      refine accepts_fail _ ?_
      rintro _ _ rest hrest ⟨e, rfl, -⟩
      cases e with
      | object type => exact absurd (congrArg List.head? hrest) hL
      | var name => exact absurd (congrArg List.head? hrest) hT
  · constructor
    · rintro ⟨_, rfl, d, rfl, rfl, hfits⟩
      exact ⟨d, rfl, rfl, hfits⟩
    · rintro ⟨d, rfl, rfl, hfits⟩
      exact ⟨_, rfl, d, rfl, rfl, hfits⟩

theorem accepts_classSignature : classSignature.Accepts c fun s used rest =>
    ∃ d : ClassSignatureForm, d.chars = used ∧ d.tree = s ∧
      (∀ t ∈ s.types, t.Fits maxArgumentDepth) ∧ ParamForm.NoClash d.params ∧ rest = [] := by
  refine (accepts_bind accepts_typeParams fun params _ d _ _ =>
    accepts_bind accepts_classType fun superclass _ d _ _ =>
      (accepts_repeatWhile_derives ['L'] (fun _ _ => accepts_classType)
        ClassForm.startsIn_chars (by simp) rfl).map (ClassSignature.mk params superclass)).congr
          fun s used rest _ => ?_
  constructor
  · rintro ⟨_, _, _, rfl, ⟨params, rfl, rfl, hparams, hclash, -⟩, _, _, _, rfl,
      ⟨superclass, rfl, rfl, hsuper⟩, _, rfl, interfaces, rfl, rfl, hinterfaces, hend⟩
    exact ⟨⟨params, superclass, interfaces⟩, rfl, rfl,
      ClassSignature.forall_types_iff.2 ⟨hparams, hsuper, hinterfaces⟩, hclash, by simpa using hend⟩
  · rintro ⟨⟨params, superclass, interfaces⟩, rfl, rfl, hfits, hclash, rfl⟩
    obtain ⟨hparams, hsuper, hinterfaces⟩ := ClassSignature.forall_types_iff.1 hfits
    refine ⟨_, _, _, rfl, ⟨params, rfl, rfl, hparams, hclash, fun _ => ?_⟩, _, _, _, rfl,
      ⟨superclass, rfl, rfl, hsuper⟩, _, rfl, interfaces, rfl, rfl, hinterfaces, rfl⟩
    simp [ClassForm.chars, ClassForm.toRef, RefForm.chars]

theorem accepts_throws (f : List RefType → MethodSignature) :
    (do
      let throws ← repeatWhile (· == some '^') thrownType
      finish
      return f throws : Scan MethodSignature).Accepts c fun s used rest =>
      ∃ throws : List ThrownForm, throws.flatMap ThrownForm.chars = used ∧
        s = f (throws.map ThrownForm.tree) ∧
        (∀ t ∈ throws.map ThrownForm.tree, t.Fits maxArgumentDepth) ∧ rest = [] := by
  refine (accepts_bind (accepts_repeatWhile_derives ['^']
    (fun _ => accepts_thrownType) ThrownForm.startsIn_chars (by decide) rfl)
      fun throws _ d _ _ => accepts_finish.map fun _ => f throws).congr fun s used rest _ => ?_
  constructor
  · rintro ⟨_, _, _, rfl, ⟨throws, rfl, rfl, hthrows, -⟩, _, rfl, rfl, rfl⟩
    exact ⟨throws, by simp, rfl, hthrows, rfl⟩
  · rintro ⟨throws, rfl, rfl, hthrows, rfl⟩
    exact ⟨_, _, [], by simp, ⟨throws, rfl, rfl, hthrows, rfl⟩, (), rfl, rfl, rfl⟩

/-- What is accepted of the signature of a method after its parameters. -/
def ResultRead (typeParams : List TypeParam) (params : List SigType) (s : MethodSignature)
    (used rest : List Char) : Prop :=
  ∃ (result : Option SigForm) (throws : List ThrownForm),
    result.elim ['V'] SigForm.chars ++ throws.flatMap ThrownForm.chars = used ∧
    s = ⟨typeParams, params, result.map SigForm.tree, throws.map ThrownForm.tree⟩ ∧
    (∀ t ∈ result.map SigForm.tree, t.Fits maxArgumentDepth) ∧
    (∀ t ∈ throws.map ThrownForm.tree, t.Fits maxArgumentDepth) ∧ rest = []

theorem accepts_result (typeParams : List TypeParam) (params : List SigType) :
    (do
      let result ← if ← eat 'V' then pure none else some <$> sigType
      let throws ← repeatWhile (· == some '^') thrownType
      finish
      return ⟨typeParams, params, result, throws⟩ : Scan MethodSignature).Accepts c
      (ResultRead typeParams params) := by
  refine (accepts_bind (accepts_eat 'V') (Q := fun isVoid s second rest =>
    ∃ (result : Option SigForm) (throws : List ThrownForm), isVoid = result.isNone ∧
      result.elim [] SigForm.chars ++ throws.flatMap ThrownForm.chars = second ∧
      s = ⟨typeParams, params, result.map SigForm.tree, throws.map ThrownForm.tree⟩ ∧
      (∀ t ∈ result.map SigForm.tree, t.Fits maxArgumentDepth) ∧
      (∀ t ∈ throws.map ThrownForm.tree, t.Fits maxArgumentDepth) ∧ rest = [])
    fun isVoid _ d _ _ => ?_).congr fun s used rest _ => ?_
  · cases isVoid with
    | true =>
      refine (accepts_bind (accepts_pure none) fun result _ d _ _ =>
        accepts_throws (MethodSignature.mk typeParams params result)).congr fun s used rest _ => ?_
      constructor
      · rintro ⟨_, _, _, rfl, ⟨rfl, rfl⟩, throws, rfl, rfl, hthrows, rfl⟩
        exact ⟨none, throws, rfl, rfl, rfl, nofun, hthrows, rfl⟩
      · rintro ⟨result, throws, hvoid, rfl, rfl, -, hthrows, rfl⟩
        obtain rfl : result = none := by simpa using hvoid.symm
        exact ⟨_, _, _, rfl, ⟨rfl, rfl⟩, throws, rfl, rfl, hthrows, rfl⟩
    | false =>
      refine (accepts_bind (accepts_sigType.map some) fun result _ d _ _ =>
        accepts_throws (MethodSignature.mk typeParams params result)).congr fun s used rest _ => ?_
      constructor
      · rintro ⟨_, _, _, rfl, ⟨_, rfl, e, rfl, rfl, hresult⟩, throws, rfl, rfl, hthrows, rfl⟩
        refine ⟨some e, throws, rfl, rfl, rfl, ?_, hthrows, rfl⟩
        rintro _ ⟨⟩
        exact hresult
      · rintro ⟨result, throws, hvoid, rfl, rfl, hresult, hthrows, rfl⟩
        cases result with
        | none => cases hvoid
        | some e =>
          exact ⟨_, _, _, rfl, ⟨_, rfl, e, rfl, rfl, hresult _ rfl⟩, throws, rfl, rfl, hthrows, rfl⟩
  · constructor
    · rintro ⟨isVoid, _, _, rfl, ⟨rfl, -⟩, result, throws, rfl, rfl, rfl, hresult, hthrows, rfl⟩
      refine ⟨result, throws, ?_, rfl, hresult, hthrows, rfl⟩
      cases result <;> rfl
    · rintro ⟨result, throws, rfl, rfl, hresult, hthrows, rfl⟩
      refine ⟨result.isNone, _, result.elim [] SigForm.chars ++ throws.flatMap ThrownForm.chars, ?_,
        ⟨rfl, ?_⟩, result, throws, rfl, rfl, rfl, hresult, hthrows, rfl⟩
      · cases result <;> rfl
      · cases result with
        | none => simp
        | some e =>
          intro _ hvoid
          have hV := ((e.startsIn_chars.append _).append _).mem_of_head? hvoid
          exact absurd hV (by decide)

theorem accepts_methodSignature : methodSignature.Accepts c fun s used rest =>
    ∃ d : MethodSignatureForm, d.chars = used ∧ d.tree = s ∧
      (∀ t ∈ s.types, t.Fits maxArgumentDepth) ∧ ParamForm.NoClash d.typeParams ∧ rest = [] := by
  refine (accepts_bind accepts_typeParams fun typeParams _ d _ _ =>
    accepts_bind (accepts_expect '(' _) fun _ _ d _ _ =>
      accepts_bind (accepts_repeatWhile_derives _ (fun _ _ => accepts_sigType)
        SigForm.startsIn_chars (by decide) rfl) fun params _ d _ _ =>
          accepts_bind (accepts_expect ')' _) fun _ _ d _ _ =>
            accepts_result typeParams params).congr fun s used rest _ => ?_
  constructor
  · rintro ⟨_, _, _, rfl, ⟨typeParams, rfl, rfl, htypeParams, hclash, -⟩, _, _, _, rfl, rfl, _, _,
      _, rfl, ⟨params, rfl, rfl, hparams, -⟩, _, _, _, rfl, rfl, result, throws, rfl, rfl, hresult,
      hthrows, rfl⟩
    exact ⟨⟨typeParams, params, result, throws⟩, rfl, rfl,
      MethodSignature.forall_types_iff.2 ⟨htypeParams, hparams, hresult, hthrows⟩, hclash, rfl⟩
  · rintro ⟨⟨typeParams, params, result, throws⟩, rfl, rfl, hfits, hclash, rfl⟩
    obtain ⟨htypeParams, hparams, hresult, hthrows⟩ := MethodSignature.forall_types_iff.1 hfits
    exact ⟨_, _, _, rfl, ⟨typeParams, rfl, rfl, htypeParams, hclash, by simp⟩, (), ['('], _, rfl,
      rfl, _, _, _, rfl, ⟨params, rfl, rfl, hparams, rfl⟩, (), [')'], _, rfl, rfl, result, throws,
      rfl, rfl, hresult, hthrows, rfl⟩

end Scan

/-! ## Whole texts -/

theorem ClassSignature.parse_eq_ok_iff {text : String} {s : ClassSignature} :
    parse text = .ok s ↔ ∃ d : ClassSignatureForm, d.text = text ∧ d.tree = s ∧
      (∀ t ∈ s.types, t.Fits maxArgumentDepth) ∧ ParamForm.NoClash d.params := by
  rw [parse, Scan.run_eq_ok_iff (fun _ => Scan.accepts_classSignature)
    fun _ _ _ ⟨_, _, _, _, _, hend⟩ => hend]
  simp only [ClassSignatureForm.text, ← String.toList_inj, String.toList_ofList, and_true]

theorem MethodSignature.parse_eq_ok_iff {text : String} {s : MethodSignature} :
    parse text = .ok s ↔ ∃ d : MethodSignatureForm, d.text = text ∧ d.tree = s ∧
      (∀ t ∈ s.types, t.Fits maxArgumentDepth) ∧ ParamForm.NoClash d.typeParams := by
  rw [parse, Scan.run_eq_ok_iff (fun _ => Scan.accepts_methodSignature)
    fun _ _ _ ⟨_, _, _, _, _, hend⟩ => hend]
  simp only [MethodSignatureForm.text, ← String.toList_inj, String.toList_ofList, and_true]

/-- The limits can be read off the depths of the types and the runs in the text. -/
theorem ClassSignatureForm.fits_types_iff (d : ClassSignatureForm) (n : Nat) :
    (∀ t ∈ d.tree.types, t.Fits n) ↔
      (∀ t ∈ d.tree.types, t.depth ≤ n) ∧ ¬ HasRun 256 d.chars := by
  rw [← d.runs.forall_le_iff 255]
  exact forall₂_and

theorem MethodSignatureForm.fits_types_iff (d : MethodSignatureForm) (n : Nat) :
    (∀ t ∈ d.tree.types, t.Fits n) ↔
      (∀ t ∈ d.tree.types, t.depth ≤ n) ∧ ¬ HasRun 256 d.chars := by
  rw [← d.runs.forall_le_iff 255]
  exact forall₂_and

/-- The readers accept the texts that have a derivation within the limits, and give the signature it
stands for, unless a type parameter without bounds stands directly before one whose name starts with
`L` or `T`: such a text is rejected although it has a derivation. A text has at most one. -/
theorem parse_reads_declarations (text : String) :
    (∀ s : ClassSignature, ClassSignature.parse text = .ok s ↔
      ∃ d : ClassSignatureForm, d.text = text ∧ d.tree = s ∧ (∀ t ∈ s.types, t.depth ≤ 64) ∧
        ¬ List.replicate 256 '[' <:+: text.toList ∧ ParamForm.NoClash d.params) ∧
    (∀ s : MethodSignature, MethodSignature.parse text = .ok s ↔
      ∃ d : MethodSignatureForm, d.text = text ∧ d.tree = s ∧ (∀ t ∈ s.types, t.depth ≤ 64) ∧
        ¬ List.replicate 256 '[' <:+: text.toList ∧ ParamForm.NoClash d.typeParams) ∧
    (∀ d e : ClassSignatureForm, d.text = text → e.text = text → d = e) ∧
    (∀ d e : MethodSignatureForm, d.text = text → e.text = text → d = e) ∧
    (∀ d : ClassSignatureForm, d.text = text → ¬ ParamForm.NoClash d.params →
      ∀ s, ClassSignature.parse text ≠ .ok s) ∧
    ∀ d : MethodSignatureForm, d.text = text → ¬ ParamForm.NoClash d.typeParams →
      ∀ s, MethodSignature.parse text ≠ .ok s := by
  refine ⟨fun s => ?_, fun s => ?_,
    fun d e hd he => ClassSignatureForm.text_injective (hd.trans he.symm),
    fun d e hd he => MethodSignatureForm.text_injective (hd.trans he.symm),
    fun d hd hclash s hs => ?_, fun d hd hclash s hs => ?_⟩
  · rw [ClassSignature.parse_eq_ok_iff]
    refine exists_congr fun d => and_congr_right fun htext => and_congr_right fun htree => ?_
    rw [← htext, ← htree, ClassSignatureForm.text, String.toList_ofList, ← and_assoc]
    exact and_congr_left fun _ => d.fits_types_iff maxArgumentDepth
  · rw [MethodSignature.parse_eq_ok_iff]
    refine exists_congr fun d => and_congr_right fun htext => and_congr_right fun htree => ?_
    rw [← htext, ← htree, MethodSignatureForm.text, String.toList_ofList, ← and_assoc]
    exact and_congr_left fun _ => d.fits_types_iff maxArgumentDepth
  -- the only derivation of the text is the one with the clash
  · obtain ⟨e, he, -, -, hnoClash⟩ := ClassSignature.parse_eq_ok_iff.1 hs
    exact hclash (ClassSignatureForm.text_injective (he.trans hd.symm) ▸ hnoClash)
  · obtain ⟨e, he, -, -, hnoClash⟩ := MethodSignature.parse_eq_ok_iff.1 hs
    exact hclash (MethodSignatureForm.text_injective (he.trans hd.symm) ▸ hnoClash)

/-- Two parameters without bounds are read if the name of the second does not look like a bound, and
are rejected if it does. -/
theorem parse_reads_declarations_bare_parameters :
    (∃ s, ClassSignature.parse "<A:B:>La;" = .ok s ∧ s.params.map TypeParam.name = ["A", "B"]) ∧
      ∀ s, MethodSignature.parse "<A:L:>()V" ≠ .ok s := by
  let a : ParamForm := ⟨⟨['A'], by decide⟩, none, []⟩
  let b : ParamForm := ⟨⟨['B'], by decide⟩, none, []⟩
  let l : ParamForm := ⟨⟨['L'], by decide⟩, none, []⟩
  let d : ClassSignatureForm := ⟨[a, b], ⟨⟨['a'], by decide⟩, [], []⟩, []⟩
  let e : MethodSignatureForm := ⟨[a, l], [], none, []⟩
  refine ⟨⟨d.tree, ((parse_reads_declarations _).1 _).2 ⟨d, rfl, rfl, by decide, ?_, ?_⟩, rfl⟩, ?_⟩
  · intro h
    have hlength := h.length_le
    rw [List.length_replicate] at hlength
    exact absurd hlength (by decide)
  · refine List.isChain_cons_cons.2 ⟨?_, .singleton _⟩
    rintro ⟨-, _, ⟨⟩, hfirst⟩
    exact absurd hfirst (by decide)
  · refine (parse_reads_declarations _).2.2.2.2.2 e rfl fun hchain => ?_
    exact (List.isChain_cons_cons.1 hchain).1 ⟨⟨rfl, rfl⟩, 'L', rfl, by decide⟩

/-- A derivation within the limits whose text is not accepted. -/
theorem exists_declaration_not_read : ∃ d : ClassSignatureForm,
    d.text = "<A:T:>Ljava/lang/Object;" ∧ (∀ t ∈ d.tree.types, t.depth ≤ 64) ∧
      ¬ List.replicate 256 '[' <:+: d.text.toList ∧
      d.tree.params.map TypeParam.name = ["A", "T"] ∧
      ClassSignature.parse d.text = .error ⟨d.text, 4, .missingTypeVariableName⟩ := by
  refine ⟨⟨[⟨⟨['A'], by decide⟩, none, []⟩, ⟨⟨['T'], by decide⟩, none, []⟩],
    ⟨⟨"java/lang/Object".toList, by decide⟩, [], []⟩, []⟩, by decide, by decide, fun h => ?_, rfl,
    ?_⟩
  · have hlength := h.length_le
    rw [List.length_replicate] at hlength
    exact absurd hlength (by decide)
  · rfl

end ClassAtlas
