import ClassAtlas.Proofs.Descriptor.Names
import ClassAtlas.Proofs.Signature.Declarations

/-!
# The spelling of names in type texts

A descriptor or a generic signature spells out every class that it names. So none of the names is
empty or that of an array, and there are no more of them than the text has characters.

## Main definitions

* `Name.IsReduced` says that a name stands for itself as a class entry.
* `Name.SpelledIn` says that names are reduced and that there are no more of them than characters.

## Main results

* `FieldType.spelledIn_of_parse` and `MethodType.spelledIn_of_parse` are about descriptors.
* `RefType.spelledIn_of_parse`, `ClassSignature.spelledIn_of_parse` and
  `MethodSignature.spelledIn_of_parse` are about signatures.
-/

namespace ClassAtlas

/-! ## Reduced names -/

namespace Name

/-- The class that a class entry of this name stands for has the name itself. -/
def IsReduced (name : String) : Prop := elementClass? name = some name

instance (name : String) : Decidable (IsReduced name) := inferInstanceAs (Decidable (_ = _))

theorem IsPlain.isReduced {name : String} (h : IsPlain name) (hne : name ≠ "") : IsReduced name :=
  (elementClass?_eq_some_iff h hne).2 rfl

theorem isReduced_ofList {cs : List Char} (hne : cs ≠ []) (hbracket : '[' ∉ cs)
    (more : List Char) : IsReduced (String.ofList (cs ++ more)) := by
  refine (isPlain_ofList hne hbracket more).isReduced fun hempty => hne ?_
  exact (List.append_eq_nil_iff.1 (String.ofList_injective hempty)).1

/-- The names are reduced, and each of them takes up at least one of the characters. -/
structure SpelledIn (names : List String) (cs : List Char) : Prop where
  isReduced : ∀ name ∈ names, IsReduced name
  length_le : names.length ≤ cs.length

namespace SpelledIn

variable {α : Type} {l m : List String} {a b : List Char}

theorem nil : SpelledIn [] a := ⟨List.forall_mem_nil _, Nat.zero_le _⟩

theorem append (hl : SpelledIn l a) (hm : SpelledIn m b) : SpelledIn (l ++ m) (a ++ b) where
  isReduced := List.forall_mem_append.2 ⟨hl.isReduced, hm.isReduced⟩
  length_le := by
    rw [List.length_append, List.length_append]
    exact Nat.add_le_add hl.length_le hm.length_le

/-- A character that belongs to no name. -/
theorem cons (c : Char) (h : SpelledIn l a) : SpelledIn l (c :: a) :=
  ⟨h.isReduced, Nat.le_succ_of_le h.length_le⟩

/-- A character for one more name. -/
theorem cons_cons {name : String} (c : Char) (hname : IsReduced name) (h : SpelledIn l a) :
    SpelledIn (name :: l) (c :: a) :=
  ⟨List.forall_mem_cons.2 ⟨hname, h.isReduced⟩, Nat.succ_le_succ h.length_le⟩

/-- Characters that belong to no name. -/
theorem append_left (b : List Char) (h : SpelledIn l a) : SpelledIn l (b ++ a) :=
  nil.append h

theorem append_right (h : SpelledIn l a) (b : List Char) : SpelledIn l (a ++ b) := by
  have hboth : SpelledIn (l ++ []) (a ++ b) := h.append nil
  rwa [List.append_nil] at hboth

theorem angled (h : SpelledIn l a) : SpelledIn l (angled a) := by
  by_cases hnil : a = []
  · subst hnil
    exact h
  · rw [angled_of_ne_nil hnil]
    exact (h.append_right _).cons _

theorem flatMap {names : α → List String} {chars : α → List Char} {ds : List α}
    (h : ∀ d ∈ ds, SpelledIn (names d) (chars d)) :
    SpelledIn (ds.flatMap names) (ds.flatMap chars) := by
  induction ds with
  | nil => exact nil
  | cons d ds ih =>
    obtain ⟨hd, hds⟩ := List.forall_mem_cons.1 h
    exact hd.append (ih hds)

/-- A list of derivations spells the names of what they stand for. -/
theorem flatMap_map {δ : Type} {chars : δ → List Char} {tree : δ → α}
    {names : α → List String} (h : ∀ d, SpelledIn (names (tree d)) (chars d)) (ds : List δ) :
    SpelledIn ((ds.map tree).flatMap names) (ds.flatMap chars) := by
  rw [List.flatMap_map]
  exact .flatMap fun d _ => h d

end SpelledIn

end Name

open Name

/-! ## Descriptors -/

namespace FieldType

theorem WellFormed.spelledIn {t : FieldType} (h : t.WellFormed) :
    SpelledIn t.classLeaf?.toList t.chars := by
  obtain ⟨dims, element⟩ := t
  cases element with
  | primitive p => exact .nil
  | object name =>
    have hname : IsClassName name.toList := h.isClassName rfl
    have hne : name ≠ "" := fun hempty => hname.1 (hempty ▸ rfl)
    exact (SpelledIn.nil.cons_cons 'L' (hname.isPlain.isReduced hne)).append_left _

theorem spelledIn_of_parse {text : String} {t : FieldType} (h : parse text = .ok t) :
    SpelledIn t.classLeaf?.toList text.toList := by
  obtain ⟨ht, rfl⟩ := parse_eq_ok_iff.1 h
  rw [FieldType.text, String.toList_ofList]
  exact ht.spelledIn

/-- What a descriptor of an array stands for is a name that stands for itself. -/
theorem isReduced_classLeaf? {text name : String} {t : FieldType} (h : parse text = .ok t)
    (hname : t.classLeaf? = some name) : IsReduced name :=
  (spelledIn_of_parse h).isReduced name (by rw [hname]; exact List.mem_singleton_self name)

end FieldType

theorem MethodType.spelledIn_of_parse {text : String} {m : MethodType} (h : parse text = .ok m) :
    SpelledIn m.classNames text.toList := by
  obtain ⟨hm, rfl⟩ := parse_eq_ok_iff.1 h
  have hparams : SpelledIn (m.params.filterMap FieldType.classLeaf?)
      (m.params.flatMap FieldType.chars) := by
    rw [List.filterMap_eq_flatMap_toList]
    exact .flatMap fun t ht => (hm.params t ht).spelledIn
  have hresult : SpelledIn (m.result.bind FieldType.classLeaf?).toList
      (resultChars m.result) := by
    cases hr : m.result with
    | none => exact .nil
    | some t => exact (hm.result t hr).spelledIn
  rw [Descriptor.text, String.toList_ofList]
  exact (hparams.append (hresult.cons _)).cons _

/-! ## Derivations -/

theorem Path.isReduced_joinedName (path : Path) (inner : List InnerForm) :
    IsReduced (joinedName path inner) :=
  isReduced_ofList path.2.1 (fun hmem => path.2.2.1 _ hmem (by decide)) _

mutual

theorem RefForm.spelledIn : (d : RefForm) → SpelledIn d.tree.classNames d.chars
  | .object path args inner => by
    rw [RefForm.tree, RefType.classNames, TypeArg.allClassNames_append, RefForm.chars]
    have hargs := (ArgForm.spelledIn_all args).angled
    have hinner := (InnerForm.spelledIn_all inner).append_right [';']
    exact ((hargs.append hinner).append_left _).cons_cons _ (path.isReduced_joinedName inner)
  | .var name => by
    rw [RefForm.tree, RefType.classNames]
    exact .nil
  | .array element => by
    rw [RefForm.tree, RefType.classNames, RefForm.chars]
    exact element.spelledIn.cons _

theorem SigForm.spelledIn : (d : SigForm) → SpelledIn d.tree.classNames d.chars
  | .primitive p => by
    rw [SigForm.tree, SigType.classNames]
    exact .nil
  | .ref type => by
    rw [SigForm.tree, SigType.classNames, SigForm.chars]
    exact type.spelledIn

theorem ArgForm.spelledIn : (d : ArgForm) → SpelledIn d.tree.classNames d.chars
  | .any => by
    rw [ArgForm.tree, TypeArg.classNames]
    exact .nil
  | .upTo bound => by
    rw [ArgForm.tree, TypeArg.classNames, ArgForm.chars]
    exact bound.spelledIn.cons _
  | .downTo bound => by
    rw [ArgForm.tree, TypeArg.classNames, ArgForm.chars]
    exact bound.spelledIn.cons _
  | .exactly type => by
    rw [ArgForm.tree, TypeArg.classNames, ArgForm.chars]
    exact type.spelledIn

theorem ArgForm.spelledIn_all : (l : List ArgForm) →
    SpelledIn (TypeArg.allClassNames (ArgForm.allTrees l)) (ArgForm.allChars l)
  | [] => by
    rw [ArgForm.allTrees, TypeArg.allClassNames]
    exact .nil
  | arg :: rest => by
    rw [ArgForm.allTrees, TypeArg.allClassNames, ArgForm.allChars]
    exact arg.spelledIn.append (ArgForm.spelledIn_all rest)

theorem InnerForm.spelledIn : (d : InnerForm) →
    SpelledIn (TypeArg.allClassNames d.argTrees) d.chars
  | .mk name args => by
    rw [InnerForm.argTrees, InnerForm.chars]
    exact ((ArgForm.spelledIn_all args).angled.append_left _).cons _

theorem InnerForm.spelledIn_all : (l : List InnerForm) →
    SpelledIn (TypeArg.allClassNames (InnerForm.allArgs l)) (InnerForm.allChars l)
  | [] => by
    rw [InnerForm.allArgs, TypeArg.allClassNames]
    exact .nil
  | part :: rest => by
    rw [InnerForm.allArgs, TypeArg.allClassNames_append, InnerForm.allChars]
    exact part.spelledIn.append (InnerForm.spelledIn_all rest)

end

theorem ClassForm.spelledIn (d : ClassForm) : SpelledIn d.tree.classNames d.chars :=
  d.toRef.spelledIn

theorem ThrownForm.spelledIn (d : ThrownForm) : SpelledIn d.tree.classNames d.chars :=
  d.toRef.spelledIn.cons _

theorem ParamForm.spelledIn (p : ParamForm) : SpelledIn p.tree.classNames p.chars := by
  have hclass : SpelledIn (p.tree.classBound.elim [] RefType.classNames)
      (p.classBound.elim [] RefForm.chars) := by
    obtain ⟨name, classBound, interfaceBounds⟩ := p
    cases classBound with
    | none => exact .nil
    | some d => exact d.spelledIn
  have hinterfaces : SpelledIn (p.tree.interfaceBounds.flatMap RefType.classNames)
      (p.interfaceBounds.flatMap RefForm.interfaceChars) := by
    rw [tree, List.flatMap_map]
    exact .flatMap fun d _ => d.spelledIn.cons _
  exact ((hclass.append hinterfaces).cons _).append_left _

theorem ClassSignatureForm.spelledIn (d : ClassSignatureForm) :
    SpelledIn (d.tree.superclass.classNames ++ d.tree.interfaces.flatMap ClassType.classNames)
      d.chars :=
  (d.superclass.spelledIn.append (.flatMap_map ClassForm.spelledIn d.interfaces)).append_left _

/-- All names of a signature of a method, by what they are named as. -/
theorem MethodSignatureForm.spelledIn (d : MethodSignatureForm) :
    SpelledIn ((d.tree.typeParams.flatMap TypeParam.classNames ++
      d.tree.params.flatMap SigType.classNames) ++ (d.tree.result.elim [] SigType.classNames ++
        d.tree.throws.flatMap RefType.classNames)) d.chars := by
  have htypeParams := SpelledIn.flatMap_map ParamForm.spelledIn d.typeParams
  have hparams := SpelledIn.flatMap_map SigForm.spelledIn d.params
  have hthrows := SpelledIn.flatMap_map ThrownForm.spelledIn d.throws
  have hresult : SpelledIn (d.tree.result.elim [] SigType.classNames)
      (d.result.elim ['V'] SigForm.chars) := by
    obtain ⟨typeParams, params, result, throws⟩ := d
    cases result with
    | none => exact .nil
    | some e => exact e.spelledIn
  have hrest := (hparams.append ((hresult.append hthrows).cons ')')).cons '('
  rw [List.append_assoc]
  exact htypeParams.angled.append hrest

/-! ## Signatures -/

theorem RefType.spelledIn_of_parse {text : String} {t : RefType} (h : parse text = .ok t) :
    SpelledIn t.classNames text.toList := by
  obtain ⟨d, rfl, rfl, -⟩ := parse_eq_ok_iff.1 h
  rw [RefForm.text, String.toList_ofList]
  exact d.spelledIn

theorem ClassSignature.spelledIn_of_parse {text : String} {s : ClassSignature}
    (h : parse text = .ok s) :
    SpelledIn (s.superclass.classNames ++ s.interfaces.flatMap ClassType.classNames)
      text.toList := by
  obtain ⟨d, rfl, rfl, -⟩ := parse_eq_ok_iff.1 h
  rw [ClassSignatureForm.text, String.toList_ofList]
  exact d.spelledIn

theorem MethodSignature.spelledIn_of_parse {text : String} {s : MethodSignature}
    (h : parse text = .ok s) :
    SpelledIn ((s.typeParams.flatMap TypeParam.classNames ++ s.params.flatMap SigType.classNames) ++
      (s.result.elim [] SigType.classNames ++ s.throws.flatMap RefType.classNames))
      text.toList := by
  obtain ⟨d, rfl, rfl, -⟩ := parse_eq_ok_iff.1 h
  rw [MethodSignatureForm.text, String.toList_ofList]
  exact d.spelledIn

end ClassAtlas
