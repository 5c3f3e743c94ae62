import ClassAtlas.Name
import ClassAtlas.Proofs.Descriptor.Acceptance
import ClassAtlas.Signature.Parser

/-!
# Names in type texts

A class that is named in a descriptor or in a generic signature is never an array: the characters
that end a name keep `[` out of it. And a descriptor that was read is the written form of its type,
so the class at the bottom of an array type is the one that its name as a class entry stands for.

## Main definitions

* `Name.IsPlain` says that a name is not that of an array.
* `Scan.Ensures` says that whatever a reader gives has a property.
-/

namespace ClassAtlas

namespace Name

/-- The name is not that of an array. -/
def IsPlain (name : String) : Prop := name.toList.head? ≠ some '['

instance (name : String) : Decidable (IsPlain name) := inferInstanceAs (Decidable (_ ≠ _))

theorem ne_empty_of_not_isPlain {name : String} (h : ¬ IsPlain name) : name ≠ "" := by
  rintro rfl
  exact h (by decide)

/-- A plain name stands for itself, unless it is empty. -/
theorem elementClass?_eq_some_iff {name target : String} (h : IsPlain name) (ht : target ≠ "") :
    elementClass? name = some target ↔ name = target := by
  rw [elementClass?]
  split
  · next hnil =>
    have hempty : name = "" := String.toList_eq_nil_iff.1 hnil
    simp [hempty, Ne.symm ht]
  · next rest hcons => exact absurd (by rw [hcons]; rfl) h
  · exact Option.some_inj

theorem isPlain_ofList {cs : List Char} (hne : cs ≠ []) (hbracket : '[' ∉ cs) (more : List Char) :
    IsPlain (String.ofList (cs ++ more)) := by
  intro h
  cases cs with
  | nil => exact hne rfl
  | cons first rest =>
    rw [String.toList_ofList, List.cons_append, List.head?_cons, Option.some_inj] at h
    exact hbracket (h ▸ List.mem_cons_self)

/-- All names in a list are plain. -/
def AllPlain (names : List String) : Prop := ∀ name ∈ names, IsPlain name

instance (names : List String) : Decidable (AllPlain names) :=
  inferInstanceAs (Decidable (∀ name ∈ names, IsPlain name))

theorem allPlain_nil : AllPlain [] := fun _ h => absurd h List.not_mem_nil

theorem AllPlain.append {l m : List String} (hl : AllPlain l) (hm : AllPlain m) :
    AllPlain (l ++ m) := fun name h => (List.mem_append.1 h).elim (hl name) (hm name)

theorem AllPlain.flatMap {α : Type} {l : List α} {f : α → List String}
    (h : ∀ a ∈ l, AllPlain (f a)) : AllPlain (l.flatMap f) := by
  intro name hname
  obtain ⟨a, ha, hname⟩ := List.mem_flatMap.1 hname
  exact h a ha name hname

end Name

namespace Scan

variable {α β : Type} {c : Cursor}

/-- Whatever the reader gives from a cursor has the property, together with the cursor after it. -/
def Ensures (s : Scan α) (c : Cursor) (P : α → Cursor → Prop) : Prop :=
  ∀ a c', s c = .ok (a, c') → P a c'

theorem ensures_true (s : Scan α) : s.Ensures c fun _ _ => True := fun _ _ _ => trivial

theorem ensures_pure {a : α} {P : α → Cursor → Prop} (h : P a c) :
    (pure a : Scan α).Ensures c P := by
  intro b c' hb
  cases hb
  exact h

theorem ensures_fail (fault : Fault) (P : α → Cursor → Prop) :
    (fail fault : Scan α).Ensures c P := by
  intro a c' h
  cases h

theorem ensures_failAt (position : Nat) (fault : Fault) (P : α → Cursor → Prop) :
    (failAt position fault : Scan α).Ensures c P := by
  intro a c' h
  cases h

theorem Ensures.bind {s : Scan α} {f : α → Scan β} {P : α → Cursor → Prop} {Q : β → Cursor → Prop}
    (hs : s.Ensures c P) (hf : ∀ a c', P a c' → (f a).Ensures c' Q) : (s >>= f).Ensures c Q := by
  intro b c' h
  obtain ⟨a, d, ha, hb⟩ := stateBind_eq_ok_iff.1 h
  exact hf a d (hs a d ha) b c' hb

/-- A first step that does not matter. -/
theorem Ensures.after {s : Scan α} {f : α → Scan β} {Q : β → Cursor → Prop}
    (hf : ∀ a c', (f a).Ensures c' Q) : (s >>= f).Ensures c Q :=
  (ensures_true s).bind fun a c' _ => hf a c'

theorem Ensures.bind_pure {s : Scan α} {f : α → β} {P : α → Cursor → Prop}
    {Q : β → Cursor → Prop} (hs : s.Ensures c P) (hf : ∀ a c', P a c' → Q (f a) c') :
    (s >>= fun a => pure (f a)).Ensures c Q :=
  hs.bind fun a c' ha => ensures_pure (hf a c' ha)

theorem ensures_fail_bind (fault : Fault) (f : α → Scan β) (P : β → Cursor → Prop) :
    (fail fault >>= f).Ensures c P :=
  (ensures_fail fault fun _ _ => False).bind fun _ _ h => h.elim

theorem ensures_failAt_bind (position : Nat) (fault : Fault) (f : α → Scan β)
    (P : β → Cursor → Prop) : (failAt position fault >>= f).Ensures c P :=
  (ensures_failAt position fault fun _ _ => False).bind fun _ _ h => h.elim

theorem ensures_takeUntil (stops : List Char) :
    (takeUntil stops).Ensures c fun cs _ => ∀ ch ∈ cs, ch ∉ stops := by
  intro cs c' h
  obtain ⟨_, -, -, rfl, hstops, -⟩ := (accepts_takeUntil stops cs c').1 h
  exact hstops

theorem ensures_repeatUpTo {more : Option Char → Bool} {item : Scan α} {P : α → Prop}
    (h : ∀ c, item.Ensures c fun a _ => P a) (n : Nat) :
    (repeatUpTo more item n).Ensures c fun l _ => ∀ a ∈ l, P a := by
  induction n generalizing c with
  | zero => exact ensures_pure (by simp)
  | succ n ih =>
    refine Ensures.after fun next c' => ?_
    split
    · refine (h c').bind fun first c' hfirst => ih.bind_pure fun others _ hothers => ?_
      simpa using ⟨hfirst, hothers⟩
    · exact ensures_pure (by simp)

theorem ensures_repeatWhile {more : Option Char → Bool} {item : Scan α} {P : α → Prop}
    (h : ∀ c, item.Ensures c fun a _ => P a) :
    (repeatWhile more item).Ensures c fun l _ => ∀ a ∈ l, P a :=
  Ensures.after fun _ _ => ensures_repeatUpTo h _

theorem ensures_run {s : Scan α} {P : α → Prop} {text : String}
    (h : s.Ensures ⟨0, text.toList⟩ fun a _ => P a) {a : α} (ha : s.run text = .ok a) : P a := by
  rw [run] at ha
  split at ha
  · next b c hrun =>
    cases ha
    exact h _ _ hrun
  · cases ha

end Scan

/-! ## Descriptors -/

theorem IsClassName.isPlain {name : String} (h : IsClassName name.toList) : Name.IsPlain name := by
  intro hbracket
  obtain ⟨others, hothers⟩ := List.head?_eq_some_iff.1 hbracket
  exact h.2 '[' (by simp [hothers]) (by decide)

theorem FieldType.WellFormed.isClassName {t : FieldType} (h : t.WellFormed) {name : String}
    (hname : t.classLeaf? = some name) : IsClassName name.toList := by
  obtain ⟨dims, element⟩ := t
  cases element with
  | primitive p => cases hname
  | object leaf =>
    cases hname
    exact h.element

namespace ElementType

theorem dropWhile_chars (dims : Nat) (t : ElementType) :
    (List.replicate dims '[' ++ t.chars).dropWhile (· = '[') = t.chars := by
  rw [List.dropWhile_append_of_pos (by simp)]
  cases t with
  | primitive p => cases p <;> rfl
  | object name => rfl

theorem objectName?_chars {t : ElementType} (h : t.WellFormed) :
    (Name.objectName? t.chars).map String.ofList = FieldType.classLeaf? ⟨0, t⟩ := by
  cases t with
  | primitive p => cases p <;> rfl
  | object name =>
    have hne := h.1
    simp [chars, Name.objectName?, FieldType.classLeaf?, hne]

end ElementType

namespace FieldType

/-- A descriptor of an array stands for the class at the bottom of its type. -/
theorem elementClass?_eq {text : String} {t : FieldType} (h : parse text = .ok t)
    (harray : text.toList.head? = some '[') : Name.elementClass? text = t.classLeaf? := by
  obtain ⟨ht, rfl⟩ := parse_eq_ok_iff.1 h
  obtain ⟨dims, element⟩ := t
  rw [FieldType.text, String.toList_ofList] at harray
  cases dims with
  | zero =>
    -- a text without dimensions starts with the letter of its element type
    cases element with
    | primitive p => cases p <;> cases harray
    | object name => cases harray
  | succ dims =>
    rw [Name.elementClass?, FieldType.text, String.toList_ofList, chars, List.replicate_succ,
      List.cons_append]
    show (Name.objectName? _).map _ = _
    rw [ElementType.dropWhile_chars]
    exact ElementType.objectName?_chars ht.element

theorem allPlain_of_parse {text : String} {t : FieldType} (h : parse text = .ok t) :
    Name.AllPlain t.classLeaf?.toList := by
  intro name hname
  exact ((parse_eq_ok_iff.1 h).1.isClassName (by simpa using hname)).isPlain

end FieldType

theorem MethodType.allPlain_of_parse {text : String} {m : MethodType} (h : parse text = .ok m) :
    Name.AllPlain m.classNames := by
  have hm := (parse_eq_ok_iff.1 h).1
  intro name hname
  simp only [MethodType.classNames, List.mem_append, List.mem_filterMap, Option.mem_toList,
    Option.bind_eq_some_iff] at hname
  rcases hname with ⟨t, ht, hleaf⟩ | ⟨t, ht, hleaf⟩
  · exact ((hm.params t ht).isClassName hleaf).isPlain
  · exact ((hm.result t ht).isClassName hleaf).isPlain

namespace Name

/-- The name can stand in a class entry: if it is that of an array, it is a descriptor. -/
def IsEntryName (name : String) : Prop := IsPlain name ∨ (FieldType.parse name).isOk = true

instance (name : String) : Decidable (IsEntryName name) := inferInstanceAs (Decidable (_ ∨ _))

theorem IsEntryName.isPlain_elementClass? {name leaf : String} (h : IsEntryName name)
    (hleaf : elementClass? name = some leaf) : IsPlain leaf := by
  by_cases harray : name.toList.head? = some '['
  · cases hparse : FieldType.parse name with
    | error e => simp [IsEntryName, IsPlain, harray, hparse, Except.isOk, Except.toBool] at h
    | ok t =>
      rw [FieldType.elementClass?_eq hparse harray] at hleaf
      exact ((FieldType.parse_eq_ok_iff.1 hparse).1.isClassName hleaf).isPlain
  · rw [elementClass?] at hleaf
    split at hleaf
    · cases hleaf
    · next rest hcons => exact absurd (by rw [hcons]; rfl) harray
    · cases hleaf
      exact harray

end Name

/-! ## Generic signatures -/

theorem TypeArg.allClassNames_append (l m : List TypeArg) :
    allClassNames (l ++ m) = allClassNames l ++ allClassNames m := by
  induction l with
  | nil => rw [List.nil_append, allClassNames, List.nil_append]
  | cons arg l ih => rw [List.cons_append, allClassNames, allClassNames, ih, List.append_assoc]

theorem TypeArg.allClassNames_eq (l : List TypeArg) :
    allClassNames l = l.flatMap classNames := by
  induction l with
  | nil => rw [allClassNames, List.flatMap_nil]
  | cons arg l ih => rw [allClassNames, List.flatMap_cons, ih]

namespace Scan

open Name

theorem ensures_typeArg {ref : Scan RefType}
    (h : ∀ c, ref.Ensures c fun t _ => AllPlain t.classNames) :
    (typeArg ref).Ensures c fun arg _ => AllPlain arg.classNames := by
  refine Ensures.after fun next d => ?_
  split
  · exact Ensures.after fun _ d => ensures_pure (by rw [TypeArg.classNames]; exact allPlain_nil)
  · refine Ensures.after fun _ d => (h d).bind_pure fun t _ ht => ?_
    rwa [TypeArg.classNames]
  · refine Ensures.after fun _ d => (h d).bind_pure fun t _ ht => ?_
    rwa [TypeArg.classNames]
  · refine (h d).bind_pure fun t _ ht => ?_
    rwa [TypeArg.classNames]

theorem ensures_typeArgList {ref : Scan RefType}
    (h : ∀ c, ref.Ensures c fun t _ => AllPlain t.classNames) :
    (typeArgList ref).Ensures c fun args _ => AllPlain (TypeArg.allClassNames args) := by
  refine (ensures_repeatWhile fun c => ensures_typeArg h).bind fun args d hargs => ?_
  refine Ensures.after fun _ d => ensures_pure ?_
  rw [TypeArg.allClassNames_eq]
  exact .flatMap hargs

variable {list : Scan (List TypeArg)}

theorem ensures_typeArgs (h : ∀ c, list.Ensures c fun l _ => AllPlain (TypeArg.allClassNames l)) :
    (typeArgs list).Ensures c fun l _ => AllPlain (TypeArg.allClassNames l) := by
  refine Ensures.after fun opened d => ?_
  split
  · exact ensures_pure (by rw [TypeArg.allClassNames]; exact allPlain_nil)
  · refine Ensures.after fun next d => ?_
    split
    · exact ensures_fail_bind _ _ _
    · exact h d

theorem ensures_innerParts (h : ∀ c, list.Ensures c fun l _ => AllPlain (TypeArg.allClassNames l)) :
    (innerParts list).Ensures c fun parts _ =>
      ∀ part ∈ parts, AllPlain (TypeArg.allClassNames part.2) :=
  ensures_repeatWhile fun _ => Ensures.after fun _ _ => Ensures.after fun _ _ =>
    (ensures_typeArgs h).bind_pure fun _ _ hargs => hargs

theorem ensures_classTypeWith
    (h : ∀ c, list.Ensures c fun l _ => AllPlain (TypeArg.allClassNames l)) :
    (classTypeWith list).Ensures c fun t _ => AllPlain t.classNames := by
  refine Ensures.after fun start d => Ensures.after fun _ d => ?_
  refine (ensures_takeUntil pathStops).bind fun path d hpath => ?_
  dsimp only
  split
  · exact ensures_fail_bind _ _ _
  · next hne =>
    refine (ensures_typeArgs h).bind fun args d hargs => ?_
    refine (ensures_innerParts h).bind fun inner d hinner => Ensures.after fun next d => ?_
    split
    · exact ensures_failAt_bind _ _ _ _
    · refine Ensures.after fun _ d => ensures_pure ?_
      simp only [Bool.or_eq_true, not_or, List.isEmpty_iff] at hne
      have hname := isPlain_ofList hne.1 (fun hmem => hpath _ hmem (by decide))
        (inner.flatMap fun part => '$' :: part.1)
      rw [ClassType.classNames, ClassType.toRef, RefType.classNames, TypeArg.allClassNames_append,
        TypeArg.allClassNames_eq (inner.flatMap _), List.flatMap_assoc]
      refine List.forall_mem_cons.2 ⟨hname, hargs.append (.flatMap fun part hpart => ?_)⟩
      rw [← TypeArg.allClassNames_eq]
      exact hinner part hpart

theorem ensures_typeVariable :
    typeVariable.Ensures c fun t _ => AllPlain t.classNames := by
  refine Ensures.after fun _ d => Ensures.after fun name d => Ensures.after fun _ d => ?_
  exact ensures_pure (by rw [RefType.classNames]; exact allPlain_nil)

theorem ensures_plainType (h : ∀ c, list.Ensures c fun l _ => AllPlain (TypeArg.allClassNames l)) :
    (plainType list).Ensures c fun t _ => AllPlain t.classNames := by
  refine Ensures.after fun next d => ?_
  split
  · refine (ensures_classTypeWith h).bind_pure fun t _ ht => ?_
    rwa [SigType.classNames]
  · refine ensures_typeVariable.bind_pure fun t _ ht => ?_
    rwa [SigType.classNames]
  · exact ensures_fail _ _
  · split
    · exact Ensures.after fun _ d => ensures_pure (by rw [SigType.classNames]; exact allPlain_nil)
    · exact ensures_fail _ _
  · exact ensures_fail _ _

theorem classNames_arrayOf (element : SigType) (dims : Nat) :
    (arrayOf element dims).classNames = element.classNames := by
  induction dims with
  | zero => rw [arrayOf, RefType.classNames]
  | succ dims ih => rw [arrayOf, RefType.classNames, SigType.classNames, ih]

theorem ensures_refTypeWith
    (h : ∀ c, list.Ensures c fun l _ => AllPlain (TypeArg.allClassNames l)) :
    (refTypeWith list).Ensures c fun t _ => AllPlain t.classNames := by
  refine Ensures.after fun next d => ?_
  split
  · exact (ensures_classTypeWith h).bind_pure fun t _ ht => ht
  · exact ensures_typeVariable
  · refine Ensures.after fun dims d => (ensures_plainType h).bind_pure fun t _ ht => ?_
    rwa [classNames_arrayOf]
  · exact ensures_fail _ _
  · exact ensures_fail _ _

/-- The names in lists of type arguments are plain, however deep they are nested. -/
theorem ensures_nestedArgs (n : Nat) :
    (nestedArgs n).Ensures c fun l _ => AllPlain (TypeArg.allClassNames l) := by
  induction n generalizing c with
  | zero => exact ensures_fail _ _
  | succ n ih => exact ensures_typeArgList fun d => ensures_refTypeWith fun _ => ih

theorem ensures_refType : refType.Ensures c fun t _ => AllPlain t.classNames :=
  ensures_refTypeWith fun _ => ensures_nestedArgs _

theorem ensures_classType : classType.Ensures c fun t _ => AllPlain t.classNames :=
  ensures_classTypeWith fun _ => ensures_nestedArgs _

theorem ensures_sigType : sigType.Ensures c fun t _ => AllPlain t.classNames := by
  refine Ensures.after fun next d => ?_
  split
  · refine ensures_refType.bind_pure fun t _ ht => ?_
    rwa [SigType.classNames]
  · exact ensures_plainType fun _ => ensures_nestedArgs _

theorem ensures_typeParam : typeParam.Ensures c fun p _ => AllPlain p.classNames := by
  refine Ensures.after fun name d => Ensures.after fun _ d => Ensures.after fun next d => ?_
  have hinterfaces {e : Cursor} : (repeatWhile (· == some ':') (advance *> refType)).Ensures e
      fun l _ => ∀ t ∈ l, AllPlain t.classNames :=
    ensures_repeatWhile fun _ => Ensures.after fun _ _ => ensures_refType
  dsimp only
  split
  · have hbound {e : Cursor} : (some <$> refType).Ensures e
        fun bound _ => AllPlain (bound.elim [] RefType.classNames) :=
      ensures_refType.bind_pure fun t _ ht => ht
    exact hbound.bind fun bound d hbound => hinterfaces.bind_pure fun l _ hl =>
      hbound.append (.flatMap hl)
  · exact hinterfaces.bind_pure fun l _ hl => AllPlain.flatMap hl

theorem ensures_typeParams :
    typeParams.Ensures c fun l _ => ∀ p ∈ l, AllPlain p.classNames := by
  refine Ensures.after fun opened d => ?_
  split
  · exact ensures_pure (by simp)
  · refine ensures_typeParam.bind fun first d hfirst => ?_
    refine (ensures_repeatWhile fun _ => ensures_typeParam).bind fun others d hothers => ?_
    exact Ensures.after fun _ d => ensures_pure (List.forall_mem_cons.2 ⟨hfirst, hothers⟩)

theorem ensures_thrownType : thrownType.Ensures c fun t _ => AllPlain t.classNames := by
  refine Ensures.after fun _ d => Ensures.after fun next d => ?_
  split
  · exact ensures_refType
  · exact ensures_refType
  · exact ensures_fail _ _

end Scan

theorem RefType.allPlain_of_parse {text : String} {t : RefType} (h : parse text = .ok t) :
    Name.AllPlain t.classNames := by
  refine Scan.ensures_run (P := fun t => Name.AllPlain t.classNames) ?_ h
  exact Scan.ensures_refType.bind fun _ _ ht => Scan.Ensures.after fun _ _ => Scan.ensures_pure ht

theorem ClassSignature.allPlain_of_parse {text : String} {s : ClassSignature}
    (h : parse text = .ok s) :
    Name.AllPlain s.superclass.classNames ∧
      Name.AllPlain (s.interfaces.flatMap ClassType.classNames) := by
  refine Scan.ensures_run (P := fun s => Name.AllPlain s.superclass.classNames ∧
    Name.AllPlain (s.interfaces.flatMap ClassType.classNames)) ?_ h
  refine Scan.Ensures.after fun params c => Scan.ensures_classType.bind
    fun superclass d hsuper => ?_
  refine (Scan.ensures_repeatWhile fun _ => Scan.ensures_classType).bind_pure fun l _ hl => ?_
  exact ⟨hsuper, .flatMap hl⟩

theorem MethodSignature.allPlain_of_parse {text : String} {s : MethodSignature}
    (h : parse text = .ok s) :
    Name.AllPlain (s.typeParams.flatMap TypeParam.classNames ++
        s.params.flatMap SigType.classNames) ∧
      Name.AllPlain (s.result.elim [] SigType.classNames) ∧
      Name.AllPlain (s.throws.flatMap RefType.classNames) := by
  refine Scan.ensures_run (P := fun s => Name.AllPlain (s.typeParams.flatMap TypeParam.classNames ++
    s.params.flatMap SigType.classNames) ∧ Name.AllPlain (s.result.elim [] SigType.classNames) ∧
    Name.AllPlain (s.throws.flatMap RefType.classNames)) ?_ h
  refine Scan.ensures_typeParams.bind fun typeParams c htypes => Scan.Ensures.after fun _ c => ?_
  refine (Scan.ensures_repeatWhile fun _ => Scan.ensures_sigType).bind fun params c hparams => ?_
  refine Scan.Ensures.after fun _ c => Scan.Ensures.after fun isVoid c => ?_
  have hthrows {e : Cursor} : (Scan.repeatWhile (· == some '^') Scan.thrownType).Ensures e
      fun l _ => ∀ t ∈ l, Name.AllPlain t.classNames :=
    Scan.ensures_repeatWhile fun _ => Scan.ensures_thrownType
  have hparams := Name.AllPlain.append (.flatMap htypes) (.flatMap hparams)
  have hvoid {e : Cursor} : (pure none : Scan (Option SigType)).Ensures e
      fun result _ => Name.AllPlain (result.elim [] SigType.classNames) :=
    Scan.ensures_pure Name.allPlain_nil
  have hsome {e : Cursor} : (some <$> Scan.sigType).Ensures e
      fun result _ => Name.AllPlain (result.elim [] SigType.classNames) :=
    Scan.ensures_sigType.bind_pure fun t _ ht => ht
  dsimp only
  split
  · refine hvoid.bind fun result c hresult => hthrows.bind fun throws c hthrows => ?_
    exact Scan.Ensures.after fun _ _ => Scan.ensures_pure ⟨hparams, hresult, .flatMap hthrows⟩
  · refine hsome.bind fun result c hresult => hthrows.bind fun throws c hthrows => ?_
    exact Scan.Ensures.after fun _ _ => Scan.ensures_pure ⟨hparams, hresult, .flatMap hthrows⟩

end ClassAtlas
