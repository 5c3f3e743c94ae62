import ClassAtlas.Signature.Basic

/-!
# The grammar of generic signatures

```text
RefType   := ClassType | 'T' Ident ';' | '[' SigType
SigType   := Primitive | RefType
ClassType := 'L' Path TypeArgs? ('.' Ident TypeArgs?)* ';'
TypeArgs  := '<' TypeArg+ '>'
TypeArg   := '*' | ('+' | '-')? RefType
```

A *form* is a derivation of this grammar, so it still has the parts of a class type apart. It stands
for a type, in which they are joined, and it has a text.

## Main definitions

* `RefForm`, `SigForm`, `ArgForm`, `InnerForm` and `ClassForm` are the derivations.
* `RefForm.chars` is the text that a form derives, and `RefForm.tree` is the type it stands for.
* `RefType.depth` and `RefType.longestRun` measure how deep lists of type arguments nest in a type
  and how many dimensions an array in it has.
* `RefType.chars` writes a type with every class in one part.

## Main results

* `RefForm.exists_onePart`: the written form of the type of a form is the text of another form of
  that type.
-/

namespace ClassAtlas

/-! ## Names -/

/-- The characters are an identifier. -/
def IsIdent (cs : List Char) : Prop :=
  cs ≠ [] ∧ ∀ c ∈ cs, c ∉ ['.', ';', '[', '/', '<', '>', ':']

/-- The characters are the path of a class. -/
def IsPath (cs : List Char) : Prop :=
  cs ≠ [] ∧ (∀ c ∈ cs, c ∉ ['.', ';', '[', '<', '>', ':']) ∧ cs.getLast? ≠ some '/'

instance (cs : List Char) : Decidable (IsIdent cs) :=
  @instDecidableAnd _ _ inferInstance (List.decidableBAll _ cs)

instance (cs : List Char) : Decidable (IsPath cs) :=
  @instDecidableAnd _ _ inferInstance
    (@instDecidableAnd _ _ (List.decidableBAll _ cs) inferInstance)

def Ident : Type := { cs : List Char // IsIdent cs }

def Path : Type := { cs : List Char // IsPath cs }

/-! ## Forms -/

mutual

/-- A derivation of a reference type. -/
inductive RefForm where
  /-- A class type; each of its parts has a list of type arguments, which is left out if empty. -/
  | object (path : Path) (args : List ArgForm) (inner : List InnerForm)
  | var (name : Ident)
  | array (element : SigForm)

/-- A derivation of a primitive or reference type. -/
inductive SigForm where
  | primitive (type : Primitive)
  | ref (type : RefForm)

/-- A derivation of a type argument. -/
inductive ArgForm where
  | any
  | upTo (bound : RefForm)
  | downTo (bound : RefForm)
  | exactly (type : RefForm)

/-- A part of a class type after its first. -/
inductive InnerForm where
  | mk (name : Ident) (args : List ArgForm)

end

/-- A derivation of a class type. -/
structure ClassForm where
  path : Path
  args : List ArgForm
  inner : List InnerForm

/-- A class type as a reference type. -/
def ClassForm.toRef (d : ClassForm) : RefForm := .object d.path d.args d.inner

def InnerForm.name : InnerForm → Ident
  | mk name _ => name

def InnerForm.args : InnerForm → List ArgForm
  | mk _ args => args

/-- The items of a list in angle brackets; without items there are no brackets. -/
def angled : List Char → List Char
  | [] => []
  | c :: cs => '<' :: c :: (cs ++ ['>'])

mutual

def RefForm.chars : RefForm → List Char
  | .object path args inner =>
    'L' :: (path.val ++ (angled (ArgForm.allChars args) ++ (InnerForm.allChars inner ++ [';'])))
  | .var name => 'T' :: (name.val ++ [';'])
  | .array element => '[' :: element.chars

def SigForm.chars : SigForm → List Char
  | .primitive p => [p.code]
  | .ref type => type.chars

def ArgForm.chars : ArgForm → List Char
  | .any => ['*']
  | .upTo bound => '+' :: bound.chars
  | .downTo bound => '-' :: bound.chars
  | .exactly type => type.chars

def ArgForm.allChars : List ArgForm → List Char
  | [] => []
  | arg :: rest => arg.chars ++ ArgForm.allChars rest

def InnerForm.chars : InnerForm → List Char
  | .mk name args => '.' :: (name.val ++ angled (ArgForm.allChars args))

def InnerForm.allChars : List InnerForm → List Char
  | [] => []
  | part :: rest => part.chars ++ InnerForm.allChars rest

end

def RefForm.text (d : RefForm) : String := String.ofList d.chars

/-- The name of a class: its path and the names of its other parts, joined by `$`. -/
def joinedName (path : Path) (inner : List InnerForm) : String :=
  String.ofList (path.val ++ inner.flatMap fun part => '$' :: part.name.val)

mutual

def RefForm.tree : RefForm → RefType
  | .object path args inner =>
    .object (joinedName path inner) (ArgForm.allTrees args ++ InnerForm.allArgs inner)
  | .var name => .var (String.ofList name.val)
  | .array element => .array element.tree

def SigForm.tree : SigForm → SigType
  | .primitive p => .primitive p
  | .ref type => .ref type.tree

def ArgForm.tree : ArgForm → TypeArg
  | .any => .any
  | .upTo bound => .upTo bound.tree
  | .downTo bound => .downTo bound.tree
  | .exactly type => .exactly type.tree

def ArgForm.allTrees : List ArgForm → List TypeArg
  | [] => []
  | arg :: rest => arg.tree :: ArgForm.allTrees rest

/-- The type arguments of a part. -/
def InnerForm.argTrees : InnerForm → List TypeArg
  | .mk _ args => ArgForm.allTrees args

/-- The type arguments of all parts, one after the other. -/
def InnerForm.allArgs : List InnerForm → List TypeArg
  | [] => []
  | part :: rest => part.argTrees ++ InnerForm.allArgs rest

end

def ClassForm.chars (d : ClassForm) : List Char := d.toRef.chars

def ClassForm.tree (d : ClassForm) : ClassType :=
  ⟨joinedName d.path d.inner, ArgForm.allTrees d.args ++ InnerForm.allArgs d.inner⟩

/-! ## Measures of a type -/

mutual

/-- How many lists of type arguments stand inside one another. -/
def RefType.depth : RefType → Nat
  | .object _ args => TypeArg.allDepth args
  | .var _ => 0
  | .array element => element.depth

def SigType.depth : SigType → Nat
  | .primitive _ => 0
  | .ref type => type.depth

def TypeArg.depth : TypeArg → Nat
  | .any => 0
  | .upTo bound => bound.depth
  | .downTo bound => bound.depth
  | .exactly type => type.depth

/-- The depth of a list of type arguments, which is itself one of the lists. -/
def TypeArg.allDepth : List TypeArg → Nat
  | [] => 0
  | arg :: rest => max (arg.depth + 1) (TypeArg.allDepth rest)

end

mutual

/-- The number of dimensions of a type. -/
def RefType.dims : RefType → Nat
  | .array element => element.dims + 1
  | _ => 0

def SigType.dims : SigType → Nat
  | .primitive _ => 0
  | .ref type => type.dims

end

mutual

/-- The largest number of dimensions of an array, also inside type arguments. -/
def RefType.longestRun : RefType → Nat
  | .object _ args => TypeArg.allLongestRun args
  | .var _ => 0
  | .array element => max (element.dims + 1) element.longestRun

def SigType.longestRun : SigType → Nat
  | .primitive _ => 0
  | .ref type => type.longestRun

def TypeArg.longestRun : TypeArg → Nat
  | .any => 0
  | .upTo bound => bound.longestRun
  | .downTo bound => bound.longestRun
  | .exactly type => type.longestRun

def TypeArg.allLongestRun : List TypeArg → Nat
  | [] => 0
  | arg :: rest => max arg.longestRun (TypeArg.allLongestRun rest)

end

/-! ## Types in one part -/

mutual

def RefType.chars : RefType → List Char
  | .object name args => 'L' :: (name.toList ++ (angled (TypeArg.allChars args) ++ [';']))
  | .var name => 'T' :: (name.toList ++ [';'])
  | .array element => '[' :: element.chars

def SigType.chars : SigType → List Char
  | .primitive p => [p.code]
  | .ref type => type.chars

def TypeArg.chars : TypeArg → List Char
  | .any => ['*']
  | .upTo bound => '+' :: bound.chars
  | .downTo bound => '-' :: bound.chars
  | .exactly type => type.chars

def TypeArg.allChars : List TypeArg → List Char
  | [] => []
  | arg :: rest => arg.chars ++ TypeArg.allChars rest

end

def RefType.text (t : RefType) : String := String.ofList t.chars

/-! ## Lists of forms -/

theorem ArgForm.allChars_eq_flatMap (args : List ArgForm) :
    allChars args = args.flatMap chars := by
  induction args with
  | nil => rfl
  | cons arg args ih => rw [allChars, ih, List.flatMap_cons]

theorem ArgForm.allTrees_eq_map (args : List ArgForm) : allTrees args = args.map tree := by
  induction args with
  | nil => rfl
  | cons arg args ih => rw [allTrees, ih, List.map_cons]

theorem InnerForm.allChars_eq_flatMap (parts : List InnerForm) :
    allChars parts = parts.flatMap chars := by
  induction parts with
  | nil => rfl
  | cons part parts ih => rw [allChars, ih, List.flatMap_cons]

theorem InnerForm.allArgs_eq_flatMap (parts : List InnerForm) :
    allArgs parts = parts.flatMap argTrees := by
  induction parts with
  | nil => rfl
  | cons part parts ih => rw [allArgs, ih, List.flatMap_cons]

/-! ## First characters -/

/-- There is a first character, and it is one of `starts`. -/
def StartsIn (starts cs : List Char) : Prop := ∃ first ∈ starts, ∃ others, cs = first :: others

namespace StartsIn

variable {starts starts' cs : List Char}

theorem cons {c : Char} (hc : c ∈ starts) : StartsIn starts (c :: cs) := ⟨c, hc, cs, rfl⟩

theorem mono (h : StartsIn starts cs) (hsub : starts ⊆ starts') : StartsIn starts' cs := by
  obtain ⟨first, hfirst, others, rfl⟩ := h
  exact cons (hsub hfirst)

theorem append (h : StartsIn starts cs) (rest : List Char) : StartsIn starts (cs ++ rest) := by
  obtain ⟨first, hfirst, others, rfl⟩ := h
  exact cons hfirst

theorem ne_nil (h : StartsIn starts cs) : cs ≠ [] := by
  obtain ⟨first, -, others, rfl⟩ := h
  exact List.cons_ne_nil first others

theorem mem_of_head? (h : StartsIn starts cs) {c : Char} (hc : c ∈ cs.head?) : c ∈ starts := by
  obtain ⟨first, hfirst, others, rfl⟩ := h
  cases hc
  exact hfirst

theorem ne_cons (h : StartsIn starts cs) {c : Char} (hc : c ∉ starts) (others : List Char) :
    cs ≠ c :: others := by
  rintro rfl
  exact hc (h.mem_of_head? rfl)

end StartsIn

theorem angled_of_ne_nil {cs : List Char} (h : cs ≠ []) : angled cs = '<' :: (cs ++ ['>']) := by
  cases cs with
  | nil => exact absurd rfl h
  | cons c cs => rfl

theorem RefForm.startsIn_chars (d : RefForm) : StartsIn ['L', 'T', '['] d.chars := by
  cases d with
  | object path args inner => exact .cons (by decide)
  | var name => exact .cons (by decide)
  | array element => exact .cons (by decide)

theorem SigForm.startsIn_chars (d : SigForm) :
    StartsIn ['L', 'T', '[', 'B', 'C', 'D', 'F', 'I', 'J', 'S', 'Z'] d.chars := by
  cases d with
  | primitive p => exact .cons (by cases p <;> decide)
  | ref type => exact type.startsIn_chars.mono (by decide)

theorem ArgForm.startsIn_chars (a : ArgForm) :
    StartsIn ['*', '+', '-', 'L', 'T', '['] a.chars := by
  cases a with
  | any => exact .cons (by decide)
  | upTo bound => exact .cons (by decide)
  | downTo bound => exact .cons (by decide)
  | exactly type => exact type.startsIn_chars.mono (by decide)

/-- The first character tells which kind of reference type a form is. -/
theorem RefForm.kind_of_cons {d : RefForm} {first : Char} {others rest : List Char}
    (h : first :: others = d.chars ++ rest) :
    (first = 'L' → ∃ e : ClassForm, d = e.toRef) ∧ (first = 'T' → ∃ name, d = .var name) ∧
      (first = '[' → ∃ element, d = .array element) := by
  cases d with
  | object path args inner =>
    cases h
    exact ⟨fun _ => ⟨⟨path, args, inner⟩, rfl⟩, by simp, by simp⟩
  | var name =>
    cases h
    exact ⟨by simp, fun _ => ⟨name, rfl⟩, by simp⟩
  | array element =>
    cases h
    exact ⟨by simp, by simp, fun _ => ⟨element, rfl⟩⟩

/-- What starts like a reference type is one. -/
theorem SigForm.exists_eq_ref {d : SigForm} {first : Char} {others rest : List Char}
    (h : first :: others = d.chars ++ rest) (hfirst : first ∈ ['L', 'T', '[']) :
    ∃ e, d = .ref e := by
  cases d with
  | primitive p =>
    obtain ⟨rfl, -⟩ := List.cons.inj h
    exact absurd hfirst (by cases p <;> decide)
  | ref e => exact ⟨e, rfl⟩

/-- The first character tells which kind of argument a form is. -/
theorem ArgForm.kind_of_cons {a : ArgForm} {first : Char} {others rest : List Char}
    (h : first :: others = a.chars ++ rest) :
    (first = '*' → a = .any) ∧ (first = '+' → ∃ d, a = .upTo d) ∧
      (first = '-' → ∃ d, a = .downTo d) := by
  cases a with
  | any =>
    cases h
    exact ⟨fun _ => rfl, by simp, by simp⟩
  | upTo bound =>
    cases h
    exact ⟨by simp, fun _ => ⟨bound, rfl⟩, by simp⟩
  | downTo bound =>
    cases h
    exact ⟨by simp, by simp, fun _ => ⟨bound, rfl⟩⟩
  | exactly type =>
    have hfirst : first ∈ ['L', 'T', '['] :=
      (type.startsIn_chars.append rest).mem_of_head? (congrArg List.head? h.symm)
    grind

theorem ArgForm.allChars_eq_nil_iff {args : List ArgForm} : allChars args = [] ↔ args = [] := by
  cases args with
  | nil => simp [allChars]
  | cons arg args => simp [allChars, arg.startsIn_chars.ne_nil]

/-- After the type arguments of a part of a class type comes another part or the end. -/
theorem InnerForm.startsIn_allChars (parts : List InnerForm) (r : List Char) :
    StartsIn ['.', ';'] (allChars parts ++ ';' :: r) := by
  cases parts with
  | nil => exact .cons (by decide)
  | cons part parts =>
    obtain ⟨name, args⟩ := part
    exact .cons (by decide)

theorem ArgForm.startsIn_angled (args : List ArgForm) {r : List Char} (hr : StartsIn ['.', ';'] r) :
    StartsIn ['<', '.', ';'] (angled (allChars args) ++ r) := by
  by_cases hargs : args = []
  · subst hargs
    exact hr.mono (by decide)
  · rw [angled_of_ne_nil (mt allChars_eq_nil_iff.1 hargs)]
    exact .cons (by decide)

/-! ## Forms in one part -/

theorem ArgForm.allChars_append (args args' : List ArgForm) :
    allChars (args ++ args') = allChars args ++ allChars args' := by
  simp only [allChars_eq_flatMap, List.flatMap_append]

theorem ArgForm.allTrees_append (args args' : List ArgForm) :
    allTrees (args ++ args') = allTrees args ++ allTrees args' := by
  simp only [allTrees_eq_map, List.map_append]

theorem TypeArg.allChars_append (args args' : List TypeArg) :
    allChars (args ++ args') = allChars args ++ allChars args' := by
  induction args with
  | nil => rfl
  | cons arg args ih => rw [List.cons_append, allChars, allChars, ih, List.append_assoc]

/-- The joined name of a class can be the path of another one. -/
theorem IsPath.append_flatMap {path : List Char} (hpath : IsPath path) (inner : List InnerForm) :
    IsPath (path ++ inner.flatMap fun part => '$' :: part.name.val) := by
  obtain ⟨hne, hstops, hlast⟩ := hpath
  refine ⟨by simp [hne], ?_, ?_⟩
  · intro c hc
    rcases List.mem_append.1 hc with hc | hc
    · exact hstops c hc
    · obtain ⟨part, -, hc⟩ := List.mem_flatMap.1 hc
      rcases List.mem_cons.1 hc with rfl | hc
      · decide
      · have hident := part.name.2.2 c hc
        grind
  · rcases List.eq_nil_or_concat inner with rfl | ⟨front, part, rfl⟩
    · simpa using hlast
    · intro hslash
      have hlast : part.name.val.getLast?.getD '$' = '/' := by
        simpa [List.getLast?_append, List.getLast?_cons] using hslash
      cases hname : part.name.val.getLast? with
      | none => simp [hname] at hlast
      | some c =>
        rw [hname, Option.getD_some] at hlast
        exact part.name.2.2 c (List.mem_of_getLast? hname) (by rw [hlast]; decide)

mutual

/-- The type of a form has a form in one part, with the written form of the type. -/
theorem RefForm.exists_onePart : (d : RefForm) →
    ∃ e : RefForm, e.chars = d.tree.chars ∧ e.tree = d.tree
  | .object path args inner => by
    obtain ⟨args', hargs, hargs'⟩ := ArgForm.exists_allOnePart args
    obtain ⟨inner', hinner, hinner'⟩ := InnerForm.exists_allOnePart inner
    refine ⟨.object ⟨_, path.2.append_flatMap inner⟩ (args' ++ inner') [], ?_, ?_⟩
    · simp only [RefForm.chars, RefForm.tree, RefType.chars, ArgForm.allChars_append, hargs, hinner,
        TypeArg.allChars_append, joinedName, String.toList_ofList, InnerForm.allChars,
        List.nil_append]
    · simp only [RefForm.tree, ArgForm.allTrees_append, hargs', hinner', joinedName,
        InnerForm.allArgs, List.flatMap_nil, List.append_nil]
  | .var name => ⟨.var name, by simp [RefForm.chars, RefForm.tree, RefType.chars], rfl⟩
  | .array element => by
    obtain ⟨element', hchars, htree⟩ := element.exists_onePart
    exact ⟨.array element', by rw [RefForm.chars, hchars]; rfl, by rw [RefForm.tree, htree]; rfl⟩

theorem SigForm.exists_onePart : (d : SigForm) →
    ∃ e : SigForm, e.chars = d.tree.chars ∧ e.tree = d.tree
  | .primitive p => ⟨.primitive p, rfl, rfl⟩
  | .ref type => by
    obtain ⟨type', hchars, htree⟩ := type.exists_onePart
    exact ⟨.ref type', hchars, by rw [SigForm.tree, htree]; rfl⟩

theorem ArgForm.exists_onePart : (a : ArgForm) →
    ∃ b : ArgForm, b.chars = a.tree.chars ∧ b.tree = a.tree
  | .any => ⟨.any, rfl, rfl⟩
  | .upTo bound => by
    obtain ⟨bound', hchars, htree⟩ := bound.exists_onePart
    exact ⟨.upTo bound', by rw [ArgForm.chars, hchars]; rfl, by rw [ArgForm.tree, htree]; rfl⟩
  | .downTo bound => by
    obtain ⟨bound', hchars, htree⟩ := bound.exists_onePart
    exact ⟨.downTo bound', by rw [ArgForm.chars, hchars]; rfl, by rw [ArgForm.tree, htree]; rfl⟩
  | .exactly type => by
    obtain ⟨type', hchars, htree⟩ := type.exists_onePart
    exact ⟨.exactly type', hchars, by rw [ArgForm.tree, htree]; rfl⟩

theorem ArgForm.exists_allOnePart : (l : List ArgForm) → ∃ m : List ArgForm,
    ArgForm.allChars m = TypeArg.allChars (ArgForm.allTrees l) ∧
      ArgForm.allTrees m = ArgForm.allTrees l
  | [] => ⟨[], rfl, rfl⟩
  | a :: l => by
    obtain ⟨b, hchars, htree⟩ := a.exists_onePart
    obtain ⟨m, hchars', htree'⟩ := ArgForm.exists_allOnePart l
    exact ⟨b :: m, by rw [ArgForm.allChars, hchars, hchars']; rfl,
      by rw [ArgForm.allTrees, htree, htree']; rfl⟩

theorem InnerForm.exists_allOnePart : (l : List InnerForm) → ∃ m : List ArgForm,
    ArgForm.allChars m = TypeArg.allChars (InnerForm.allArgs l) ∧
      ArgForm.allTrees m = InnerForm.allArgs l
  | [] => ⟨[], rfl, rfl⟩
  | .mk name args :: l => by
    obtain ⟨args', hchars, htree⟩ := ArgForm.exists_allOnePart args
    obtain ⟨m, hchars', htree'⟩ := InnerForm.exists_allOnePart l
    refine ⟨args' ++ m, ?_, ?_⟩
    · rw [ArgForm.allChars_append, hchars, hchars', InnerForm.allArgs, TypeArg.allChars_append]
      rfl
    · rw [ArgForm.allTrees_append, htree, htree']
      rfl

end

end ClassAtlas
