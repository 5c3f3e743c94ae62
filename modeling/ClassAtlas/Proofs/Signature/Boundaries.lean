import ClassAtlas.Proofs.Descriptor.Boundaries
import ClassAtlas.Signature.Parser

/-!
# Generic signatures read by their bytes

The readers of signatures as they go through the bytes of a text, and what holds for all readers of
type texts: read by their bytes they never crash, and where they reject a text they do so at a position
between two characters.

## Main statements

* `ByteScan.follows_refTypeWith`, `ByteScan.follows_nestedArgs`: the readers of types, by induction on
  the levels of nesting that are left.
* `positions_between_characters`: the readers of whole texts.
-/

namespace ClassAtlas

namespace ByteScan

/-! ## The readers -/

/-- A non-empty identifier. -/
def identifier (fault : Fault) : ByteScan (List Char) := do
  let ident ← takeUntil Scan.identStops
  if ident.isEmpty then fail fault
  return ident

/-- One type argument, given a reader of reference types. -/
def typeArg (ref : ByteScan RefType) : ByteScan TypeArg := do
  let next ← peek
  if next = some '*' then
    advance
    return .any
  else if next = some '+' then
    advance
    return .upTo (← ref)
  else if next = some '-' then
    advance
    return .downTo (← ref)
  else return .exactly (← ref)

/-- The type arguments after the opening `<`, given a reader of reference types. -/
def typeArgList (ref : ByteScan RefType) : ByteScan (List TypeArg) := do
  let args ← repeatWhile Scan.moreInAngles (typeArg ref)
  expect '>' .unterminatedTypeArguments
  return args

/-- A list of type arguments or nothing; `list` reads what follows the `<`. -/
def typeArgs (list : ByteScan (List TypeArg)) : ByteScan (List TypeArg) := do
  if !(← eat '<') then return []
  if (← peek) = some '>' then fail .emptyTypeArguments
  list

/-- An inner class behind its `.`. -/
def innerPart (list : ByteScan (List TypeArg)) : ByteScan (List Char × List TypeArg) := do
  advance
  let name ← identifier .missingInnerName
  let args ← typeArgs list
  return (name, args)

/-- The parts of a class type after its first: the names of inner classes with their arguments. -/
def innerParts (list : ByteScan (List TypeArg)) : ByteScan (List (List Char × List TypeArg)) :=
  repeatWhile (· == some '.') (innerPart list)

/-- A class type, given a reader of lists of type arguments. -/
def classTypeWith (list : ByteScan (List TypeArg)) : ByteScan ClassType := do
  let start ← position
  expect 'L' .missingClassType
  let path ← takeUntil Scan.pathStops
  if path.isEmpty || path.getLast? == some '/' then fail .missingClassName
  let args ← typeArgs list
  let inner ← innerParts list
  if (← peek).isNone then failAt start .unterminatedClass
  expect ';' .unclosedClassType
  return ⟨String.ofList (path ++ inner.flatMap fun part => '$' :: part.1),
    args ++ inner.flatMap (·.2)⟩

/-- A type variable. -/
def typeVariable : ByteScan RefType := do
  advance
  let name ← identifier .missingTypeVariableName
  expect ';' .unterminatedTypeVariable
  return .var (String.ofList name)

/-- A type that is no array, given a reader of lists of type arguments. -/
def plainType (list : ByteScan (List TypeArg)) : ByteScan SigType := do
  match ← peek with
  | none => fail .endOfSignature
  | some code =>
    if code = 'L' then return .ref (← classTypeWith list).toRef
    else if code = 'T' then return .ref (← typeVariable)
    else if code = 'V' then fail .misplacedVoid
    else
      match Primitive.ofCode? code with
      | some p =>
        advance
        return .primitive p
      | none => fail (.unknownType code.toNat)

/-- A reference type, given a reader of lists of type arguments. -/
def refTypeWith (list : ByteScan (List TypeArg)) : ByteScan RefType := do
  let next ← peek
  if next = some 'L' then return (← classTypeWith list).toRef
  else if next = some 'T' then typeVariable
  else if next = some '[' then
    let dims ← dimensions
    return Scan.arrayOf (← plainType list) (dims - 1)
  else if next.isSome then fail .missingReferenceType
  else fail .endOfSignature

/-- The type arguments after the opening `<` where `n` levels of nesting are left. -/
def nestedArgs : Nat → ByteScan (List TypeArg)
  | 0 => fail .typeArgumentsTooDeep
  | n + 1 => typeArgList (refTypeWith (nestedArgs n))

/-- A reference type. -/
def refType : ByteScan RefType := refTypeWith (nestedArgs maxArgumentDepth)

/-- A class type. -/
def classType : ByteScan ClassType := classTypeWith (nestedArgs maxArgumentDepth)

/-- A primitive or reference type. -/
def sigType : ByteScan SigType := do
  if (← peek) = some '[' then return .ref (← refType)
  else plainType (nestedArgs maxArgumentDepth)

/-- A type parameter with its bounds. -/
def typeParam : ByteScan TypeParam := do
  let name ← identifier .missingTypeParameterName
  expect ':' .missingTypeParameterColon
  let classBound ← if Scan.opensRefType (← peek) then some <$> refType else pure none
  let interfaceBounds ← repeatWhile (· == some ':') (advance *> refType)
  return ⟨String.ofList name, classBound, interfaceBounds⟩

/-- A list of type parameters or nothing. -/
def typeParams : ByteScan (List TypeParam) := do
  if !(← eat '<') then return []
  let first ← typeParam
  let others ← repeatWhile Scan.moreInAngles typeParam
  expect '>' .unterminatedTypeParameters
  return first :: others

/-- A declared exception after its `^`. -/
def thrownType : ByteScan RefType := do
  advance
  let next ← peek
  if next = some 'L' ∨ next = some 'T' then refType else fail .missingThrownType

def classSignature : ByteScan ClassSignature := do
  let params ← typeParams
  let superclass ← classType
  let interfaces ← repeatWhile (·.isSome) classType
  return ⟨params, superclass, interfaces⟩

def methodSignature : ByteScan MethodSignature := do
  let typeParams ← typeParams
  expect '(' .missingParameterList
  let params ← repeatWhile Scan.moreParameters sigType
  expect ')' .unbalancedParameters
  let result ← if ← eat 'V' then pure none else some <$> sigType
  let throws ← repeatWhile (· == some '^') thrownType
  finish
  return ⟨typeParams, params, result, throws⟩

/-! ## They go through a text as the readers of characters do -/

variable {text : String} {c : Cursor} {n : Nat}

/-- An identifier has a character. -/
theorem follows_identifier (hc : c.StandsIn text) (fault : Fault) :
    FollowsAt text c (c.rest.length - 1) (identifier fault) (Scan.identifier fault) := by
  refine follows_takeUntil_bind hc (by decide) fun ident d hd hlength => ?_
  split
  · exact follows_fail_bind hd _ _ _
  · next hne =>
    have hpos : 0 < ident.length := List.length_pos_iff.2 fun hnil => hne (by rw [hnil]; rfl)
    exact follows_pure hd (by omega) ident

section Types

variable {ref : ByteScan RefType} {ref' : Scan RefType} {list : ByteScan (List TypeArg)}
  {list' : Scan (List TypeArg)}

theorem follows_typeArg
    (href : ∀ c, c.StandsIn text → FollowsAt text c (c.rest.length - 1) ref ref')
    (hc : c.StandsIn text) :
    FollowsAt text c (c.rest.length - 1) (typeArg ref) (Scan.typeArg ref') := by
  have hmap {d : Cursor} (hd : d.StandsIn text) (hle : d.rest.length ≤ c.rest.length)
      (f : RefType → TypeArg) : FollowsAt text d (c.rest.length - 1) (do return f (← ref))
        (do return f (← ref')) :=
    (href d hd).bind fun _ e he hle' => follows_pure he (by omega) _
  refine follows_peek_bind hc ?_
  simp (disch := decide) only [firstCode_eq_some_iff]
  split
  · next hnext =>
    rw [hnext]
    exact follows_advance_bind hc hnext (by decide) fun d hd _ hle => follows_pure hd hle _
  split
  · next hnext =>
    rw [hnext]
    exact follows_advance_bind hc hnext (by decide) fun d hd _ hle => hmap hd (by omega) _
  split
  · next hnext =>
    rw [hnext]
    exact follows_advance_bind hc hnext (by decide) fun d hd _ hle => hmap hd (by omega) _
  · split
    · contradiction
    · contradiction
    · contradiction
    · exact hmap hc (Nat.le_refl _) _

theorem moreInAngles_firstCode (next : Option Char) :
    Scan.moreInAngles (firstCode next) = Scan.moreInAngles next := by
  cases next with
  | none => rfl
  | some ch =>
    rw [Bool.eq_iff_iff]
    simp (disch := decide) [firstCode, Scan.moreInAngles, Text.codeOf_lead_eq_iff]

theorem firstCode_beq {a : Char} (ha : a.toNat < 128) (next : Option Char) :
    (firstCode next == some a) = (next == some a) := by
  rw [Bool.eq_iff_iff, beq_iff_eq, beq_iff_eq, firstCode_eq_some_iff ha]

theorem follows_typeArgList
    (href : ∀ c, c.StandsIn text → FollowsAt text c (c.rest.length - 1) ref ref')
    (hc : c.StandsIn text) :
    FollowsAt text c c.rest.length (typeArgList ref) (Scan.typeArgList ref') := by
  refine (follows_repeatWhile moreInAngles_firstCode rfl (fun _ hc _ => follows_typeArg href hc)
    hc).bind fun args d hd hle => ?_
  refine (follows_expect hd (by decide) _).bind fun _ e he hle' => ?_
  exact follows_pure he (by omega) args

theorem follows_typeArgs
    (hlist : ∀ c, c.StandsIn text → FollowsAt text c c.rest.length list list')
    (hc : c.StandsIn text) :
    FollowsAt text c c.rest.length (typeArgs list) (Scan.typeArgs list') := by
  refine follows_eat_bind hc (by decide) (fun d hd hle => ?_) (follows_pure hc (Nat.le_refl _) _)
  refine follows_peek_bind hd ?_
  simp (disch := decide) only [firstCode_eq_some_iff]
  split
  · exact follows_fail_bind hd _ _ _
  · exact (hlist d hd).mono (by omega)

theorem follows_innerParts
    (hlist : ∀ c, c.StandsIn text → FollowsAt text c c.rest.length list list')
    (hc : c.StandsIn text) :
    FollowsAt text c c.rest.length (innerParts list) (Scan.innerParts list') := by
  refine follows_repeatWhile (firstCode_beq (by decide)) rfl (fun d hd hdot => ?_) hc
  refine follows_advance_bind hd (beq_iff_eq.1 hdot) (by decide) fun e he _ hle => ?_
  refine (follows_identifier he _).bind fun name f hf hle' => ?_
  refine (follows_typeArgs hlist hf).bind fun args g hg hle'' => ?_
  exact follows_pure hg (by omega) _

theorem follows_classTypeWith
    (hlist : ∀ c, c.StandsIn text → FollowsAt text c c.rest.length list list')
    (hc : c.StandsIn text) :
    FollowsAt text c (c.rest.length - 1) (classTypeWith list) (Scan.classTypeWith list') := by
  refine follows_position_bind ((follows_expect hc (by decide) _).bind fun _ d hd hle => ?_)
  refine follows_takeUntil_bind hd (by decide) fun path e he hlength => ?_
  split
  · exact follows_fail_bind he _ _ _
  refine (follows_typeArgs hlist he).bind fun args f hf hle' => ?_
  refine (follows_innerParts hlist hf).bind fun inner g hg hle'' => follows_peek_bind hg ?_
  have hnone : (firstCode g.rest.head?).isNone = g.rest.head?.isNone := Option.isNone_map
  rw [hnone]
  split
  · exact follows_failAt_bind hc.isValid _ _ _
  refine (follows_expect hg (by decide) _).bind fun _ k hk hle''' => ?_
  exact follows_pure hk (by omega) _

theorem follows_typeVariable (hc : c.StandsIn text) (hnext : c.rest.head? = some 'T') :
    FollowsAt text c (c.rest.length - 1) typeVariable Scan.typeVariable := by
  refine follows_advance_bind hc hnext (by decide) fun d hd _ hle => ?_
  refine (follows_identifier hd _).bind fun name e he hle' => ?_
  refine (follows_expect he (by decide) _).bind fun _ f hf hle'' => ?_
  exact follows_pure hf (by omega) _

theorem follows_plainType
    (hlist : ∀ c, c.StandsIn text → FollowsAt text c c.rest.length list list')
    (hc : c.StandsIn text) :
    FollowsAt text c (c.rest.length - 1) (plainType list) (Scan.plainType list') := by
  refine follows_peek_bind hc ?_
  cases hnext : c.rest.head? with
  | none => exact follows_fail hc _
  | some ch =>
    simp only [firstCode, Option.map_some, Function.comp]
    by_cases hobject : ch = 'L'
    · subst hobject
      rw [Text.codeOf_lead_of_lt (by decide), if_pos rfl]
      exact (follows_classTypeWith hlist hc).bind fun type d hd hle => follows_pure hd hle _
    by_cases hvariable : ch = 'T'
    · subst hvariable
      rw [Text.codeOf_lead_of_lt (by decide)]
      exact (follows_typeVariable hc hnext).bind fun type d hd hle => follows_pure hd hle _
    by_cases hvoid : ch = 'V'
    · subst hvoid
      rw [Text.codeOf_lead_of_lt (by decide)]
      exact follows_fail hc _
    · simp (disch := decide) only [Text.codeOf_lead_eq_iff]
      simp only [hobject, hvariable, hvoid, if_false, ofCode?_codeOf_lead, Text.toNat_codeOf,
        Text.toNat_lead]
      cases hprimitive : Primitive.ofCode? ch with
      | none => exact follows_fail hc _
      | some p =>
        exact follows_advance_bind hc hnext (toNat_lt_of_ofCode? hprimitive) fun d hd _ hle =>
          follows_pure hd hle _

theorem follows_refTypeWith
    (hlist : ∀ c, c.StandsIn text → FollowsAt text c c.rest.length list list')
    (hc : c.StandsIn text) :
    FollowsAt text c (c.rest.length - 1) (refTypeWith list) (Scan.refTypeWith list') := by
  refine follows_peek_bind hc ?_
  simp (disch := decide) only [firstCode_eq_some_iff, isSome_firstCode]
  split
  · next hnext =>
    rw [hnext]
    exact (follows_classTypeWith hlist hc).bind fun type d hd hle => follows_pure hd hle _
  split
  · next hnext =>
    rw [hnext]
    exact follows_typeVariable hc hnext
  split
  · next hnext =>
    rw [hnext]
    refine (follows_dimensions hc).bind fun dims d hd hle => ?_
    refine (follows_plainType hlist hd).bind fun element e he hle' => ?_
    exact follows_pure he (by omega) _
  split
  · split
    · contradiction
    · contradiction
    · contradiction
    · exact follows_fail hc _
    · simp_all
  · next hnone =>
    rw [Option.not_isSome_iff_eq_none.1 hnone]
    exact follows_fail hc _

end Types

/-- By induction on the levels of nesting that are left. -/
theorem follows_nestedArgs (n : Nat) (hc : c.StandsIn text) :
    FollowsAt text c c.rest.length (nestedArgs n) (Scan.nestedArgs n) := by
  induction n generalizing c with
  | zero => exact follows_fail hc _
  | succ n ih =>
    exact follows_typeArgList (fun _ hc => follows_refTypeWith (fun _ hc => ih hc) hc) hc

theorem follows_refType (hc : c.StandsIn text) :
    FollowsAt text c (c.rest.length - 1) refType Scan.refType :=
  follows_refTypeWith (fun _ hc => follows_nestedArgs _ hc) hc

theorem follows_classType (hc : c.StandsIn text) :
    FollowsAt text c (c.rest.length - 1) classType Scan.classType :=
  follows_classTypeWith (fun _ hc => follows_nestedArgs _ hc) hc

theorem follows_sigType (hc : c.StandsIn text) :
    FollowsAt text c (c.rest.length - 1) sigType Scan.sigType := by
  refine follows_peek_bind hc ?_
  simp (disch := decide) only [firstCode_eq_some_iff]
  split
  · next hnext =>
    rw [hnext]
    exact (follows_refType hc).bind fun type d hd hle => follows_pure hd hle _
  · split
    · contradiction
    · exact follows_plainType (fun _ hc => follows_nestedArgs _ hc) hc

theorem opensRefType_firstCode (next : Option Char) :
    Scan.opensRefType (firstCode next) = Scan.opensRefType next := by
  cases next with
  | none => rfl
  | some ch =>
    rw [Bool.eq_iff_iff]
    simp (disch := decide) [firstCode, Scan.opensRefType, Text.codeOf_lead_eq_iff]

theorem follows_typeParam (hc : c.StandsIn text) :
    FollowsAt text c (c.rest.length - 1) typeParam Scan.typeParam := by
  refine (follows_identifier hc _).bind fun name d hd hle => ?_
  refine (follows_expect hd (by decide) _).bind fun _ e he hle' => follows_peek_bind he ?_
  rw [opensRefType_firstCode]
  have hrest (classBound : Option RefType) (f : Cursor) (hf : f.StandsIn text)
      (hle'' : f.rest.length ≤ e.rest.length) : FollowsAt text f (c.rest.length - 1)
      (do
        let bounds ← repeatWhile (· == some ':') (advance *> refType)
        return TypeParam.mk (String.ofList name) classBound bounds)
      (do
        let bounds ← Scan.repeatWhile (· == some ':') (Scan.advance *> Scan.refType)
        return TypeParam.mk (String.ofList name) classBound bounds) := by
    refine (follows_repeatWhile (firstCode_beq (by decide)) rfl (fun g hg hcolon =>
      follows_advance_bind hg (beq_iff_eq.1 hcolon) (by decide) fun k hk _ hle =>
        (follows_refType hk).mono (by omega)) hf).bind fun interfaceBounds g hg hle''' => ?_
    exact follows_pure hg (by omega) _
  split
  · exact ((follows_refType he).map some).bind fun bound f hf hle'' => hrest bound f hf (by omega)
  · exact hrest none e he (Nat.le_refl _)

theorem follows_typeParams (hc : c.StandsIn text) :
    FollowsAt text c c.rest.length typeParams Scan.typeParams := by
  refine follows_eat_bind hc (by decide) (fun d hd hle => ?_) (follows_pure hc (Nat.le_refl _) _)
  refine (follows_typeParam hd).bind fun first e he hle' => ?_
  refine (follows_repeatWhile moreInAngles_firstCode rfl (fun _ hc _ => follows_typeParam hc)
    he).bind fun others f hf hle'' => ?_
  refine (follows_expect hf (by decide) _).bind fun _ g hg hle''' => ?_
  exact follows_pure hg (by omega) _

theorem follows_thrownType (hc : c.StandsIn text) (hnext : c.rest.head? = some '^') :
    FollowsAt text c (c.rest.length - 1) thrownType Scan.thrownType := by
  refine follows_advance_bind hc hnext (by decide) fun d hd _ hle => follows_peek_bind hd ?_
  simp (disch := decide) only [firstCode_eq_some_iff]
  split
  · next hopens =>
    have href : FollowsAt text d (c.rest.length - 1) refType Scan.refType :=
      (follows_refType hd).mono (by omega)
    rcases hopens with hopens | hopens <;> rw [hopens] <;> exact href
  · next hother =>
    split
    · exact absurd (.inl ‹_›) hother
    · exact absurd (.inr ‹_›) hother
    · exact follows_fail hd _

theorem follows_classSignature (hc : c.StandsIn text) :
    FollowsAt text c c.rest.length classSignature Scan.classSignature := by
  refine (follows_typeParams hc).bind fun params d hd hle => ?_
  refine (follows_classType hd).bind fun superclass e he hle' => ?_
  refine (follows_repeatWhile isSome_firstCode rfl (fun _ hc _ => follows_classType hc) he).bind
    fun interfaces f hf hle'' => ?_
  exact follows_pure hf (by omega) _

theorem follows_methodSignature (hc : c.StandsIn text) :
    FollowsAt text c c.rest.length methodSignature Scan.methodSignature := by
  refine (follows_typeParams hc).bind fun typeParams d hd hle => ?_
  refine (follows_expect hd (by decide) _).bind fun _ e he hle' => ?_
  refine (follows_repeatWhile moreParameters_firstCode rfl (fun _ hc _ => follows_sigType hc)
    he).bind fun params f hf hle'' => ?_
  refine (follows_expect hf (by decide) _).bind fun _ g hg hle''' => ?_
  have hrest (result : Option SigType) (k : Cursor) (hk : k.StandsIn text)
      (hle : k.rest.length ≤ g.rest.length) : FollowsAt text k c.rest.length
      (do
        let throws ← repeatWhile (· == some '^') thrownType
        finish
        return MethodSignature.mk typeParams params result throws)
      (do
        let throws ← Scan.repeatWhile (· == some '^') Scan.thrownType
        Scan.finish
        return MethodSignature.mk typeParams params result throws) := by
    refine (follows_repeatWhile (firstCode_beq (by decide)) rfl (fun _ hc hmark =>
      follows_thrownType hc (beq_iff_eq.1 hmark)) hk).bind fun throws x hx hle' => ?_
    exact (follows_finish hx).bind fun _ y hy hle'' => follows_pure hy (by omega) _
  refine follows_eat_bind hg (by decide) (fun k hk hle => hrest none k hk (by omega)) ?_
  exact ((follows_sigType hg).map some).bind fun result k hk hle => hrest result k hk (by omega)

/-! ## Whole texts -/

def readFieldType (text : String) : Option (Except Malformed FieldType) := (fieldType <* finish).run text

def readMethodType (text : String) : Option (Except Malformed MethodType) :=
  (methodType <* finish).run text

def readDescriptor (text : String) : Option (Except Malformed Descriptor) :=
  if text.toList.head? = some '(' then (readMethodType text).map (.method <$> ·)
  else (readFieldType text).map (.field <$> ·)

def readResult (text : String) : Option (Except Malformed (Option FieldType)) :=
  if text = "V" then some (.ok none) else (readFieldType text).map (some <$> ·)

def readClassSignature (text : String) : Option (Except Malformed ClassSignature) :=
  classSignature.run text

def readMethodSignature (text : String) : Option (Except Malformed MethodSignature) :=
  methodSignature.run text

def readFieldSignature (text : String) : Option (Except Malformed RefType) := (refType <* finish).run text

theorem reads_fieldType (text : String) : Reads text (readFieldType text) (FieldType.parse text) :=
  FollowsAt.reads fun _ hc => ((follows_fieldType hc).mono (Nat.sub_le _ _)).finish

theorem reads_methodType (text : String) : Reads text (readMethodType text) (MethodType.parse text) :=
  FollowsAt.reads fun _ hc => (follows_methodType hc).finish

theorem reads_descriptor (text : String) : Reads text (readDescriptor text) (Descriptor.parse text) := by
  rw [readDescriptor, Descriptor.parse]
  split
  · exact (reads_methodType text).map _
  · exact (reads_fieldType text).map _

theorem reads_result (text : String) : Reads text (readResult text) (FieldType.parseResult text) := by
  rw [readResult, FieldType.parseResult]
  split
  · exact ⟨rfl, fun _ he => nomatch he⟩
  · exact (reads_fieldType text).map _

theorem reads_classSignature (text : String) :
    Reads text (readClassSignature text) (ClassSignature.parse text) :=
  FollowsAt.reads fun _ => follows_classSignature

theorem reads_methodSignature (text : String) :
    Reads text (readMethodSignature text) (MethodSignature.parse text) :=
  FollowsAt.reads fun _ => follows_methodSignature

theorem reads_fieldSignature (text : String) :
    Reads text (readFieldSignature text) (RefType.parse text) :=
  FollowsAt.reads fun _ hc => ((follows_refType hc).mono (Nat.sub_le _ _)).finish

end ByteScan

/-- Every text can be read by its bytes: all that is cut out of it begins and ends between characters,
and the position one byte back is there whenever it is used. The results are those of the readers of
characters, and every error is reported at a position between two characters of the text. -/
theorem positions_between_characters (text : String) :
    ByteScan.Reads text (ByteScan.readFieldType text) (FieldType.parse text) ∧
    ByteScan.Reads text (ByteScan.readMethodType text) (MethodType.parse text) ∧
    ByteScan.Reads text (ByteScan.readDescriptor text) (Descriptor.parse text) ∧
    ByteScan.Reads text (ByteScan.readResult text) (FieldType.parseResult text) ∧
    ByteScan.Reads text (ByteScan.readClassSignature text) (ClassSignature.parse text) ∧
    ByteScan.Reads text (ByteScan.readMethodSignature text) (MethodSignature.parse text) ∧
    ByteScan.Reads text (ByteScan.readFieldSignature text) (RefType.parse text) :=
  ⟨ByteScan.reads_fieldType text, ByteScan.reads_methodType text, ByteScan.reads_descriptor text,
    ByteScan.reads_result text, ByteScan.reads_classSignature text,
    ByteScan.reads_methodSignature text, ByteScan.reads_fieldSignature text⟩

-- A cut behind the first byte of a character crashes. A reader that passes over such a byte reports
-- the position before it.
example : (ByteScan.slice 0 1).run "é" = none := by cbv

example : ByteScan.readFieldType "[é" = some (.error ⟨"[é", 1, .unknownPrimitive 0xC3⟩) := by cbv

end ClassAtlas
