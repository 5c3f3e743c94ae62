import ClassAtlas.Descriptor.Parser
import ClassAtlas.Proofs.Descriptor.ByteScan

/-!
# Descriptors read by their bytes

The readers of descriptors as they go through the bytes of a text. They may pass over the first byte
of a character that has more, but then they reject the text at the position before it.

## Main statements

* `ByteScan.follows_fieldType`, `ByteScan.follows_methodType`: the readers of bytes do what the readers
  of characters do.
-/

namespace ClassAtlas

namespace ByteScan

/-! ## The readers -/

/-- Passes over `[` bytes and counts them. -/
def dimensions : ByteScan Nat := do
  let start ← position
  let dims ← skipWhile (· = '[')
  if maxDimensions < dims then failAt start (.tooManyDimensions dims)
  return dims

/-- The name of a class after its `L`, and the `;` that ends it. -/
def className : ByteScan String := do
  let start ← position
  let name ← takeUntil Scan.classNameStops
  let next ← peek
  if next = some ';' then
    if name.isEmpty then fail .emptyClassName
    advance
    return String.ofList name
  else if next.isSome then fail .illegalNameCharacter
  else failAt (← oneBefore start) .unterminatedClass

/-- A type that is no array. Its first byte is passed over before it is looked at. -/
def elementType : ByteScan ElementType := do
  let start ← position
  match ← peek with
  | none => fail .endOfDescriptor
  | some code =>
    advance
    if code = 'L' then return .object (← className)
    else if code = 'V' then failAt start .misplacedVoid
    else
      match Primitive.ofCode? code with
      | some p => return .primitive p
      | none => failAt start (.unknownPrimitive code.toNat)

def fieldType : ByteScan FieldType := do
  let dims ← dimensions
  let element ← elementType
  return ⟨dims, element⟩

/-- The result of a method; `V` stands for none. -/
def resultType : ByteScan (Option FieldType) := do
  if ← eat 'V' then return none
  if (← peek).isNone then fail .missingReturnType
  return some (← fieldType)

def methodType : ByteScan MethodType := do
  expect '(' .missingParameterList
  let params ← repeatWhile Scan.moreParameters fieldType
  expect ')' .unbalancedParameters
  return ⟨params, ← resultType⟩

/-! ## They go through a text as the readers of characters do -/

variable {text : String} {c : Cursor} {n : Nat}

theorem follows_dimensions (hc : c.StandsIn text) :
    FollowsAt text c c.rest.length dimensions Scan.dimensions := by
  let brackets := c.rest.takeWhile (· = '[')
  have hlength : utf8Length brackets = brackets.length := by
    refine Text.utf8Length_eq_length fun ch hch => ?_
    have hbracket : ch = '[' := by simpa using List.all_eq_true.1 List.all_takeWhile ch hch
    rw [hbracket]
    decide
  have hskip : skipWhile (· = '[') text c.position =
      .ok (brackets.length, (c.drop brackets.length).position) := by
    rw [skipWhile_apply hc (sameAbove_eq (by decide)), hlength]
  change Alike text _ (skipWhile (· = '[') text c.position >>= fun p => (do
    if maxDimensions < p.1 then failAt c.position (.tooManyDimensions p.1)
    return p.1 : ByteScan Nat) text p.2) _
  rw [hskip]
  change FollowsAt text (c.drop brackets.length) _ (if maxDimensions < brackets.length then
    failAt c.position (.tooManyDimensions brackets.length) >>= _ else _)
    (if maxDimensions < brackets.length then _ else _)
  split
  · exact follows_failAt_bind hc.isValid _ _ _
  · exact follows_pure (hc.drop _) (by simp [Cursor.drop]) _

theorem follows_className {start : Nat} (hc : c.StandsIn text) (hstart : c.position = start + 1)
    (hvalid : String.Pos.Raw.IsValid text ⟨start⟩) :
    FollowsAt text c c.rest.length className (Scan.className start) := by
  refine follows_of_position_bind (follows_takeUntil_bind hc (by decide) fun name d hd hlength =>
    follows_peek_bind hd ?_)
  simp (disch := decide) only [firstCode_eq_some_iff, isSome_firstCode]
  split
  · next hnext =>
    rw [hnext]
    change FollowsAt text d c.rest.length _ (if name.isEmpty = true then _ else _)
    split
    · exact follows_fail_bind hd _ _ _
    · exact follows_advance_bind hd hnext (by decide) fun e he _ hle =>
        follows_pure he (by omega) _
  · split
    · split
      · contradiction
      · exact follows_fail hd _
      · simp_all
    · next hnone =>
      rw [Option.not_isSome_iff_eq_none.1 hnone, hstart]
      exact follows_failAt hvalid _

theorem toNat_code_lt (p : Primitive) : p.code.toNat < 128 := by cases p <;> decide

theorem ofCode?_codeOf_lead (ch : Char) :
    Primitive.ofCode? (Text.codeOf (Text.lead ch)) = Primitive.ofCode? ch := by
  have hsame (p : Primitive) : (p.code == Text.codeOf (Text.lead ch)) = (p.code == ch) := by
    rw [Bool.eq_iff_iff, beq_iff_eq, beq_iff_eq, eq_comm, Text.codeOf_lead_eq_iff (toNat_code_lt p),
      eq_comm]
  simp only [Primitive.ofCode?, hsame]

theorem toNat_lt_of_ofCode? {ch : Char} {p : Primitive} (h : Primitive.ofCode? ch = some p) :
    ch.toNat < 128 := by
  have hcode := List.find?_some h
  rw [beq_iff_eq] at hcode
  exact hcode ▸ toNat_code_lt p

theorem follows_elementType (hc : c.StandsIn text) :
    FollowsAt text c (c.rest.length - 1) elementType Scan.elementType := by
  refine follows_position_bind (follows_peek_bind hc ?_)
  cases hnext : c.rest.head? with
  | none => exact follows_fail hc _
  | some ch =>
    simp only [firstCode, Option.map_some, Function.comp]
    by_cases hobject : ch = 'L'
    · subst hobject
      rw [Text.codeOf_lead_of_lt (by decide)]
      refine follows_advance_bind hc hnext (by decide) fun d hd hposition hle => ?_
      rw [if_pos rfl]
      refine (follows_className hd hposition hc.isValid).bind fun name e he hle' => ?_
      exact follows_pure he (by omega) _
    by_cases hvoid : ch = 'V'
    · subst hvoid
      rw [Text.codeOf_lead_of_lt (by decide)]
      exact ⟨rfl, hc.isValid⟩
    · simp (disch := decide) only [Text.codeOf_lead_eq_iff]
      simp only [hobject, hvoid, if_false, ofCode?_codeOf_lead, Text.toNat_codeOf, Text.toNat_lead]
      cases hprimitive : Primitive.ofCode? ch with
      | none => exact ⟨rfl, hc.isValid⟩
      | some p =>
        exact follows_advance_bind hc hnext (toNat_lt_of_ofCode? hprimitive) fun d hd _ hle =>
          follows_pure hd hle _

theorem follows_fieldType (hc : c.StandsIn text) :
    FollowsAt text c (c.rest.length - 1) fieldType Scan.fieldType := by
  refine (follows_dimensions hc).bind fun dims d hd hle => ?_
  refine (follows_elementType hd).bind fun element e he hle' => ?_
  exact follows_pure he (by omega) _

theorem follows_resultType (hc : c.StandsIn text) :
    FollowsAt text c c.rest.length resultType Scan.resultType := by
  refine follows_eat_bind hc (by decide) (fun d hd hle => follows_pure hd (by omega) _) ?_
  refine follows_peek_bind hc ?_
  have hnone : (firstCode c.rest.head?).isNone = c.rest.head?.isNone := Option.isNone_map
  rw [hnone]
  change FollowsAt text c _ (if c.rest.head?.isNone then _ else _) (if c.rest.head?.isNone then _ else _)
  split
  · exact follows_fail_bind hc _ _ _
  · exact (follows_fieldType hc).bind fun type d hd hle => follows_pure hd (by omega) _

theorem moreParameters_firstCode (next : Option Char) :
    Scan.moreParameters (firstCode next) = Scan.moreParameters next := by
  cases next with
  | none => rfl
  | some ch =>
    rw [Bool.eq_iff_iff]
    simp (disch := decide) [firstCode, Scan.moreParameters, Text.codeOf_lead_eq_iff]

theorem follows_methodType (hc : c.StandsIn text) :
    FollowsAt text c c.rest.length methodType Scan.methodType := by
  refine (follows_expect hc (by decide) _).bind fun _ d hd hle => ?_
  refine (follows_repeatWhile moreParameters_firstCode rfl (fun _ hc _ => follows_fieldType hc) hd).bind
    fun params e he hle' => ?_
  refine (follows_expect he (by decide) _).bind fun _ d hd hle => ?_
  refine (follows_resultType hd).bind fun result e he hle' => ?_
  exact follows_pure he (by omega) _

end ByteScan

end ClassAtlas
