import ClassAtlas.Analysis.Failure
import ClassAtlas.Proofs.ClassFile.Survey

/-!
# Attributes that are not interpreted

Of an attribute that it does not interpret the decoder keeps the name and the length, and it passes
over the body. Whatever stands in such a body, on the class, on a member or inside code, the file is
decoded to the same unit, from which the same references are extracted.

## Main definitions

* `Survey.Covers` says that a decoder gives the same value whatever stands in the bodies that a
  survey finds, and that these are the bodies of the attributes that the value keeps by their names.

## Main statements

* `CompiledUnit.decode_sameOutside`: all the bodies of a file can be replaced at once.
* `CompiledUnit.decode_overwrite`: each of them can be replaced by any bytes of its length.
-/

namespace ClassAtlas

open Decoder

/-! ## What a survey covers -/

namespace Survey

variable {α β : Type} {s t : Survey} {d : Decoder α} {R : α → List AttributeBody → Prop}

/-- Where the decoder gives a value, the survey finds bodies that are related to it, and the decoder
settles on what it passed over, whatever stands in them. -/
def Covers (s : Survey) (d : Decoder α) (R : α → List AttributeBody → Prop) : Prop :=
  ∀ base consumed bytes a r, d ⟨base, consumed, bytes⟩ = .ok (a, r) →
    ∃ used rest bodies, bytes = used ++ rest ∧ r = ⟨base, consumed + used.length, rest⟩ ∧
      s ⟨base, consumed, bytes⟩ = .ok (bodies, r) ∧
      d.SettlesOutside base consumed used (bodies.map AttributeBody.span) a ∧ R a bodies

theorem Covers.imp {Q : α → List AttributeBody → Prop} (h : s.Covers d R)
    (hRQ : ∀ a bodies, R a bodies → Q a bodies) : s.Covers d Q := by
  intro base consumed bytes a r hrun
  obtain ⟨used, rest, bodies, hbytes, hr, hs, hsettles, hR⟩ := h base consumed bytes a r hrun
  exact ⟨used, rest, bodies, hbytes, hr, hs, hsettles, hRQ a bodies hR⟩

/-- Nothing is passed over. -/
theorem covers_pure (a : α) : Covers (pure []) (pure a) fun b bodies => b = a ∧ bodies = [] := by
  intro base consumed bytes b r hrun
  cases hrun
  refine ⟨[], bytes, [], rfl, rfl, rfl, ?_, rfl, rfl⟩
  exact ((local_pure a).settles rfl).outside_nil

/-- A first step that both take, and in which there are no bodies. -/
theorem covers_bind {f : α → Survey} {g : α → Decoder β} {Q : β → List AttributeBody → Prop}
    (hd : d.Local) (h : ∀ a, (f a).Covers (g a) Q) : Covers (d >>= f) (d >>= g) Q := by
  intro base consumed bytes b r hrun
  obtain ⟨a, m, ha, hb⟩ := stateBind_eq_ok_iff.1 hrun
  obtain ⟨first, rest', rfl, rfl, hfirst⟩ := hd.exists_of_run ha
  obtain ⟨second, rest, bodies, rfl, rfl, hs, hsecond, hQ⟩ := h a _ _ _ b r hb
  refine ⟨first ++ second, rest, bodies, (List.append_assoc ..).symm, ?_, ?_,
    hfirst.outside_nil.bind hsecond, hQ⟩
  · rw [List.length_append, Nat.add_assoc]
  · exact stateBind_eq_ok_iff.2 ⟨a, _, ha, hs⟩

/-- A first step of the decoder that looks at no byte. -/
theorem covers_position {f : Nat → Decoder α} (h : ∀ n, s.Covers (f n) R) :
    s.Covers (position >>= f) R := covers_bind (f := fun _ => s) local_position h

/-- One part after the other. -/
theorem Covers.append {g : α → Decoder β} {Q : β → List AttributeBody → Prop} (hd : s.Covers d R)
    (hg : ∀ a bodies, R a bodies → t.Covers (g a) fun b more => Q b (bodies ++ more)) :
    (s.append t).Covers (d >>= g) Q := by
  intro base consumed bytes b r hrun
  obtain ⟨a, m, ha, hb⟩ := stateBind_eq_ok_iff.1 hrun
  obtain ⟨first, _, bodies, rfl, rfl, hs, hfirst, hR⟩ := hd _ _ _ a m ha
  obtain ⟨second, rest, more, rfl, rfl, ht, hsecond, hQ⟩ := hg a bodies hR _ _ _ b r hb
  refine ⟨first ++ second, rest, bodies ++ more, (List.append_assoc ..).symm, ?_, ?_, ?_, hQ⟩
  · rw [List.length_append, Nat.add_assoc]
  · exact stateBind_eq_ok_iff.2 ⟨bodies, _, hs, stateBind_eq_ok_iff.2 ⟨more, _, ht, rfl⟩⟩
  · rw [List.map_append]
    exact hfirst.bind hsecond

/-- The value is used to compute another one. -/
theorem Covers.map {Q : β → List AttributeBody → Prop} (h : s.Covers d R) (f : α → β)
    (hRQ : ∀ a bodies, R a bodies → Q (f a) bodies) :
    s.Covers (d >>= fun a => pure (f a)) Q := by
  intro base consumed bytes b r hrun
  obtain ⟨a, m, ha, hpure⟩ := stateBind_eq_ok_iff.1 hrun
  cases hpure
  obtain ⟨used, rest, bodies, rfl, rfl, hs, hsettles, hR⟩ := h _ _ _ a _ ha
  exact ⟨used, rest, bodies, rfl, rfl, hs, hsettles.map f, hRQ a bodies hR⟩

/-! ## Lists -/

/-- The bodies are those of the attributes that are kept. -/
def Keeps (others : α → List (String × UInt32)) (a : α) (bodies : List AttributeBody) : Prop :=
  bodies.map AttributeBody.header = others a

variable {others : α → List (String × UInt32)}

theorem covers_without (hd : Bare others d) : (without d).Covers d (Keeps others) := by
  intro base consumed bytes a r hrun
  obtain ⟨used, rest, hbytes, hr, hused⟩ := hd.isLocal.exists_of_run hrun
  exact ⟨used, rest, [], hbytes, hr, stateBind_eq_ok_iff.2 ⟨a, r, hrun, rfl⟩, hused.outside_nil,
    (hd.others_eq_nil _ a r hrun).symm⟩

theorem rel_without {content? : Option (Decoder α)} (h : ∀ d ∈ content?, Bare others d) :
    Option.Rel (·.Covers · (Keeps others)) (content?.map without) content? := by
  cases content? with
  | none => exact .none
  | some d => exact .some (covers_without (h d rfl))

theorem Covers.repeated (h : s.Covers d (Keeps others)) (n : Nat) :
    (s.repeated n).Covers (replicate d n) (Keeps (·.flatMap others)) := by
  induction n with
  | zero => exact (covers_pure []).imp fun _ _ ⟨h, h'⟩ => by simp [Keeps, h, h']
  | succ n ih =>
    refine h.append fun a bodies ha => ih.map (a :: ·) fun as more has => ?_
    rw [Keeps, List.map_append, ha, has, List.flatMap_cons]

theorem Covers.all (h : s.Covers d (Keeps others)) :
    s.all.Covers (counted d) (Keeps (·.flatMap others)) :=
  covers_bind local_uint16 fun n => h.repeated n.toNat

/-! ## Attributes -/

/-- A body that is not interpreted. -/
theorem covers_other (name : String) (length : UInt32) (a : α)
    (h : ∀ start, R a [⟨name, start, length⟩]) :
    Covers (do let body ← part length.toNat; return [⟨name, body.position, length⟩])
      (do let _ ← part length.toNat; return a) R := by
  intro base consumed bytes b r hrun
  obtain ⟨body, m, hpart, hpure⟩ := stateBind_eq_ok_iff.1 hrun
  cases hpure
  obtain ⟨used, rest, rfl, hlength, rfl, rfl⟩ := exists_of_part_eq_ok hpart
  refine ⟨used, rest, [⟨name, base + consumed, length⟩], rfl, rfl,
    stateBind_eq_ok_iff.2 ⟨_, _, hpart, rfl⟩, ?_, h _⟩
  have hsettles := settlesOutside_part used base consumed a
  rwa [hlength] at hsettles

/-- A body that is interpreted, to its end. -/
theorem covers_content {inner : Survey} {content : Decoder α} (h : inner.Covers content R)
    (n : Nat) (fault : Reader → FormatFault) :
    Covers (do let body ← part n; return (← within body inner).1)
      (do
        let body ← part n
        let (value, left) ← within body content
        if !left.isEmpty then
          fail (fault left)
        return value) R := by
  intro base consumed bytes b r hrun
  obtain ⟨body, m, hpart, hrun⟩ := stateBind_eq_ok_iff.1 hrun
  obtain ⟨used, rest, rfl, rfl, rfl, rfl⟩ := exists_of_part_eq_ok hpart
  obtain ⟨⟨a, left⟩, m, hwithin, hrun⟩ := stateBind_eq_ok_iff.1 hrun
  obtain ⟨hcontent, rfl⟩ := within_eq_ok_iff.1 hwithin
  obtain ⟨used, rest', bodies, rfl, rfl, hinner, hsettles, hR⟩ := h _ _ _ a left hcontent
  cases rest' with
  | cons => cases hrun
  | nil =>
    cases hrun
    rw [List.append_nil] at hpart hinner ⊢
    refine ⟨used, rest, bodies, rfl, rfl, ?_, settlesOutside_within hsettles ?_ ?_, hR⟩
    · exact stateBind_eq_ok_iff.2 ⟨_, _, hpart,
        stateBind_eq_ok_iff.2 ⟨_, _, within_eq_ok_iff.2 ⟨hinner, rfl⟩, rfl⟩⟩
    · exact fun p => local_ite (local_fail_bind _ _) (local_pure _)
    · intro r r' hr
      simp [hr]
      rfl

/-- An attribute is covered if the contents that are interpreted are. -/
theorem covers_attributeWith {pool : Pool} {content? : String → Option (Decoder α)}
    {inner? : String → Option Survey} {other : String → UInt32 → α}
    (hother : ∀ name length start, R (other name length) [⟨name, start, length⟩])
    (hcontent : ∀ name, Option.Rel (·.Covers · R) (inner? name) (content? name)) :
    (ofAttribute pool inner?).Covers (attributeWith pool content? other) R := by
  refine covers_bind local_uint16 fun _ => covers_bind (local_ofExcept _) fun name =>
    covers_bind local_uint32 fun length => ?_
  have h := hcontent name
  generalize inner? name = inner at h
  generalize content? name = content at h
  cases h with
  | none => exact covers_other name length _ (hother name length)
  | some h =>
    exact covers_content h length.toNat fun left =>
      .attributeTooLong name length left.remaining left.position

end Survey

open Survey

/-! ## Class files -/

theorem CodeDetail.covers_survey (pool : Pool) :
    (survey pool).Covers (attributeWith pool content? .other) (Keeps others) :=
  covers_attributeWith (fun _ _ _ => rfl) fun _ => rel_without fun _ => bare_content?

theorem Code.covers_survey (pool : Pool) :
    (survey pool).Covers (decode pool) (Keeps (·.details.flatMap CodeDetail.others)) :=
  covers_bind local_uint16 fun _ => covers_bind local_uint16 fun _ =>
    covers_bind local_uint32 fun _ => covers_position fun _ => covers_bind (local_take _) fun _ =>
      covers_bind (local_counted Handler.local_decode) fun _ =>
        (CodeDetail.covers_survey pool).all.map _ fun _ _ h => h

namespace Attribute

theorem covers_inner? (pool : Pool) (place : Place) (name : String) :
    Option.Rel (·.Covers · (Keeps others)) (inner? pool place name) (content? pool place name) := by
  rw [inner?]
  split
  · next hcode =>
    obtain ⟨rfl, rfl⟩ := hcode
    exact .some ((Code.covers_survey pool).map _ fun _ _ h => h)
  · next hcode => exact rel_without fun d hd => bare_content? hcode hd

theorem covers_survey (pool : Pool) (place : Place) :
    (survey pool place).Covers (attributeWith pool (content? pool place) .other) (Keeps others) :=
  covers_attributeWith (fun _ _ _ => rfl) (covers_inner? pool place)

end Attribute

theorem Member.covers_survey (pool : Pool) (place : Place) :
    (survey pool place).Covers (decode pool place) (Keeps others) :=
  covers_bind local_uint16 fun _ => covers_bind local_uint16 fun _ =>
    covers_bind (local_ofExcept _) fun _ => covers_bind local_uint16 fun _ =>
      covers_bind (local_ofExcept _) fun _ =>
        (Attribute.covers_survey pool place).all.map _ fun _ _ h => h

theorem ClassFile.covers_survey (pool : Pool) :
    (survey pool).Covers (decoder pool) (Keeps fun c => c.fields.flatMap Member.others ++
      (c.methods.flatMap Member.others ++ c.attributes.flatMap Attribute.others)) := by
  refine covers_bind local_uint16 fun _ => covers_bind (local_classRef pool) fun _ =>
    covers_bind (local_superclassRef pool) fun _ =>
      covers_bind (local_counted (local_classRef pool)) fun _ => ?_
  refine (Member.covers_survey pool .onField).all.append fun fields bodies hfields => ?_
  refine (Member.covers_survey pool .onMethod).all.append fun methods bodies' hmethods => ?_
  refine (Attribute.covers_survey pool .onClass).all.map _ fun attributes bodies'' hown => ?_
  rw [Keeps, List.map_append, List.map_append, hfields, hmethods, hown]

namespace CompiledUnit

variable {bytes : List UInt8} {u : CompiledUnit}

/-- All the bodies that are not interpreted can be replaced at once. -/
theorem decode_sameOutside (h : decode bytes = .ok u) :
    ∃ bodies, CompiledUnit.bodies bytes = .ok bodies ∧ bodies.map AttributeBody.header = u.others ∧
      (∀ b ∈ bodies, b.StandsIn u.pool 0 bytes) ∧
      ∀ bytes', SameOutside (bodies.map AttributeBody.span) 0 bytes bytes' →
        decode bytes' = .ok u := by
  obtain ⟨header, hheader, -⟩ := exists_of_bind_eq_ok h
  obtain ⟨first, second, rfl, hfirst⟩ := PoolHeader.exists_settles_of_decode hheader
  rw [decode_append hfirst] at h
  obtain ⟨file, hfile, rfl⟩ := exists_of_map_eq_ok h
  obtain ⟨⟨file, r⟩, hrun, rfl⟩ := exists_of_map_eq_ok hfile
  obtain ⟨used, rest, bodies, rfl, -, hsurvey, hsettles, hkeeps⟩ :=
    ClassFile.covers_survey header.pool first.length 0 second file r hrun
  have hinside := hsettles.inside
  rw [Nat.add_zero] at hinside
  obtain ⟨hheader, hoffset⟩ := PoolHeader.decode_append hfirst (used ++ rest)
  refine ⟨bodies, ?_, hkeeps, fun b hb => ?_, fun bytes' hsame => ?_⟩
  · rw [CompiledUnit.bodies, bind_eq_of_ok hheader, hoffset, List.drop_left]
    exact run'_ofBytes hsurvey
  · obtain ⟨passed, behind, hpassed, -, hstands⟩ :=
      ClassFile.finds_survey header.pool _ _ _ _ _ hsurvey
    rw [hpassed]
    refine AttributeBody.StandsIn.append_left ?_
    rw [Nat.zero_add]
    exact (hstands b hb).append_right behind
  · rw [← Nat.zero_add first.length] at hinside
    obtain ⟨used', rfl, hused⟩ := hsame.exists_middle hinside
    rw [Nat.zero_add] at hused
    rw [decode_append hfirst, (hsettles.settles used' hused).run' rest]
    rfl

/-- The body of an attribute that is kept by its name can be replaced by any bytes of its length: the
file is decoded to the same unit, and the same references are extracted. -/
theorem decode_overwrite (h : decode bytes = .ok u) :
    ∃ bodies, CompiledUnit.bodies bytes = .ok bodies ∧ bodies.map AttributeBody.header = u.others ∧
      ∀ b ∈ bodies, b.StandsIn u.pool 0 bytes ∧
        ∀ content : List UInt8, content.length = b.length.toNat →
          let bytes' := overwrite bytes b.start content
          decode bytes' = .ok u ∧ ∀ config name cache,
            processUnit config name bytes' cache = processUnit config name bytes cache := by
  obtain ⟨bodies, hbodies, hothers, hstands, hsame⟩ := decode_sameOutside h
  refine ⟨bodies, hbodies, hothers, fun b hb => ⟨hstands b hb, fun content hcontent => ?_⟩⟩
  have hinside : b.start + b.length.toNat ≤ bytes.length := by
    simpa only [Nat.zero_add] using (hstands b hb).end_le
  have hdecode : decode (overwrite bytes b.start content) = .ok u :=
    hsame _ (.overwrite (List.mem_map_of_mem hb) hinside hcontent)
  refine ⟨hdecode, fun config name cache => ?_⟩
  rw [processUnit, processUnit, hdecode, h]

/-- An attribute `X` of the class, and one of the code of its method. -/
def nestedBodies : List UInt8 :=
  [0xCA, 0xFE, 0xBA, 0xBE, 0, 0, 0, 45, 0, 7, 1, 0, 1, 65, 7, 0, 1, 1, 0, 4, 67, 111, 100, 101,
    1, 0, 1, 88, 1, 0, 1, 109, 1, 0, 3, 40, 41, 86, 0, 0, 0, 2, 0, 0, 0, 0, 0, 0, 0, 1, 0, 0, 0, 5,
    0, 6, 0, 1, 0, 3, 0, 0, 0, 20, 0, 0, 0, 0, 0, 0, 0, 1, 0xB1, 0, 0, 0, 1, 0, 4, 0, 0, 0, 1, 9,
    0, 1, 0, 4, 0, 0, 0, 2, 7, 8]

theorem decode_overwrite_nestedBodies : ∃ u, decode nestedBodies = .ok u ∧
    CompiledUnit.bodies nestedBodies = .ok [⟨"X", 83, 1⟩, ⟨"X", 92, 2⟩] ∧
    ∃ bodies, CompiledUnit.bodies nestedBodies = .ok bodies ∧
      bodies.map AttributeBody.header = u.others ∧
      ∀ b ∈ bodies, b.StandsIn u.pool 0 nestedBodies ∧
        ∀ content : List UInt8, content.length = b.length.toNat →
          let bytes' := overwrite nestedBodies b.start content
          decode bytes' = .ok u ∧ ∀ config name cache,
            processUnit config name bytes' cache = processUnit config name nestedBodies cache := by
  obtain ⟨u, hu⟩ := exists_of_isOk (x := decode nestedBodies) (by decide +kernel)
  exact ⟨u, hu, by decide +kernel, decode_overwrite hu⟩

end CompiledUnit

end ClassAtlas
