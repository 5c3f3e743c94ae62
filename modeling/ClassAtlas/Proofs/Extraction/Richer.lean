import ClassAtlas.Proofs.Extraction.Counting
import ClassAtlas.Proofs.Extraction.Runs

/-!
# Richer extraction

A configuration that asks for more finds more: if a unit can be extracted under the richer of two
configurations, it can be under the other one, and nothing is counted more often there. The converse
does not hold, because what is not asked for is not read and so cannot be malformed.

The two runs are compared step by step. They go through different caches, of which it matters only
that both are sound.

## Main definitions

* `ExtractionConfig.Within` compares what configurations ask for.
* `Extract.Follows` compares two computations: the first succeeds where the second one does.

## Main statements

* `Extract.follows_unit` compares the mentions in a unit.
* `exists_within_of_extractUnit` compares the references of a unit.
-/

namespace ClassAtlas

/-- Whatever a configuration asks for, the richer one does. -/
structure ExtractionConfig.Within (config richer : ExtractionConfig) : Prop where
  signatures : config.signatures = true → richer.signatures = true
  annotationValues : config.annotationValues = true → richer.annotationValues = true
  invisible : config.invisible = true → richer.invisible = true

/-! ## Fewer mentions -/

namespace Mentions

/-- Everything is mentioned at most as often. -/
def Within (l m : Mentions) : Prop :=
  ∀ target kind, timesMentioned l target kind ≤ timesMentioned m target kind

theorem within_refl (l : Mentions) : Within l l := fun _ _ => Nat.le_refl _

theorem within_nil (l : Mentions) : Within [] l := fun _ _ => Nat.zero_le _

theorem Within.append {l l' m m' : Mentions} (h : Within l m) (h' : Within l' m') :
    Within (l ++ l') (m ++ m') := by
  intro target kind
  rw [timesMentioned_append, timesMentioned_append]
  exact Nat.add_le_add (h target kind) (h' target kind)

theorem within_flatten {l m : List Mentions} (h : List.Forall₂ Within l m) :
    Within l.flatten m.flatten := by
  induction h with
  | nil => exact within_refl []
  | cons hfirst _ ih => exact hfirst.append ih

end Mentions

namespace Tally

/-- Raising one number of a tally loses no mention. -/
theorem within_alter (tally : Tally) (link : Link) {f : Option Nat → Nat}
    (hf : ∀ n, n ≤ f (some n)) : Mentions.Within tally.toList (tally.alter link f).toList := by
  intro target kind
  obtain ⟨entries, hsorted⟩ := tally
  change timesMentioned entries target kind ≤
    timesMentioned (SortedMap.alterEntries link f entries) target kind
  clear hsorted
  induction entries with
  | nil => exact Nat.zero_le _
  | cons e entries ih =>
    simp only [timesMentioned] at ih ⊢
    rw [SortedMap.alterEntries]
    split
    · exact Nat.le_add_left _ _
    · simp only [sumOf_cons]
      have := hf e.2
      split <;> omega
    · simp only [sumOf_cons]
      omega

/-- A second view of a declaration loses no mention. -/
theorem within_mergeMax (tally other : Tally) :
    Mentions.Within tally.toList (tally.mergeMax other).toList := by
  unfold mergeMax
  induction other.toList generalizing tally with
  | nil => exact Mentions.within_refl _
  | cons e rest ih =>
    intro target kind
    have hfirst := within_alter tally e.1 (f := fun old => max (old.getD 0) e.2)
      (fun n => Nat.le_max_left n e.2) target kind
    exact Nat.le_trans hfirst (ih _ target kind)

end Tally

/-! ## Two runs -/

namespace Extract

variable {α β γ δ : Type}

/-- Under sound caches, the first computation succeeds where the second one does, with a related
result, and both leave their caches sound. -/
def Follows (R : α → β → Prop) (x : Extract α) (y : Extract β) : Prop :=
  ∀ cache cache' b after', cache.Sound → cache'.Sound → y.run.run cache' = (.ok b, after') →
    ∃ a after, x.run.run cache = (.ok a, after) ∧ R a b ∧ after.Sound ∧ after'.Sound

/-- A computation that does not depend on the cache follows itself. -/
theorem Transparent.follows {x : Extract α} (h : x.Transparent) : Follows (· = ·) x x := by
  obtain ⟨r, hr⟩ := h
  intro cache cache' b after' hc hc' hrun
  obtain ⟨hresult', hsound'⟩ := hr cache' hc'
  rw [hrun] at hresult' hsound'
  obtain ⟨hresult, hsound⟩ := hr cache hc
  rcases hx : x.run.run cache with ⟨result, after⟩
  rw [hx, ← hresult'] at hresult
  rw [hx] at hsound
  cases hresult
  exact ⟨b, after, rfl, rfl, hsound, hsound'⟩

theorem follows_pure {R : α → β → Prop} {a : α} {b : β} (h : R a b) :
    Follows R (pure a) (pure b) := by
  intro cache cache' b' after' hc hc' hrun
  cases hrun
  exact ⟨a, cache, rfl, h, hc, hc'⟩

/-- A value that is related to every result follows whatever does not depend on the cache. -/
theorem Transparent.follows_pure {x : Extract β} (hx : x.Transparent) {R : α → β → Prop} {a : α}
    (h : ∀ b, R a b) : Follows R (pure a) x := by
  obtain ⟨r, hr⟩ := hx
  intro cache cache' b after' hc hc' hrun
  have hsound := (hr cache' hc').2
  rw [hrun] at hsound
  exact ⟨a, cache, rfl, h b, hc, hsound⟩

theorem Follows.bind {x : Extract α} {y : Extract β} {f : α → Extract γ} {g : β → Extract δ}
    {R : α → β → Prop} {S : γ → δ → Prop} (hx : Follows R x y)
    (hf : ∀ a b, R a b → Follows S (f a) (g b)) : Follows S (x >>= f) (y >>= g) := by
  intro cache cache' d after' hc hc' hrun
  rw [ExceptT.run_bind, StateT.run_bind] at hrun ⊢
  rcases hy : y.run.run cache' with ⟨e | b, mid'⟩
  · rw [hy] at hrun
    cases hrun
  · rw [hy] at hrun
    obtain ⟨a, mid, ha, hab, hmid, hmid'⟩ := hx cache cache' b mid' hc hc' hy
    rw [ha]
    exact hf a b hab mid mid' d after' hmid hmid' hrun

/-- A first step that both computations share. -/
theorem Transparent.bind_follows {x : Extract α} (hx : x.Transparent) {f : α → Extract γ}
    {g : α → Extract δ} {S : γ → δ → Prop} (hf : ∀ a, Follows S (f a) (g a)) :
    Follows S (x >>= f) (x >>= g) := by
  refine hx.follows.bind fun a b hab => ?_
  rw [hab]
  exact hf b

theorem Follows.concat {part part' : α → Extract Mentions}
    (h : ∀ a, Follows Mentions.Within (part a) (part' a)) (l : List α) :
    Follows Mentions.Within (concat part l) (concat part' l) := by
  have hmap : Follows (List.Forall₂ Mentions.Within) (l.mapM part) (l.mapM part') := by
    induction l with
    | nil => exact follows_pure .nil
    | cons a l ih =>
      rw [List.mapM_cons, List.mapM_cons]
      exact (h a).bind fun _ _ hfirst => ih.bind fun _ _ hrest => follows_pure (.cons hfirst hrest)
  exact hmap.bind fun _ _ hlists => follows_pure (Mentions.within_flatten hlists)

/-- What is left out follows what is not. -/
theorem Follows.ite {p q : Prop} [Decidable p] [Decidable q] (hpq : p → q)
    {x y : Extract Mentions} (hxy : Follows Mentions.Within x y) (hy : y.Transparent) :
    Follows Mentions.Within (if p then x else pure []) (if q then y else pure []) := by
  by_cases hp : p
  · rw [if_pos hp, if_pos (hpq hp)]
    exact hxy
  · rw [if_neg hp]
    refine Transparent.follows_pure ?_ Mentions.within_nil
    split
    · exact hy
    · exact transparent_pure []

/-- Mentions that do not depend on the cache follow themselves. -/
theorem Transparent.follows_within {x : Extract Mentions} (h : x.Transparent) :
    Follows Mentions.Within x x := by
  have hbind : Follows Mentions.Within (x >>= pure) (x >>= pure) :=
    h.bind_follows fun a => Extract.follows_pure (Mentions.within_refl a)
  rwa [bind_pure] at hbind

/-! ## Parts of a unit -/

theorem annotationInfo_eq (config : ExtractionConfig) (pool : Pool) (info : AnnotationInfo) :
    annotationInfo config pool info = (do
      let first ← typeMention pool info.type
      let others ← (if config.annotationValues then elementValues pool info.elements else pure [])
      return first ++ others) := by
  unfold annotationInfo
  cases config.annotationValues <;> rfl

variable {config richer : ExtractionConfig} (hconfig : config.Within richer) (pool : Pool)
include hconfig

theorem follows_annotationInfo (info : AnnotationInfo) :
    Follows Mentions.Within (annotationInfo config pool info)
      (annotationInfo richer pool info) := by
  rw [annotationInfo_eq, annotationInfo_eq]
  have helements := transparent_elementValues pool info.elements
  refine (transparent_typeMention pool info.type).bind_follows fun first => ?_
  refine (Follows.ite hconfig.annotationValues helements.follows_within helements).bind
    fun _ _ h => ?_
  exact follows_pure ((Mentions.within_refl first).append h)

theorem follows_annotationInfos (visible : Bool) (infos : List AnnotationInfo) :
    Follows Mentions.Within (annotationInfos config pool visible infos)
      (annotationInfos richer pool visible infos) := by
  refine Follows.ite ?_ (Follows.concat (follows_annotationInfo hconfig pool) infos)
    (Transparent.concat (transparent_annotationInfo richer pool) infos)
  rw [Bool.or_eq_true, Bool.or_eq_true]
  exact Or.imp_right hconfig.invisible

theorem follows_annotationsOf (a : Attribute) :
    Follows Mentions.Within (annotationsOf config pool a) (annotationsOf richer pool a) := by
  cases a with
  | annotations visible infos => exact follows_annotationInfos hconfig pool visible infos
  | parameterAnnotations visible parameters =>
    exact follows_annotationInfos hconfig pool visible parameters.flatten
  | typeAnnotations visible infos => exact follows_annotationInfos hconfig pool visible _
  | defaultValue value =>
    have hvalue := transparent_elementValue pool value
    exact Follows.ite hconfig.annotationValues hvalue.follows_within hvalue
  | code | exceptions | signature | other => exact (transparent_pure []).follows_within

theorem follows_annotationsOfDetail (detail : CodeDetail) :
    Follows Mentions.Within (annotationsOfDetail config pool detail)
      (annotationsOfDetail richer pool detail) := by
  cases detail with
  | typeAnnotations visible infos => exact follows_annotationInfos hconfig pool visible _
  | other name length => exact (transparent_pure []).follows_within

/-- The larger number of two views is at least that of the first one. -/
theorem follows_withSignature (tally : Tally) (text? : Option String)
    (view : String → Except Malformed Tally) :
    Follows Mentions.Within (withSignature config tally text? view)
      (withSignature richer tally text? view) := by
  cases hask : config.signatures with
  | true =>
    have hsame : withSignature config tally text? view = withSignature richer tally text? view := by
      unfold withSignature
      rw [hask, hconfig.signatures hask]
    rw [hsame]
    exact (transparent_withSignature richer tally text? view).follows_within
  | false =>
    have hplain : withSignature config tally text? view = pure tally.toList := by
      unfold withSignature
      rw [hask]
    rw [hplain]
    unfold withSignature
    split
    · next text _ =>
      -- What the second view gives does not matter, only that it is added to the first one.
      have hview : Follows (fun _ _ => True) (pure () : Extract Unit) (ofText (view text)) :=
        (transparent_ofExcept _).follows_pure fun _ => trivial
      exact hview.bind fun _ other _ => follows_pure (Tally.within_mergeMax tally other)
    · exact follows_pure (Mentions.within_refl _)

theorem follows_field (m : Member) :
    Follows Mentions.Within (field config pool m) (field richer pool m) := by
  refine (transparent_fieldType m.descriptor).bind_follows fun type => ?_
  refine (follows_withSignature hconfig _ _ _).bind fun _ _ hdeclared => ?_
  refine (Follows.concat (follows_annotationsOf hconfig pool) _).bind fun _ _ hannotations => ?_
  exact follows_pure (hdeclared.append hannotations)

theorem follows_code (body : Code) :
    Follows Mentions.Within (code config pool body) (code richer pool body) := by
  refine (transparent_ofExcept _).bind_follows fun entries => ?_
  refine (Transparent.mapM transparent_entryClass? _).bind_follows fun classes => ?_
  refine (Follows.concat (follows_annotationsOfDetail hconfig pool) _).bind
    fun _ _ hannotations => ?_
  exact follows_pure ((Mentions.within_refl _).append hannotations)

theorem follows_method (m : Member) :
    Follows Mentions.Within (method config pool m) (method richer pool m) := by
  refine (gives_methodType m.descriptor).transparent.bind_follows fun type => ?_
  refine (Transparent.mapM (transparent_thrownClass? pool) _).bind_follows fun thrown => ?_
  refine (follows_withSignature hconfig _ _ _).bind fun declared declared' hdeclared => ?_
  have hrest (body body' : Mentions) (hbody : Mentions.Within body body') :
      Follows Mentions.Within
        (do
          let annotations ← Extract.concat (annotationsOf config pool) m.attributes
          return declared ++ body ++ annotations)
        (do
          let annotations ← Extract.concat (annotationsOf richer pool) m.attributes
          return declared' ++ body' ++ annotations) := by
    refine (Follows.concat (follows_annotationsOf hconfig pool) _).bind fun _ _ hannotations => ?_
    exact follows_pure ((hdeclared.append hbody).append hannotations)
  cases m.code? with
  | none => exact (transparent_pure []).follows_within.bind hrest
  | some body => exact (follows_code hconfig pool body).bind hrest

theorem follows_unit (u : CompiledUnit) :
    Follows Mentions.Within (unit config u) (unit richer u) := by
  refine (follows_withSignature hconfig _ _ _).bind fun _ _ hheader => ?_
  refine (Follows.concat (follows_annotationsOf hconfig u.pool) _).bind
    fun _ _ hannotations => ?_
  refine (Follows.concat (follows_field hconfig u.pool) _).bind fun _ _ hfields => ?_
  refine (Follows.concat (follows_method hconfig u.pool) _).bind fun _ _ hmethods => ?_
  exact follows_pure (((hheader.append hannotations).append hfields).append hmethods)

end Extract

/-! ## References -/

namespace UnitReferences

/-- The references of one unit, of which the second list everything in the first at least as
often. -/
structure Within (refs richer : UnitReferences) : Prop where
  unit : refs.unit = richer.unit
  counts : ∀ link n, refs.counts.get? link = some n →
    ∃ m, richer.counts.get? link = some m ∧ n.val ≤ m.val

/-- No count is 0, and the unit itself is not listed. -/
def Proper (refs : UnitReferences) : Prop :=
  ∀ link n, refs.counts.get? link = some n → n ≠ 0 ∧ link.unit ≠ refs.unit

theorem Proper.addCount {refs : UnitReferences} (h : refs.Proper) (target : String)
    (kind : EdgeKind) (n : Count) : (refs.addCount target kind n).Proper := by
  unfold UnitReferences.addCount
  split
  · exact h
  · split
    · exact h
    · next leaf _ hkept =>
      rw [not_or] at hkept
      intro link m hm
      rw [SortedMap.get?_alter] at hm
      split at hm
      · next hlink =>
        subst hlink
        cases hm
        refine ⟨fun hzero => hkept.1 (Count.eq_zero_of_add_eq_zero hzero), hkept.2⟩
      · exact h link m hm

theorem Proper.addAll {refs : UnitReferences} (h : refs.Proper) (mentions : Mentions) :
    (refs.addAll mentions).Proper := by
  induction mentions generalizing refs with
  | nil => exact h
  | cons m mentions ih => exact ih (h.addCount _ _ _)

/-- What is listed after adding mentions up. -/
theorem get?_addAll_empty {unit target : String} {kind : EdgeKind} {mentions : Mentions}
    {n : Count} :
    ((empty unit).addAll mentions).counts.get? ⟨target, kind⟩ = some n ↔
      target ≠ unit ∧ timesMentioned mentions target kind ≠ 0 ∧
        n = .ofNat (timesMentioned mentions target kind) := by
  have hproper : ((empty unit).addAll mentions).Proper :=
    Proper.addAll (by simp [Proper, empty]) mentions
  have hcount (hself : target ≠ unit) :
      (((empty unit).addAll mentions).counts.get? ⟨target, kind⟩).getD 0 =
        .ofNat (timesMentioned mentions target kind) := by
    have hadd : ((empty unit).addAll mentions).count target kind =
        .ofNat 0 + .ofNat (timesMentioned mentions target kind) := count_addAll hself mentions
    rwa [Count.ofNat_add, Nat.zero_add] at hadd
  constructor
  · intro hn
    obtain ⟨hne, hself⟩ := hproper _ n hn
    rw [unit_addAll] at hself
    have hvalue := hcount hself
    rw [hn, Option.getD_some] at hvalue
    exact ⟨hself, fun hzero => hne (hvalue.trans (Count.ofNat_eq_zero_iff.2 hzero)), hvalue⟩
  · rintro ⟨hself, hpos, rfl⟩
    have hvalue := hcount hself
    cases hget : ((empty unit).addAll mentions).counts.get? ⟨target, kind⟩ with
    | none =>
      rw [hget] at hvalue
      exact absurd (Count.ofNat_eq_zero_iff.1 hvalue.symm) hpos
    | some m =>
      rw [hget] at hvalue
      exact congrArg some hvalue

theorem within_addAll {mentions richer : Mentions} (h : Mentions.Within mentions richer)
    (unit : String) : ((empty unit).addAll mentions).Within ((empty unit).addAll richer) where
  unit := by rw [unit_addAll, unit_addAll]
  counts link n hn := by
    obtain ⟨hself, hpos, rfl⟩ := get?_addAll_empty.1 hn
    have hle := h link.unit link.kind
    refine ⟨_, get?_addAll_empty.2 ⟨hself, by omega, rfl⟩, ?_⟩
    rw [Count.val_ofNat, Count.val_ofNat]
    omega

end UnitReferences

/-- A unit that can be extracted under the richer configuration can be under the other one, and
nothing is counted more often then. -/
theorem exists_within_of_extractUnit {config richer : ExtractionConfig}
    (hconfig : config.Within richer) (u : CompiledUnit) {refs : UnitReferences}
    (h : (extractUnit richer u .empty).1 = .ok refs) :
    ∃ fewer, (extractUnit config u .empty).1 = .ok fewer ∧ fewer.Within refs := by
  obtain ⟨mentions, hmentions, rfl⟩ := exists_of_map_eq_ok h
  obtain ⟨fewer, after, hfewer, hwithin, -⟩ := Extract.follows_unit hconfig u .empty .empty mentions
    _ DescriptorCache.sound_empty DescriptorCache.sound_empty (Prod.ext hmentions rfl)
  refine ⟨_, ?_, UnitReferences.within_addAll hwithin u.name⟩
  rw [extractUnit, hfewer]
  rfl

end ClassAtlas
