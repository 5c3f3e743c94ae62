import Mathlib.Data.List.Forall2
import ClassAtlas.Proofs.Extraction.Cache
import ClassAtlas.Proofs.Outcome

/-!
# Runs of an extraction

Two ways to reason about a computation that uses a cache, step by step along its binds: what its
result is like if it succeeds, and by which other computation it can be replaced.

## Main definitions

* `Extract.Yields` is a postcondition on successful runs under sound caches.
* `Extract.ReplacedBy` compares the successful runs of two computations.
-/

namespace ClassAtlas.Extract

variable {α β : Type}

/-! ## Postconditions -/

/-- Under every sound cache a result has the property, if there is one, and the cache stays sound. -/
def Yields (x : Extract α) (P : α → Prop) : Prop :=
  ∀ cache : DescriptorCache, cache.Sound →
    (x.run.run cache).2.Sound ∧ ∀ a, (x.run.run cache).1 = .ok a → P a

theorem Gives.yields {x : Extract α} {r : Except DecodeError α} (h : x.Gives r) :
    x.Yields fun a => r = .ok a := by
  intro cache hc
  obtain ⟨hr, hsound⟩ := h cache hc
  exact ⟨hsound, fun a ha => hr ▸ ha⟩

theorem yields_pure {a : α} {P : α → Prop} (h : P a) : (pure a : Extract α).Yields P := by
  intro cache hc
  refine ⟨hc, fun b hb => ?_⟩
  cases hb
  exact h

theorem Yields.bind {x : Extract α} {f : α → Extract β} {P : α → Prop} {Q : β → Prop}
    (hx : x.Yields P) (hf : ∀ a, P a → (f a).Yields Q) : (x >>= f).Yields Q := by
  intro cache hc
  obtain ⟨hsound, hresult⟩ := hx cache hc
  rw [ExceptT.run_bind, StateT.run_bind]
  cases hrun : x.run.run cache with
  | mk result cache' =>
    rw [hrun] at hsound hresult
    cases result with
    | error e => exact ⟨hsound, fun b hb => by cases hb⟩
    | ok a => exact hf a (hresult a rfl) cache' hsound

/-- A first step whose result is known. -/
theorem Yields.bind_eq {x : Extract α} {f : α → Extract β} {a : α} {Q : β → Prop}
    (hx : x.Yields (· = a)) (hf : (f a).Yields Q) : (x >>= f).Yields Q :=
  hx.bind fun _ ha => ha ▸ hf

theorem Yields.imp {x : Extract α} {P Q : α → Prop} (hx : x.Yields P) (h : ∀ a, P a → Q a) :
    x.Yields Q := fun cache hc => (hx cache hc).imp_right fun hresult a ha => h a (hresult a ha)

theorem yields_ofExcept (r : Except DecodeError α) : (ofExcept r).Yields fun a => r = .ok a :=
  (gives_ofExcept r).yields

theorem yields_ofText (r : Except Malformed α) : (ofText r).Yields fun a => r = .ok a :=
  (yields_ofExcept _).imp fun _ h => ok_of_mapError_eq_ok h

theorem yields_fieldType (text : String) :
    (fieldType text).Yields fun t => FieldType.parse text = .ok t :=
  (gives_fieldType text).yields.imp fun _ h => ok_of_mapError_eq_ok h

theorem yields_methodType (text : String) :
    (methodType text).Yields fun t => MethodType.parse text = .ok t :=
  (gives_methodType text).yields.imp fun _ h => ok_of_mapError_eq_ok h

theorem Yields.mapM {part : α → Extract β} {P : α → β → Prop} (h : ∀ a, (part a).Yields (P a))
    (l : List α) : (l.mapM part).Yields fun bs => List.Forall₂ P l bs := by
  induction l with
  | nil => exact yields_pure .nil
  | cons a l ih =>
    rw [List.mapM_cons]
    exact (h a).bind fun b hb => ih.bind fun bs hbs => yields_pure (.cons hb hbs)

theorem yields_concat {part : α → Extract Mentions} {P : α → Mentions → Prop}
    (h : ∀ a, (part a).Yields (P a)) (l : List α) :
    (concat part l).Yields fun ms => ∃ lists, List.Forall₂ P l lists ∧ ms = lists.flatten :=
  (Yields.mapM h l).bind fun lists hlists => yields_pure ⟨lists, hlists, rfl⟩

/-! ## Replacement -/

/-- Wherever the first computation succeeds, so does the second, with the same result and the same
cache afterwards. -/
def ReplacedBy (x y : Extract α) : Prop :=
  ∀ cache a cache', x.run.run cache = (.ok a, cache') → y.run.run cache = (.ok a, cache')

theorem ReplacedBy.refl (x : Extract α) : x.ReplacedBy x := fun _ _ _ h => h

theorem ReplacedBy.bind {x y : Extract α} {f g : α → Extract β} (hx : x.ReplacedBy y)
    (hf : ∀ a, (f a).ReplacedBy (g a)) : (x >>= f).ReplacedBy (y >>= g) := by
  intro cache b cache' h
  rw [ExceptT.run_bind, StateT.run_bind] at h ⊢
  cases hrun : x.run.run cache with
  | mk result mid =>
    rw [hrun] at h
    cases result with
    | error e => cases h
    | ok a =>
      rw [hx cache a mid hrun]
      exact hf a mid b cache' h

theorem replacedBy_ofExcept {r s : Except DecodeError α} (h : ∀ a, r = .ok a → s = .ok a) :
    (ofExcept r).ReplacedBy (ofExcept s) := by
  intro cache a cache' hr
  cases r with
  | error e => cases hr
  | ok b =>
    cases hr
    rw [h a rfl]
    rfl

theorem ReplacedBy.concat {part : α → Extract Mentions} {R : α → α → Prop}
    (h : ∀ a b, R a b → (part a).ReplacedBy (part b)) {l m : List α} (hlm : List.Forall₂ R l m) :
    (concat part l).ReplacedBy (concat part m) := by
  refine ReplacedBy.bind ?_ fun _ => .refl _
  induction hlm with
  | nil => exact .refl _
  | @cons a b _ _ hab _ ih =>
    rw [List.mapM_cons, List.mapM_cons]
    exact (h a b hab).bind fun _ => ih.bind fun _ => .refl _

end ClassAtlas.Extract
