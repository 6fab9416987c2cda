import PullQuery.Proofs.Usage.Store

/-!
Steps that use stores properly. A predicate on a state and the usages of the stores below it is
carried through the parts of a step one after the other; the stores of other parts do not move.
-/

namespace PullQuery

variable {α β σ τ : Type}

def Beside (R : σ → Usages → Prop) (S : τ → Usages → Prop) (p : σ × τ) (us : Usages) : Prop :=
  ∃ u v, us = u ++ v ∧ R p.1 u ∧ S p.2 v

namespace Step

variable {us vs : Usages} {P R : σ → Usages → Prop} {S : τ → Usages → Prop}

/-- The log of the step takes the stores to usages that hold with the state after it. -/
def Leaves (x : Step α σ) (us : Usages) (R : σ → Usages → Prop) : Prop :=
  ∃ us', Uses x.log us us' ∧ R x.state us'

namespace Leaves

variable {x : Step α σ}

theorem mono (h : x.Leaves us P) (hr : ∀ us, P x.state us → R x.state us) : x.Leaves us R := by
  obtain ⟨us', hu, hp⟩ := h
  exact ⟨us', hu, hr us' hp⟩

theorem done {a : α} {s : σ} (h : R s us) : (Step.done a s).Leaves us R := ⟨us, .refl us, h⟩

theorem within {f : σ → τ} (h : x.Leaves us fun s us => S (f s) us) : (x.within f).Leaves us S := h

theorem mapValue {f : α → β} (h : x.Leaves us R) : (x.mapValue f).Leaves us R := h

theorem andThen {f : α → σ → Step β τ} (h : x.Leaves us P)
    (hf : ∀ us, P x.state us → (f x.value x.state).Leaves us S) : (x.andThen f).Leaves us S := by
  obtain ⟨us', hu, hp⟩ := h
  obtain ⟨us'', hu', hs⟩ := hf us' hp
  exact ⟨us'', hu.trans hu', hs⟩

theorem thenOk {x : Step (Except Error α) σ} {g : σ → τ}
    {f : α → σ → Step (Except Error β) τ} (h : x.Leaves us P)
    (he : ∀ e us, x.value = .error e → P x.state us → S (g x.state) us)
    (hf : ∀ a us, x.value = .ok a → P x.state us → (f a x.state).Leaves us S) :
    (x.thenOk g f).Leaves us S := by
  refine andThen h fun us hp => ?_
  rcases hv : x.value with e | a
  · exact done (he e us hv hp)
  · exact hf a us hv hp

theorem left (vs : Usages) (h : x.Leaves us R) :
    x.Leaves (vs ++ us) fun s ws => ∃ us', ws = vs ++ us' ∧ R s us' := by
  obtain ⟨us', hu, hr⟩ := h
  exact ⟨vs ++ us', hu.left vs, us', rfl, hr⟩

theorem right (vs : Usages) (h : x.Leaves us R) :
    x.Leaves (us ++ vs) fun s ws => ∃ us', ws = us' ++ vs ∧ R s us' := by
  obtain ⟨us', hu, hr⟩ := h
  exact ⟨us' ++ vs, hu.right vs, us', rfl, hr⟩

theorem fst {t : τ} (h : x.Leaves us R) (ht : S t vs) :
    (x.within (·, t)).Leaves (us ++ vs) (Beside R S) := by
  refine within ((h.right vs).mono ?_)
  rintro _ ⟨us', rfl, hr⟩
  exact ⟨us', vs, rfl, hr, ht⟩

theorem snd {y : Step α τ} {s : σ} (h : y.Leaves vs S) (hs : R s us) :
    (y.within (s, ·)).Leaves (us ++ vs) (Beside R S) := by
  refine within ((h.left us).mono ?_)
  rintro _ ⟨vs', rfl, hv⟩
  exact ⟨us, vs', rfl, hs, hv⟩

theorem thenOk_fst {x : Step (Except Error α) σ} {t : τ}
    {f : α → σ → Step (Except Error β) (σ × τ)} (h : x.Leaves us R) (ht : S t vs)
    (hf : ∀ a us, R x.state us → (f a x.state).Leaves (us ++ vs) (Beside R S)) :
    (x.thenOk (·, t) f).Leaves (us ++ vs) (Beside R S) := by
  refine (h.right vs).thenOk ?_ ?_
  · rintro _ _ _ ⟨us', rfl, hr⟩
    exact ⟨us', vs, rfl, hr, ht⟩
  · rintro a _ _ ⟨us', rfl, hr⟩
    exact hf a us' hr

end Leaves

end Step

end PullQuery
