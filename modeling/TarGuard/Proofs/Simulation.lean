import TarGuard.Proofs.Ends

namespace TarGuard

-- Where the first program succeeds, the second does so from a related state: with the same result,
-- and the states in which they end are related again.
def Simulates (r : σ → σ → Prop) (p q : EStateM ε σ α) : Prop :=
  ∀ s s' a t, r s s' → p s = .ok a t → ∃ t', q s' = .ok a t' ∧ r t t'

namespace Simulates

variable {r : σ → σ → Prop} {p q : EStateM ε σ α} {f g : α → EStateM ε σ β} {s t : σ} {a : α}

theorem refl (p : EStateM ε σ α) : Simulates Eq p p := by
  rintro s _ a t rfl h
  exact ⟨t, h, rfl⟩

theorem eq_ok (h : Simulates Eq p q) (hp : p s = .ok a t) : q s = .ok a t := by
  obtain ⟨_, hq, rfl⟩ := h s s a t rfl hp
  exact hq

theorem pure (a : α) : Simulates r (pure a : EStateM ε σ α) (Pure.pure a) := by
  intro s s' b t hs hb
  cases hb
  exact ⟨s', rfl, hs⟩

theorem bind (h : Simulates r p q) (hf : ∀ a, Simulates r (f a) (g a)) :
    Simulates r (p >>= f) (q >>= g) := by
  intro s s' b u hs hb
  cases hp : p s with
  | ok a t =>
    have ⟨t', hq, ht⟩ := h s s' a t hs hp
    rw [bind_of_ok hp] at hb
    rw [bind_of_ok hq]
    exact hf a t t' b u ht hb
  | error e t => cases (bind_of_error hp).symm.trans hb

theorem require {x y : Except ε α} (h : ∀ a, x = .ok a → y = .ok a) :
    Simulates r (require x : EStateM ε σ α) (TarGuard.require y) := by
  cases x with
  | ok a =>
    rw [h a rfl]
    exact pure a
  | error e => exact fun _ _ _ _ _ he => nomatch he

theorem modify {f : σ → σ} (h : ∀ s s', r s s' → r (f s) (f s')) :
    Simulates r (modify f : EStateM ε σ PUnit) (modify f) := by
  intro s s' a t hs ht
  cases ht
  exact ⟨f s', rfl, h s s' hs⟩

end Simulates
end TarGuard
