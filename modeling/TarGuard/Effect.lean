namespace TarGuard

def require (r : Except ε α) : EStateM ε σ α :=
  match r with
  | .ok a => pure a
  | .error e => throw e

def finalState (x : EStateM ε σ α) (s : σ) : σ :=
  match x s with
  | .ok _ t => t
  | .error _ t => t

def withCleanUp (f : σ → σ) (x : EStateM ε σ α) : EStateM ε σ α := fun s =>
  match x s with
  | .ok a t => .ok a t
  | .error e t => .error e (f t)

def Keeps (r : σ → σ → Prop) (x : EStateM ε σ α) : Prop :=
  ∀ s, r s (finalState x s)

namespace Keeps

variable {r : σ → σ → Prop}

theorem of_ok {x : EStateM ε σ α} {s t : σ} {a : α} (h : Keeps r x) (hx : x s = .ok a t) :
    r s t := by
  have := h s
  rwa [finalState, hx] at this

theorem of_error {x : EStateM ε σ α} {s t : σ} {e : ε} (h : Keeps r x) (hx : x s = .error e t) :
    r s t := by
  have := h s
  rwa [finalState, hx] at this

theorem pure [Std.Refl r] (a : α) : Keeps r (Pure.pure a : EStateM ε σ α) := Std.Refl.refl

theorem throw [Std.Refl r] (e : ε) : Keeps r (MonadExcept.throw e : EStateM ε σ α) := Std.Refl.refl

theorem require [Std.Refl r] (x : Except ε α) : Keeps r (TarGuard.require x : EStateM ε σ α) := by
  cases x
  · exact throw _
  · exact pure _

theorem get [Std.Refl r] : Keeps r (MonadState.get : EStateM ε σ σ) := Std.Refl.refl

theorem modify {f : σ → σ} (h : ∀ s, r s (f s)) :
    Keeps r (modify f : EStateM ε σ PUnit) := h

theorem bind [Trans r r r] {x : EStateM ε σ α} {f : α → EStateM ε σ β} (hx : Keeps r x)
    (hf : ∀ a, Keeps r (f a)) : Keeps r (x >>= f) := by
  intro s
  cases h : x s with
  | ok a t =>
    have : finalState (x >>= f) s = finalState (f a) t := by
      simp [finalState, Bind.bind, EStateM.bind, h]
    rw [this]
    exact Trans.trans (hx.of_ok h) (hf a t)
  | error e t =>
    have : finalState (x >>= f) s = t := by
      simp [finalState, Bind.bind, EStateM.bind, h]
    rw [this]
    exact hx.of_error h

theorem withCleanUp [Trans r r r] {x : EStateM ε σ α} {f : σ → σ} (hx : Keeps r x)
    (hf : ∀ s, r s (f s)) : Keeps r (withCleanUp f x) := by
  intro s
  cases h : x s with
  | ok a t => simpa [finalState, TarGuard.withCleanUp, h] using hx.of_ok h
  | error e t =>
    simpa [finalState, TarGuard.withCleanUp, h] using Trans.trans (hx.of_error h) (hf t)

end Keeps
end TarGuard
