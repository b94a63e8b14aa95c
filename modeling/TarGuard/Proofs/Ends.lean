import TarGuard.Extraction.Session

namespace TarGuard

-- Irreducible, so that nothing runs a program to see what is said of it.
@[irreducible]
def Ends (x : EStateM ε σ α) (s : σ) (done : α → σ → Prop) (failed : ε → σ → Prop) : Prop :=
  match x s with
  | .ok a t => done a t
  | .error e t => failed e t

theorem finalState_of_ok {y : EStateM ε σ α} {s t : σ} {a : α} (h : y s = .ok a t) :
    finalState y s = t := by
  simp [finalState, h]

theorem finalState_of_error {y : EStateM ε σ α} {s t : σ} {e : ε} (h : y s = .error e t) :
    finalState y s = t := by
  simp [finalState, h]

theorem bind_of_ok {x : EStateM ε σ α} {f : α → EStateM ε σ β} {s t : σ} {a : α}
    (h : x s = .ok a t) : (x >>= f) s = f a t := by
  simp only [Bind.bind, EStateM.bind, h]

theorem bind_of_error {x : EStateM ε σ α} {f : α → EStateM ε σ β} {s t : σ} {e : ε}
    (h : x s = .error e t) : (x >>= f) s = .error e t := by
  simp only [Bind.bind, EStateM.bind, h]

theorem Extraction.onInput_of_ok {x : EStateM ExtractError Input α} {s : Session} {a : α}
    {input : Input} (h : x s.input = .ok a input) :
    onInput x s = .ok a { s with input := input } := by
  simp only [onInput, h]

theorem Extraction.onInput_of_error {x : EStateM ExtractError Input α} {s : Session}
    {e : ExtractError} {input : Input} (h : x s.input = .error e input) :
    onInput x s = .error e { s with input := input } := by
  simp only [onInput, h]

theorem Extraction.onFiles_of_ok {x : EStateM ExtractError FileSystem α} {s : Session} {a : α}
    {files : FileSystem} (h : x s.files = .ok a files) :
    onFiles x s = .ok a { s with files := files } := by
  simp only [onFiles, h]

theorem Extraction.onFiles_of_error {x : EStateM ExtractError FileSystem α} {s : Session}
    {e : ExtractError} {files : FileSystem} (h : x s.files = .error e files) :
    onFiles x s = .error e { s with files := files } := by
  simp only [onFiles, h]

theorem Extractor.onOutput_of_ok {x : Extractor}
    {call : Option OutputFile.Failure → EStateM ExtractError FileSystem α} {s : Session} {a : α}
    {files : FileSystem} (h : call (x.failure? s.input.delivered) s.files = .ok a files) :
    x.onOutput call s = .ok a { s with files := files } :=
  Extraction.onFiles_of_ok h

theorem Extractor.onOutput_of_error {x : Extractor}
    {call : Option OutputFile.Failure → EStateM ExtractError FileSystem α} {s : Session}
    {e : ExtractError} {files : FileSystem}
    (h : call (x.failure? s.input.delivered) s.files = .error e files) :
    x.onOutput call s = .error e { s with files := files } :=
  Extraction.onFiles_of_error h

theorem Extractor.onOutput_congr {x y : Extractor} (h : x.failure? = y.failure?)
    (call : Option OutputFile.Failure → EStateM ExtractError FileSystem α) :
    x.onOutput call = y.onOutput call := by
  rw [onOutput, onOutput, h]

theorem get_apply (s : σ) : EStateM.get s = (.ok s s : EStateM.Result ε σ σ) := rfl

namespace Ends

variable {x : EStateM ε σ α} {s t : σ} {done done' : α → σ → Prop} {failed failed' : ε → σ → Prop}

theorem of_ok (h : Ends x s done failed) {a : α} (hx : x s = .ok a t) : done a t := by
  rwa [Ends, hx] at h

theorem of_error (h : Ends x s done failed) {e : ε} (hx : x s = .error e t) : failed e t := by
  rwa [Ends, hx] at h

theorem intro (hd : ∀ a t, x s = .ok a t → done a t) (hf : ∀ e t, x s = .error e t → failed e t) :
    Ends x s done failed := by
  unfold Ends
  split
  · exact hd _ _ ‹_›
  · exact hf _ _ ‹_›

theorem of_eq {a : α} (hx : x s = .ok a t) (hd : done a t) : Ends x s done failed := by
  rwa [Ends, hx]

theorem of_eq_error {e : ε} (hx : x s = .error e t) (hf : failed e t) : Ends x s done failed := by
  rwa [Ends, hx]

theorem finalState {p : σ → Prop} (h : Ends x s (fun _ t => p t) fun _ t => p t) :
    p (finalState x s) := by
  cases hx : x s with
  | ok a t => exact finalState_of_ok hx ▸ h.of_ok hx
  | error e t => exact finalState_of_error hx ▸ h.of_error hx

theorem of_finalState {p : σ → Prop} (h : p (TarGuard.finalState x s)) :
    Ends x s (fun _ t => p t) fun _ t => p t :=
  intro (fun _ _ hx => finalState_of_ok hx ▸ h) (fun _ _ hx => finalState_of_error hx ▸ h)

theorem any : Ends x s (fun _ _ => True) (fun _ _ => True) :=
  intro (fun _ _ _ => trivial) (fun _ _ _ => trivial)

theorem eq (x : EStateM ε σ α) (s : σ) :
    Ends x s (fun a t => x s = .ok a t) (fun e t => x s = .error e t) :=
  intro (fun _ _ h => h) (fun _ _ h => h)

theorem and (h : Ends x s done failed) (h' : Ends x s done' failed') :
    Ends x s (fun a t => done a t ∧ done' a t) (fun e t => failed e t ∧ failed' e t) :=
  intro (fun _ _ hx => ⟨h.of_ok hx, h'.of_ok hx⟩) (fun _ _ hx => ⟨h.of_error hx, h'.of_error hx⟩)

theorem imp (h : Ends x s done failed) (hd : ∀ a t, done a t → done' a t)
    (hf : ∀ e t, failed e t → failed' e t) : Ends x s done' failed' :=
  intro (fun a t hx => hd a t (h.of_ok hx)) (fun e t hx => hf e t (h.of_error hx))

theorem pure {a : α} (h : done a s) : Ends (Pure.pure a) s done failed := by
  rwa [Ends]

theorem throw {e : ε} (h : failed e s) : Ends (MonadExcept.throw e) s done failed := by
  rwa [Ends]

theorem bind {f : α → EStateM ε σ β} {done' : β → σ → Prop} (h : Ends x s done failed)
    (he : ∀ e t, failed e t → failed' e t) (hd : ∀ a t, done a t → Ends (f a) t done' failed') :
    Ends (x >>= f) s done' failed' := by
  rw [Ends]
  simp only [Bind.bind, EStateM.bind]
  cases hx : x s with
  | ok a t =>
    have := hd a t (h.of_ok hx)
    rwa [Ends] at this
  | error e t => exact he e t (h.of_error hx)

theorem bind_ok {f : α → EStateM ε σ β} {done : β → σ → Prop} {a : α} (hx : x s = .ok a t)
    (h : Ends (f a) t done failed) : Ends (x >>= f) s done failed := by
  rw [Ends] at *
  rwa [bind_of_ok hx]

theorem bind_congr {f g : α → EStateM ε σ β}
    (h : Ends x s (fun a t => f a t = g a t) (fun _ _ => True)) : (x >>= f) s = (x >>= g) s := by
  simp only [Bind.bind, EStateM.bind]
  cases hx : x s with
  | ok a t => exact h.of_ok hx
  | error e t => rfl

theorem throw_bind {e : ε} {f : α → EStateM ε σ β} {done : β → σ → Prop} (h : failed e s) :
    Ends (MonadExcept.throw e >>= f) s done failed := by
  rw [Ends]
  exact h

theorem get_bind {f : σ → EStateM ε σ α} (h : Ends (f s) s done failed) :
    Ends (MonadState.get >>= f) s done failed := by
  rw [Ends] at *
  exact h

theorem set {done : PUnit → σ → Prop} (h : done ⟨⟩ t) :
    Ends (MonadStateOf.set t : EStateM ε σ PUnit) s done failed := by
  rwa [Ends]

theorem adaptExcept {f : ε → ε'} {failed : ε' → σ → Prop}
    (h : Ends x s done fun e t => failed (f e) t) : Ends (x.adaptExcept f) s done failed := by
  rw [Ends, EStateM.adaptExcept]
  cases hx : x s with
  | ok a t => exact h.of_ok hx
  | error e t => exact h.of_error hx

theorem modify {f : σ → σ} {done : PUnit → σ → Prop} (h : done ⟨⟩ (f s)) :
    Ends (modify f : EStateM ε σ PUnit) s done failed := by
  rwa [Ends]

theorem modify_bind {f : σ → σ} {g : PUnit → EStateM ε σ α} (h : Ends (g ⟨⟩) (f s) done failed) :
    Ends (MonadStateOf.modifyGet (fun s => (⟨⟩, f s)) >>= g) s done failed := by
  rw [Ends] at *
  exact h

theorem require {r : Except ε α} (hd : ∀ a, r = .ok a → done a s)
    (hf : ∀ e, r = .error e → failed e s) : Ends (TarGuard.require r) s done failed := by
  cases r with
  | ok a => exact pure (hd a rfl)
  | error e => exact throw (hf e rfl)

theorem require_bind {r : Except ε α} {f : α → EStateM ε σ β} {done : β → σ → Prop}
    (hd : ∀ a, r = .ok a → Ends (f a) s done failed) (hf : ∀ e, r = .error e → failed e s) :
    Ends (TarGuard.require r >>= f) s done failed := by
  cases r with
  | ok a =>
    have := hd a rfl
    rw [Ends] at *
    exact this
  | error e =>
    rw [Ends]
    exact hf e rfl

theorem withCleanUp {f : σ → σ} (h : Ends x s done fun e t => failed e (f t)) :
    Ends (TarGuard.withCleanUp f x) s done failed := by
  unfold Ends TarGuard.withCleanUp
  cases hx : x s with
  | ok a t => exact h.of_ok hx
  | error e t => exact h.of_error hx

theorem onFiles {x : EStateM ExtractError FileSystem α} {s : Session}
    {done : α → FileSystem → Prop} {failed : ExtractError → FileSystem → Prop}
    (h : Ends x s.files done failed) :
    Ends (Extraction.onFiles x) s (fun a t => ∃ fs, done a fs ∧ t = { s with files := fs })
      (fun e t => ∃ fs, failed e fs ∧ t = { s with files := fs }) := by
  unfold Ends Extraction.onFiles
  cases hx : x s.files with
  | ok a t => exact ⟨t, h.of_ok hx, rfl⟩
  | error e t => exact ⟨t, h.of_error hx, rfl⟩

theorem onFiles_of_safe {x : EStateM ExtractError FileSystem α} {s : Session}
    {done : α → FileSystem → Prop} (h : Ends x s.files done fun _ _ => False) :
    Ends (Extraction.onFiles x) s (fun a t => ∃ fs, done a fs ∧ t = { s with files := fs })
      (fun _ _ => False) :=
  h.onFiles.imp (fun _ _ h => h) fun _ _ h => h.elim fun _ h => h.1

theorem onFiles_modify {f : FileSystem → FileSystem} {s : Session}
    {done : PUnit → Session → Prop} {failed : ExtractError → Session → Prop}
    (h : done ⟨⟩ { s with files := f s.files }) :
    Ends (Extraction.onFiles (MonadStateOf.modifyGet fun fs => (⟨⟩, f fs))) s done failed := by
  rw [Ends]
  exact h

theorem onOutput {x : Extractor}
    {call : Option OutputFile.Failure → EStateM ExtractError FileSystem α} {s : Session}
    {done : α → FileSystem → Prop} {failed : ExtractError → FileSystem → Prop}
    (h : Ends (call (x.failure? s.input.delivered)) s.files done failed) :
    Ends (x.onOutput call) s (fun a t => ∃ fs, done a fs ∧ t = { s with files := fs })
      (fun e t => ∃ fs, failed e fs ∧ t = { s with files := fs }) :=
  get_bind h.onFiles

theorem onInput {x : EStateM ExtractError Input α} {s : Session} {done : α → Input → Prop}
    {failed : ExtractError → Input → Prop} (h : Ends x s.input done failed) :
    Ends (Extraction.onInput x) s (fun a t => ∃ input, done a input ∧ t = { s with input := input })
      (fun e t => ∃ input, failed e input ∧ t = { s with input := input }) := by
  unfold Ends Extraction.onInput
  cases hx : x s.input with
  | ok a t => exact ⟨t, h.of_ok hx, rfl⟩
  | error e t => exact ⟨t, h.of_error hx, rfl⟩

end Ends
end TarGuard
