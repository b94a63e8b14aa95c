import TarGuard.Proofs.Record

namespace TarGuard.Extractor

open FileSystem

inductive Passes (x : Extractor) (root : Path) : Nat → Session → Session → Prop
  | none (s) : Passes x root 0 s s
  | next {s t u n} : x.record root s = .ok true t → Passes x root n t u → Passes x root (n + 1) s u

inductive Completed (x : Extractor) (root : List String) (base : Location) :
    List Entry → Session → Session → Prop
  | nil (s) : Completed x root base [] s s
  | cons {s t u e es} : x.Completes root base e s t → Completed x root base es t u →
    Completed x root base (e :: es) s u

variable {x : Extractor} {s t u : Session} {base : Location} {root : List String} {e : Entry}
  {es : List Entry} {n : Nat}

theorem records_ends (x : Extractor) (root : Path) (s : Session) :
    Ends (x.records root) s
      (fun _ t => ∃ n u, x.Passes root n s u ∧ x.record root u = .ok false t)
      (fun e t => ∃ n u, x.Passes root n s u ∧ x.record root u = .error e t) := by
  rw [Ends]
  fun_induction records x root s with
  | case1 s t h ih =>
    split at ih
    · obtain ⟨n, u, hp, hu⟩ := ih
      exact ⟨n + 1, u, .next h hp, hu⟩
    · obtain ⟨n, u, hp, hu⟩ := ih
      exact ⟨n + 1, u, .next h hp, hu⟩
  | case2 s t h => exact ⟨0, s, .none s, h⟩
  | case3 s e t h => exact ⟨0, s, .none s, h⟩

section Records

variable {path : Path} {error : ExtractError}

theorem records_of_next (h : x.record path s = .ok true t) :
    x.records path s = x.records path t := by
  rw [records]
  split <;> cases h.symm.trans ‹_›
  rfl

theorem records_of_end (h : x.record path s = .ok false t) : x.records path s = .ok () t := by
  rw [records]
  split <;> cases h.symm.trans ‹_›
  rfl

theorem records_of_error (h : x.record path s = .error error t) :
    x.records path s = .error error t := by
  rw [records]
  split <;> cases h.symm.trans ‹_›
  rfl

end Records

namespace Completes

theorem leads (h : x.Completes root base e s t) (hl : s.files.Leads root base) :
    t.files.Leads root base :=
  hl.grows h.added.grows

theorem clock (h : x.Completes root base e s t) : t.files.clock = s.files.clock :=
  h.added.grows.clock

end Completes

namespace Completed

theorem leads (h : x.Completed root base es s t) (hl : s.files.Leads root base) :
    t.files.Leads root base := by
  induction h with
  | nil => exact hl
  | cons hc _ ih => exact ih (hc.leads hl)

theorem snoc (hc : x.Completed root base es s t) (he : x.Completes root base e t u) :
    x.Completed root base (es ++ [e]) s u := by
  induction hc with
  | nil => exact .cons he (.nil u)
  | cons hc _ ih => exact .cons hc (ih he)

theorem exists_completes (h : x.Completed root base es s t) (he : e ∈ es) :
    ∃ es₁ es₂ s' t', x.Completed root base es₁ s s' ∧ x.Completes root base e s' t' ∧
      x.Completed root base es₂ t' t := by
  induction h with
  | nil => cases he
  | cons hc hes ih =>
    cases he with
    | head => exact ⟨[], _, _, _, .nil _, hc, hes⟩
    | tail _ he =>
      have ⟨es₁, es₂, s', t', h₁, hc', h₂⟩ := ih he
      exact ⟨_ :: es₁, es₂, s', t', .cons hc h₁, hc', h₂⟩

theorem grows (h : x.Completed root base es s t) :
    Grows (fun l node => ∃ e ∈ es, e.Provides base s.files.clock l node) s.files t.files := by
  induction h with
  | nil s => exact Grows.refl s.files
  | cons hc _ ih =>
    apply Grows.trans
    case g₁ => exact hc.added.grows.mono fun l node hw => ⟨_, List.mem_cons_self, hw⟩
    case g₂ =>
      apply ih.mono
      intro l node ⟨e, he, hw⟩
      rw [hc.clock] at hw
      exact ⟨e, List.mem_cons_of_mem _ he, hw⟩

end Completed

theorem Passes.completed (h : x.Passes (pathTo root) n s t) (hl : s.files.Leads root base) :
    ∃ es, es.length = n ∧ x.Completed root base es s t := by
  induction h with
  | none s => exact ⟨[], rfl, .nil s⟩
  | next hr _ ih =>
    have ⟨e, hc⟩ := (record_ends x hl).of_ok hr
    have ⟨es, hn, hes⟩ := ih (hc.leads hl)
    exact ⟨e :: es, by simp [hn], .cons hc hes⟩

theorem Passes.leads (h : x.Passes (pathTo root) n s t) (hl : s.files.Leads root base) :
    t.files.Leads root base := by
  have ⟨_, _, hc⟩ := h.completed hl
  exact hc.leads hl

end TarGuard.Extractor
