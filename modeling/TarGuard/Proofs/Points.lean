import TarGuard.Proofs.Counting
import TarGuard.Proofs.Phases

namespace TarGuard

open FileSystem SecureDirectory EntryPath

namespace Extractor

-- What there is to do when the records with these entries are done, and a phase has been reached.
inductive At (x : Extractor) (names : List String) (base : Location) (s : Session) :
    List Entry → Phase → Session → Prop
  | ready {es u} : x.Completed names base es s u → At x names base s es .ready u
  | within {es u v h p t} : x.Completed names base es s u → x.Begun names h u v →
    p.Holds names base u.files h t.files → t.summary = u.summary →
    x.record (pathTo names) u = (x.rest p >>= fun _ => pure true) t → At x names base s es p t

variable {x : Extractor} {names : List String} {base : Location} {s t u : Session} {h : Header}
  {hs : List Header} {e : Entry} {es : List Entry} {p q : Phase}

theorem Begun.first_holds (hb : x.Begun names h s t) (hl : s.files.Leads names base) :
    Ends (Phase.first (pathTo names) h (pathTo (h.trail ++ names))) t
      (fun p t' => t' = t ∧ p.Holds names base s.files h t.files) (fun _ t' => t' = t) := by
  have ha := accepted_of_resolve hb.resolved
  have ho := ha.allOrdinary.append hl.ordinary
  have hl : t.files.Leads names base := hb.files ▸ hl
  rw [← hb.files]
  cases hk : h.kind with
  | directory =>
    rw [Phase.first_directory hk, levels_eq ho]
    refine Ends.pure ⟨rfl, .start ?_ hl⟩
    simp [Header.place, hk]
  | regular =>
    have hab := (ha.allOrdinary.suffix (List.tail_suffix h.trail)).append hl.ordinary
    rw [Phase.first_regular hk, Header.parent?_pathTo ho, Option.map_some, Option.getD_some,
      levels_eq hab]
    refine Ends.pure ⟨rfl, .start ?_ hl⟩
    simp [Header.place, hk]
  | hardLink =>
    rw [Phase.first_link (.inl hk)]
    exact Ends.throw rfl
  | symbolicLink =>
    rw [Phase.first_link (.inr hk)]
    exact Ends.throw rfl
  | other =>
    rw [Phase.first_other hk]
    exact Ends.pure ⟨rfl, .skipping (Grows.refl t.files)⟩

theorem rest_step {root : Path} (hp : p ≠ .ready) (h : x.step root p t = .ok (some q) u) :
    (x.rest p >>= fun _ => (pure true : Extraction Bool)) t =
      (x.rest q >>= fun _ => (pure true : Extraction Bool)) u := by
  rw [x.rest_eq root hp, bind_assoc]
  simp only [bind, EStateM.bind, h]

theorem step_ready_ends (x : Extractor) (hl : t.files.Leads names base) :
    Ends (x.step (pathTo names) .ready) t
      (fun o u => match o with
        | some q => ∃ h v, x.Begun names h t v ∧ q.Holds names base t.files h u.files
        | none => u.files = t.files)
      (fun _ u => u.files = t.files) := by
  rw [step_ready]
  refine (next_ends x hl.ordinary t).bind (fun _ _ he => he) ?_
  intro o v hb
  match o with
  | none => exact Ends.pure hb.1
  | some (h, target) =>
    have ⟨hbegun, he⟩ := hb
    subst he
    refine (hbegun.first_holds hl).bind ?_ ?_
    · intro _ u hu
      rw [hu, hbegun.files]
    · intro q u ⟨hu, hq⟩
      subst hu
      exact Ends.pure ⟨h, u, hbegun, hq⟩

theorem At.step (ha : x.At names base s es p t) (hl : s.files.Leads names base)
    (hx : x.step (pathTo names) p t = .ok (some q) u) :
    ∃ es', es'.map (·.header) = q.completed p (es.map (·.header)) ∧ x.At names base s es' q u := by
  have hsum := (x.step_countsLast (pathTo names) p t).of_ok hx
  cases ha with
  | ready hc =>
    have hl := hc.leads hl
    have ⟨h, v, hb, hq⟩ := (step_ready_ends x hl).of_ok hx
    refine ⟨es, ?_, .within hc hb hq (hsum (by simp [hq.ne_ready])) ?_⟩
    · have hn := hq.ne_ready
      rw [Phase.completed_of_ne hn]
    · rw [record_eq_step hl.ordinary]
      simp only [bind, EStateM.bind, hx]
  | within hc hb hp hs hr =>
    have hl := hc.leads hl
    have ha := accepted_of_resolve hb.resolved
    have hr := hr.trans (rest_step hp.ne_ready hx)
    rcases (hp.step_ends ha hb.paddedSize).of_ok hx with ho | ⟨q', ho, hq⟩
    case inl =>
      -- The record is done.
      cases ho
      have ⟨e, he⟩ := (record_ends x hl).of_ok hr
      refine ⟨es ++ [e], ?_, .ready (hc.snoc he)⟩
      rw [List.map_append, Phase.completed, hp.header?, ← he.header.unique hb.header]
      rfl
    case inr =>
      cases ho
      refine ⟨es, ?_, .within hc hb hq ((hsum (by simp [hq.ne_ready])).trans hs) hr⟩
      rw [Phase.completed_of_ne hq.ne_ready]

theorem Reaches.at (h : x.Reaches (pathTo names) s hs p t) (hl : s.files.Leads names base) :
    ∃ es, es.map (·.header) = hs ∧ x.At names base s es p t := by
  induction h with
  | start => exact ⟨[], rfl, .ready (.nil s)⟩
  | step _ hx ih =>
    have ⟨es, he, ha⟩ := ih
    have ⟨es', he', ha'⟩ := ha.step hl hx
    exact ⟨es', he ▸ he', ha'⟩

end Extractor
end TarGuard
