import TarGuard.Proofs.Steps

namespace TarGuard.Extractor

variable {x : Extractor} {h : Header}

-- What does not count, leaves the summary alone.
def SameSummary (s t : Session) : Prop :=
  t.summary = s.summary

namespace SameSummary

instance : Std.Refl SameSummary where
  refl _ := rfl

instance : Trans SameSummary SameSummary SameSummary where
  trans h₁ h₂ := h₂.trans h₁

theorem onFiles {y : EStateM ExtractError FileSystem α} :
    Keeps SameSummary (Extraction.onFiles y) := by
  intro s
  unfold finalState Extraction.onFiles
  cases y s.files <;> rfl

theorem onInput {y : EStateM ExtractError Input α} : Keeps SameSummary (Extraction.onInput y) := by
  intro s
  unfold finalState Extraction.onInput
  cases y s.input <;> rfl

theorem cleanUp {y : Extraction α} {file : OutputFile} (h : Keeps SameSummary y) :
    Keeps SameSummary (withCleanUp (discarding file) y) :=
  h.withCleanUp fun _ => rfl

theorem checkCancelled : Keeps SameSummary x.checkCancelled := by
  refine Keeps.bind Keeps.get fun _ => ?_
  split
  · exact Keeps.throw _
  · exact Keeps.pure _

theorem onOutput {call : Option OutputFile.Failure → EStateM ExtractError FileSystem α} :
    Keeps SameSummary (x.onOutput call) :=
  Keeps.bind Keeps.get fun _ => onFiles

theorem copyChunk {file : OutputFile} {left : Nat} : Keeps SameSummary (x.copyChunk file left) :=
  Keeps.bind checkCancelled fun _ => Keeps.bind onInput fun _ => onOutput

theorem next {root : Path} : Keeps SameSummary (x.next root) := by
  refine Keeps.bind checkCancelled fun _ => Keeps.bind onInput fun o => ?_
  cases o with
  | none => exact Keeps.pure _
  | some block =>
    refine Keeps.bind (Keeps.require _) fun h => Keeps.bind ?_ fun _ => ?_
    · exact Keeps.bind (Keeps.modify fun _ => rfl) fun _ =>
        Keeps.bind Keeps.get fun _ => Keeps.require _
    · exact Keeps.bind (Keeps.require _) fun _ => Keeps.pure _

theorem first {root target : Path} : Keeps SameSummary (Phase.first root h target) := by
  cases hk : h.kind with
  | directory =>
    rw [Phase.first_directory hk]
    exact Keeps.pure _
  | regular =>
    rw [Phase.first_regular hk]
    exact Keeps.pure _
  | hardLink =>
    rw [Phase.first_link (.inl hk)]
    exact Keeps.throw _
  | symbolicLink =>
    rw [Phase.first_link (.inr hk)]
    exact Keeps.throw _
  | other flag =>
    rw [Phase.first_other hk]
    exact Keeps.pure _

theorem ends {y : Extraction α} (h : Keeps SameSummary y) (s : Session) :
    Ends y s (fun _ t => t.summary = s.summary) (fun _ t => t.summary = s.summary) :=
  Ends.intro (fun _ _ hx => h.of_ok hx) fun _ _ hx => h.of_error hx

end SameSummary

def CountsLast (y : Extraction (Option Phase)) (s : Session) : Prop :=
  Ends y s (fun o t => o ≠ some .ready → t.summary = s.summary)
    (fun _ t => t.summary = s.summary)

theorem SameSummary.countsLast {y : Extraction (Option Phase)} (h : Keeps SameSummary y)
    (s : Session) : CountsLast y s :=
  (SameSummary.ends h s).imp (fun _ _ hs _ => hs) fun _ _ hs => hs

theorem SameSummary.count_countsLast {y : Extraction Unit} (h : Keeps SameSummary y)
    (f : Summary → Summary) (s : Session) :
    CountsLast (y >>= fun _ => Extraction.count f >>= fun _ => pure (some .ready)) s := by
  refine (SameSummary.ends h s).bind (fun _ _ he => he) fun _ t _ => ?_
  exact Ends.modify_bind (Ends.pure fun hn => absurd rfl hn)

theorem step_countsLast (x : Extractor) (root : Path) (p : Phase) (s : Session) :
    CountsLast (x.step root p) s := by
  cases p with
  | ready =>
    refine SameSummary.countsLast (Keeps.bind SameSummary.next fun o => ?_) s
    cases o with
    | none => exact Keeps.pure _
    | some a => exact Keeps.bind SameSummary.first fun _ => Keeps.pure _
  | making h target left =>
    cases left with
    | nil =>
      rw [step_making]
      split
      · exact SameSummary.countsLast (Keeps.pure _) s
      · exact SameSummary.countsLast (Keeps.bind SameSummary.onOutput fun _ => Keeps.pure _) s
    | cons p left =>
      exact SameSummary.countsLast (Keeps.bind SameSummary.onFiles fun _ => Keeps.pure _) s
  | filling h file left =>
    rw [step_filling]
    split
    · exact SameSummary.count_countsLast (SameSummary.cleanUp SameSummary.onInput) _ s
    · refine SameSummary.countsLast (Keeps.bind (SameSummary.cleanUp ?_) fun _ => Keeps.pure _) s
      exact SameSummary.copyChunk
  | skipping h => exact SameSummary.count_countsLast SameSummary.onInput _ s

end TarGuard.Extractor
