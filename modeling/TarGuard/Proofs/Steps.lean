import TarGuard.Proofs.Records

namespace TarGuard

open FileSystem SecureDirectory Extraction

inductive Phase
  | ready
  | making (h : Header) (target : Path) (left : List Path)
  | filling (h : Header) (file : OutputFile) (left : Nat)
  | skipping (h : Header)

namespace Phase

def header? : Phase → Option Header
  | ready => none
  | making h _ _ | filling h _ _ | skipping h => some h

def completed (q p : Phase) (hs : List Header) : List Header :=
  match q with
  | ready => hs ++ p.header?.toList
  | _ => hs

theorem completed_of_ne {q p : Phase} {hs : List Header} (hq : q ≠ .ready) :
    q.completed p hs = hs := by
  cases q with
  | ready => exact absurd rfl hq
  | making | filling | skipping => rfl

-- An upper bound for the steps up to the next record.
def rank : Phase → Nat
  | ready => 0
  | skipping _ => 1
  | filling _ _ left => left + 2
  | making h _ left => left.length + h.size.toNat + 4

def first (root : Path) (h : Header) (target : Path) : Extraction Phase :=
  match h.kind with
  | .directory => return making h target (levels root target)
  | .regular => return making h target ((target.parent?.map (levels root)).getD [])
  | .hardLink | .symbolicLink => throw .linkDetected
  | .other _ => return skipping h

variable {root target : Path} {h : Header}

theorem first_directory (hk : h.kind = .directory) :
    first root h target = pure (making h target (levels root target)) := by
  rw [first, hk]

theorem first_regular (hk : h.kind = .regular) :
    first root h target = pure (making h target ((target.parent?.map (levels root)).getD [])) := by
  rw [first, hk]

theorem first_link (hk : h.kind = .hardLink ∨ h.kind = .symbolicLink) :
    first root h target = throw .linkDetected := by
  cases hk with
  | inl hk | inr hk => rw [first, hk]

theorem first_other {flag : UInt8} (hk : h.kind = .other flag) :
    first root h target = pure (skipping h) := by
  rw [first, hk]

end Phase

namespace Extractor

def discarding (file : OutputFile) : Session → Session :=
  fun s => { s with files := file.discard s.files }

theorem discarding_eq (file : OutputFile) :
    discarding file = fun s => { s with files := file.discard s.files } := rfl

-- One step, and where the extraction is then, unless it is at the end of the archive.
def step (x : Extractor) (root : Path) : Phase → Extraction (Option Phase)
  | .ready => do
    match ← x.next root with
    | none => return none
    | some (h, target) => return some (← Phase.first root h target)
  | .making h target (p :: left) => do
    onFiles (level p)
    return some (.making h target left)
  | .making h target [] =>
    if h.kind = .directory then
      return some (.skipping h)
    else do
      let file ← x.onOutput (OutputFile.create · target)
      return some (.filling h file h.size.toNat)
  | .filling h file left =>
    if left = 0 then do
      withCleanUp (discarding file) (onInput (Input.skip (padding h.size).toNat))
      count fun s => s.with h
      return some .ready
    else do
      withCleanUp (discarding file) (x.copyChunk file left)
      return some (.filling h file (left - chunkSize))
  | .skipping h => do
    onInput (Input.skipPayload h)
    count fun s => s.with h
    return some .ready

theorem step_ready (x : Extractor) (root : Path) :
    x.step root .ready = x.next root >>= fun o =>
      match o with
      | none => return none
      | some (h, target) => return some (← Phase.first root h target) := rfl

theorem step_making (x : Extractor) (root : Path) (h : Header) (target : Path) :
    x.step root (.making h target []) =
      if h.kind = .directory then
        return some (.skipping h)
      else do
        let file ← x.onOutput (OutputFile.create · target)
        return some (.filling h file h.size.toNat) := rfl

theorem step_filling (x : Extractor) (root : Path) (h : Header) (file : OutputFile) (left : Nat) :
    x.step root (.filling h file left) =
      if left = 0 then do
        withCleanUp (discarding file) (onInput (Input.skip (padding h.size).toNat))
        count fun s => s.with h
        return some .ready
      else do
        withCleanUp (discarding file) (x.copyChunk file left)
        return some (.filling h file (left - chunkSize)) := rfl

def rest (x : Extractor) : Phase → Extraction Unit
  | .ready => pure ()
  | .making h target left => do
    onFiles (left.forM level)
    if h.kind = .directory then do
      onInput (Input.skipPayload h)
      count fun s => s.with h
    else do
      let file ← x.onOutput (OutputFile.create · target)
      withCleanUp (discarding file) (x.fillFile file h.size)
      count fun s => s.with h
  | .filling h file left => do
    withCleanUp (discarding file) do
      x.copyPayload file left
      onInput (Input.skip (padding h.size).toNat)
    count fun s => s.with h
  | .skipping h => do
    onInput (Input.skipPayload h)
    count fun s => s.with h

variable {x : Extractor} {root : List String}

theorem onFiles_pure (a : α) : onFiles (pure a) = pure a := rfl

theorem onFiles_bind (y : EStateM ExtractError FileSystem α)
    (f : α → EStateM ExtractError FileSystem β) :
    onFiles (y >>= f) = onFiles y >>= fun a => onFiles (f a) := by
  funext s
  simp only [onFiles, bind, EStateM.bind]
  cases y s.files <;> rfl

theorem withCleanUp_bind (f : σ → σ) (y : EStateM ε σ α) (g : α → EStateM ε σ β) :
    withCleanUp f (y >>= g) = withCleanUp f y >>= fun a => withCleanUp f (g a) := by
  funext s
  simp only [withCleanUp, bind, EStateM.bind]
  cases y s <;> rfl

theorem rest_eq (x : Extractor) (root : Path) {p : Phase} (hp : p ≠ .ready) :
    x.rest p = x.step root p >>= fun o =>
      match o with
      | some q => x.rest q
      | none => pure () := by
  cases p with
  | ready => exact absurd rfl hp
  | making h target left =>
    cases left with
    | nil =>
      by_cases hk : h.kind = .directory
      · simp [rest, step_making, hk, onFiles_pure]
      · simp [rest, step_making, hk, onFiles_pure, fillFile]
    | cons p left => simp [rest, step, onFiles_bind]
  | filling h file left =>
    by_cases hl : left = 0
    · subst hl
      rw [rest, copyPayload, step_filling, if_pos rfl, if_pos rfl]
      simp [rest]
    · rw [rest, copyPayload_eq hl, step_filling, if_neg hl]
      simp [rest, withCleanUp_bind]
  | skipping h => simp [rest, step]

theorem step_rank (x : Extractor) (root : Path) {p : Phase} (hp : p ≠ .ready) (s : Session) :
    Ends (x.step root p) s (fun o _ => ∃ q, o = some q ∧ q.rank < p.rank) (fun _ _ => True) := by
  cases p with
  | ready => exact absurd rfl hp
  | making h target left =>
    cases left with
    | nil =>
      rw [step_making]
      split
      · exact Ends.pure ⟨_, rfl, by simp [Phase.rank]⟩
      · refine Ends.any.bind (fun _ _ h => h) fun _ _ _ => Ends.pure ⟨_, rfl, ?_⟩
        simp only [Phase.rank, List.length_nil]
        omega
    | cons p left =>
      refine Ends.any.bind (fun _ _ h => h) fun _ _ _ => Ends.pure ⟨_, rfl, ?_⟩
      simp only [Phase.rank, List.length_cons]
      omega
  | filling h file left =>
    rw [step_filling]
    split
    · refine Ends.any.bind (fun _ _ h => h) fun _ _ _ => ?_
      exact Ends.any.bind (fun _ _ h => h) fun _ _ _ => Ends.pure ⟨_, rfl, by simp [Phase.rank]⟩
    · refine Ends.any.bind (fun _ _ h => h) fun _ _ _ => Ends.pure ⟨_, rfl, ?_⟩
      simp only [Phase.rank, chunkSize]
      omega
  | skipping h =>
    refine Ends.any.bind (fun _ _ h => h) fun _ _ _ => ?_
    exact Ends.any.bind (fun _ _ h => h) fun _ _ _ => Ends.pure ⟨_, rfl, by simp [Phase.rank]⟩

theorem count_count (f g : Summary → Summary) :
    (count f >>= fun _ => count g) = count fun s => g (f s) := rfl

theorem make_eq_forM {trail : List String} (ho : AllOrdinary (trail ++ root)) :
    make (pathTo root) (pathTo (trail ++ root)) =
      (levels (pathTo root) (pathTo (trail ++ root))).forM level := by
  rw [make, if_pos (startsWith_pathTo trail ho)]

theorem dispatch_eq {h : Header} (ho : AllOrdinary h.trail) (hr : AllOrdinary root) :
    (do
      x.dispatch (pathTo root) (pathTo (h.trail ++ root)) h
      count fun s => { s with bytesExtracted := s.bytesExtracted + h.size }) =
    Phase.first (pathTo root) h (pathTo (h.trail ++ root)) >>= fun p => x.rest p := by
  cases hk : h.kind with
  | directory =>
    rw [dispatch_directory hk, Phase.first_directory hk]
    simp [hk, make_eq_forM (ho.append hr), rest, count_count, Summary.with]
  | regular =>
    have hparent := Header.parent?_pathTo (ho.append hr)
    have ha := (ho.suffix (List.tail_suffix h.trail)).append hr
    rw [dispatch_regular hk, Phase.first_regular hk]
    simp [hk, writeFile, makeParent, hparent, make_eq_forM ha, rest, count_count, Summary.with,
      discarding_eq]
  | hardLink =>
    rw [dispatch_link (.inl hk), Phase.first_link (.inl hk)]
    rfl
  | symbolicLink =>
    rw [dispatch_link (.inr hk), Phase.first_link (.inr hk)]
    rfl
  | other flag =>
    rw [dispatch_other hk, Phase.first_other hk]
    simp [hk, rest, count_count, Summary.with]

-- A record is a first step, and then what there is to do.
theorem record_eq_step (ho : AllOrdinary root) (s : Session) :
    x.record (pathTo root) s =
      (x.step (pathTo root) .ready >>= fun o =>
        match o with
        | none => pure false
        | some p => do
          x.rest p
          return true) s := by
  rw [record_eq, step_ready, bind_assoc]
  refine Ends.bind_congr ((next_ends x ho s).imp ?_ fun _ _ _ => trivial)
  intro o t hb
  match o with
  | none => rfl
  | some (h, target) =>
    have ⟨hb, he⟩ := hb
    have ha := EntryPath.accepted_of_resolve hb.resolved
    have hd := dispatch_eq (x := x) ha.allOrdinary ho
    subst he
    simp only [bind_assoc, pure_bind]
    rw [← bind_assoc, ← bind_assoc, hd]

-- From the first record of an archive on an extraction comes to this point, and to the end of the
-- records with these headers on the way.
inductive Reaches (x : Extractor) (root : Path) (s : Session) : List Header → Phase → Session → Prop
  | start : Reaches x root s [] .ready s
  | step {hs p q t u} : Reaches x root s hs p t → x.step root p t = .ok (some q) u →
    Reaches x root s (q.completed p hs) q u

theorem Reaches.rest_ends {s t : Session} {hs : List Header} {p : Phase} {root : Path}
    (h : x.Reaches root s hs p t) :
    Ends (x.rest p) t (fun _ u => ∃ hs', x.Reaches root s hs' .ready u)
      (fun e u => ∃ hs' q v, x.Reaches root s hs' q v ∧ x.step root q v = .error e u) := by
  induction hr : p.rank using Nat.strong_induction_on generalizing hs p t with
  | _ n ih =>
    by_cases hp : p = .ready
    case pos =>
      subst hp
      exact Ends.pure ⟨hs, h⟩
    case neg =>
      rw [x.rest_eq root hp]
      refine (Ends.eq (x.step root p) t).bind ?_ ?_
      · intro e u hu
        exact ⟨hs, p, t, h, hu⟩
      · intro o u hu
        have ⟨q, ho, hq⟩ := (x.step_rank root hp t).of_ok hu
        subst ho
        exact ih q.rank (hr ▸ hq) (h.step hu) rfl

theorem Reaches.record_ends {s t : Session} {hs : List Header} (ho : AllOrdinary root)
    (h : x.Reaches (pathTo root) s hs .ready t) :
    Ends (x.record (pathTo root)) t
      (fun more u => match more with
        | true => ∃ hs', x.Reaches (pathTo root) s hs' .ready u
        | false => x.step (pathTo root) .ready t = .ok none u)
      (fun e u => ∃ hs' q v, x.Reaches (pathTo root) s hs' q v ∧
        x.step (pathTo root) q v = .error e u) := by
  rw [Ends, record_eq_step ho, ← Ends]
  refine (Ends.eq (x.step (pathTo root) .ready) t).bind ?_ ?_
  · intro e u hu
    exact ⟨hs, .ready, t, h, hu⟩
  · intro o u hu
    cases o with
    | none => exact Ends.pure hu
    | some p => exact (h.step hu).rest_ends.bind (fun _ _ he => he) fun _ _ hr => Ends.pure hr

theorem Passes.reaches {s t u : Session} {hs : List Header} {n : Nat} (ho : AllOrdinary root)
    (hp : x.Passes (pathTo root) n t u) (h : x.Reaches (pathTo root) s hs .ready t) :
    ∃ hs', x.Reaches (pathTo root) s hs' .ready u := by
  induction hp generalizing hs with
  | none => exact ⟨hs, h⟩
  | next hr _ ih =>
    have ⟨_, h⟩ := (h.record_ends ho).of_ok hr
    exact ih h

end Extractor
end TarGuard
